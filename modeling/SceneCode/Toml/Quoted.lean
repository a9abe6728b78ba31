import SceneCode.Text.Decimal
import SceneCode.Toml.Reading

/-!
# Quoted texts in settings files

A text stands between double quotes, where a backslash begins an escape, or between single quotes,
where every character stands for itself.  With three quotes on each side it may have several
lines: a line break right after the opening is left out, every line break counts as one line feed,
and one or two quotes in a row are content.  Up to two quotes may touch the closing ones.
-/

namespace SceneCode.Toml.Reading

def numbered (digits : Nat) : Reading Char := do
  let spelled ← times digits (one fun c => (Text.hexDigitValue? c).isSome)
  let n := spelled.foldl (fun n c => n * 16 + (Text.hexDigitValue? c).getD 0) 0
  if n.isValidChar then return Char.ofNat n else refuse

def escape : Reading Char := do
  exactly ['\\']
  match ← one fun _ => true with
  | 'b' => return '\x08'
  | 't' => return '\t'
  | 'n' => return '\n'
  | 'f' => return '\x0c'
  | 'r' => return '\r'
  | '"' => return '"'
  | '\\' => return '\\'
  | 'u' => numbered 4
  | 'U' => numbered 8
  | _ => refuse

/-- Take an escaped line break, with all the blank space around it. -/
def continuation : Reading Unit := do
  exactly ['\\']
  blanks
  lineBreak
  let _ ← many (either lineBreak do let _ ← one fun c => c = ' ' || c = '\t')

/-- Take a character that stands for itself between the given quotes. -/
def bare (quote : Char) : Reading Char :=
  one fun c => isPlain c && c ≠ quote && !(quote = '"' && c = '\\')

/-- Take a text on one line. -/
def line (quote : Char) : Reading String := do
  exactly [quote]
  let content ← many (if quote = '"' then either (bare quote) escape else bare quote)
  exactly [quote]
  return String.ofList content

/-- Take the one or two quotes in a row that are content. -/
def innerQuotes (quote : Char) : Reading (List Char) := do
  let quotes ← takeWhile (· = quote)
  if quotes.length = 1 ∨ quotes.length = 2 then return quotes else refuse

/-- Take the quotes that close a text of several lines, and give back those that belong to it. -/
def closingQuotes (quote : Char) : Reading (List Char) := do
  let quotes ← takeWhile (· = quote)
  if 3 ≤ quotes.length ∧ quotes.length ≤ 5 then return quotes.drop 3 else refuse

/-- Take a piece of a text of several lines. -/
def piece (quote : Char) : Reading (List Char) :=
  let shared : Reading (List Char) :=
    either (do return [← bare quote])
      (either (do lineBreak; return ['\n']) (innerQuotes quote))
  if quote = '"' then
    either shared (either (do continuation; return []) (do return [← escape]))
  else shared

/-- Take a text of several lines. -/
def block (quote : Char) : Reading String := do
  exactly [quote, quote, quote]
  let _ ← optional lineBreak
  let pieces ← many (piece quote)
  let last ← closingQuotes quote
  return String.ofList (pieces.flatten ++ last)

/-- Take a text of either form. -/
def text (quote : Char) : Reading String :=
  either (block quote) (line quote)

end SceneCode.Toml.Reading
