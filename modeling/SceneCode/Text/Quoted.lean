import SceneCode.Text.Printable
import SceneCode.Text.Decimal

/-!
# Quoted text in listings

A text in a listing stands between double quotes.  The quote, the backslash and four control
characters have an escape of their own; every other character without a printed shape is spelled
by its number in braces.  So the quoted text has no line break and ends at its first bare quote.
-/

namespace SceneCode.Text

def quotedChar (c : Char) : List Char :=
  match c with
  | '\x00' => ['\\', '0']
  | '\t' => ['\\', 't']
  | '\n' => ['\\', 'n']
  | '\r' => ['\\', 'r']
  | '"' => ['\\', '"']
  | '\\' => ['\\', '\\']
  | c =>
    if isPrintable c then [c]
    else '\\' :: 'u' :: '\x7b' :: (Nat.toDigits 16 c.toNat ++ ['\x7d'])

def quoted (s : String) : String :=
  String.ofList ('"' :: s.toList.flatMap quotedChar ++ ['"'])

end SceneCode.Text
