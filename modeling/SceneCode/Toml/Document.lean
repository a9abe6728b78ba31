import SceneCode.Toml.Moment
import SceneCode.Toml.Number
import SceneCode.Toml.Quoted
import SceneCode.Toml.Value

/-!
# Settings files

A settings file is written in TOML, line by line: a header `[a.b]`, a repeated header `[[a.b]]`, or
a key and its value.  Keys belong to the table of the last header.  Arrays may go over several
lines; tables between braces may not.
-/

namespace SceneCode.Toml

/-- What has been read of a settings file. -/
structure Document where
  fields : Fields := []
  /-- The table of the last header; before the first one, the file itself. -/
  current : Path := []

namespace Document

/-- Define a key in the table of the last header. -/
def define (d : Document) (key : Path) (v : Value) : Option Document :=
  match d.current with
  | [] => (d.fields.define v key).map fun fields => { d with fields }
  | path => (d.fields.alter (Value.extended key v) path).map fun fields => { d with fields }

/-- Go on in the table of a header. -/
def openTable (d : Document) (path : Path) : Option Document :=
  (d.fields.alter Value.opened path).map fun fields => ⟨fields, path⟩

/-- Go on in a new table of a repeated header. -/
def openNext (d : Document) (path : Path) : Option Document :=
  (d.fields.alter Value.repeated path).map fun fields => ⟨fields, path⟩

end Document

namespace Reading

/-! ### Keys and values -/

/-- How deeply arrays and tables between braces may be nested. -/
def nestingLimit : Nat := 79

/-- How many parts a key may have. -/
def partLimit : Nat := 79

/-- The characters of keys without quotes. -/
def isKeyChar (c : Char) : Bool :=
  ('a' ≤ c && c ≤ 'z') || ('A' ≤ c && c ≤ 'Z') || c.isDigit || c = '_' || c = '-'

def keyPart : Reading String := do
  blanks
  let part ← match ← peek with
    | some '"' => line '"'
    | some '\x27' => line '\x27'
    | _ => do
      let first ← one isKeyChar
      pure (String.ofList (first :: (← takeWhile isKeyChar)))
  blanks
  return part

def key : Reading Path := do
  let parts ← separated '.' keyPart
  if parts.length ≤ partLimit then return parts else refuse

def comment : Reading Unit := do
  exactly ['#']
  let _ ← takeWhile isPlain

/-- Take the blank space in an array, comments included. -/
def space : Reading Unit := do
  let _ ← many (either lineBreak (either comment do
    let _ ← one fun c => c = ' ' || c = '\t'))

/-- Take an array of the given items, with a comma between each two and perhaps behind the last. -/
def array (item : Reading Value) : Reading (List Value) := do
  exactly ['[']
  let items ← optional <| separated ',' do
    space
    let v ← item
    space
    return v
  if items.isSome then
    let _ ← optional (exactly [','])
  space
  exactly [']']
  return items.getD []

/-- Take a key, the equals sign and a value. -/
def field (item : Reading Value) : Reading (Path × Value) := do
  let path ← key
  exactly ['=']
  blanks
  return (path, ← item)

def bracedTable (item : Reading Value) : Reading Fields := do
  exactly ['\x7b']
  let fields ← optional <| separated ',' do
    let f ← field item
    blanks
    return f
  blanks
  exactly ['\x7d']
  match (fields.getD []).foldlM (fun done f => Fields.define f.2 f.1 done) [] with
  | some fields => return fields
  | none => refuse

/-- Take a value that has no parts. -/
def scalar : Reading Value := do
  match ← peek with
  | some '"' => return .str (← text '"')
  | some '\x27' => return .str (← text '\x27')
  | some 't' =>
    exactly ['t', 'r', 'u', 'e']
    return .bool true
  | some 'f' =>
    exactly ['f', 'a', 'l', 's', 'e']
    return .bool false
  | _ => either (do moment; return .moment) (do number; return .number)

/-- Take a value with at most the given nesting. -/
def value : Nat → Reading Value
  | 0 => scalar
  | depth + 1 => do
    match ← peek with
    | some '[' => return .array (← array (value depth))
    | some '\x7b' => return .table .braces (← bracedTable (value depth))
    | _ => scalar

/-! ### Lines -/

/-- What the document is after a change that may be impossible. -/
def changed (d : Option Document) : Reading Document :=
  match d with
  | some d => return d
  | none => refuse

/-- Take what a line says. -/
def statement (d : Document) : Reading Document := do
  match ← get with
  | '[' :: '[' :: _ =>
    exactly ['[', '[']
    let path ← key
    exactly [']', ']']
    changed (d.openNext path)
  | '[' :: _ =>
    exactly ['[']
    let path ← key
    exactly [']']
    changed (d.openTable path)
  | '#' :: _ | '\n' :: _ | '\r' :: _ | [] => return d
  | _ =>
    let (path, v) ← field (value nestingLimit)
    changed (d.define path v)

def lineEnd : Reading Unit := do
  blanks
  let _ ← optional comment
  unless ← atEnd do lineBreak

/-- Take up to `n` lines. -/
def lines : Nat → Document → Reading Document
  | 0, d => return d
  | n + 1, d => do
    if ← atEnd then return d
    else
      blanks
      let d ← statement d
      lineEnd
      lines n d

end Reading

/-- Read a settings file, without the mark that may open it; nothing when it is not well formed. -/
def read? (text : String) : Option Fields :=
  let chars := match text.toList with
    | '\ufeff' :: rest => rest
    | chars => chars
  match Reading.lines chars.length {} chars with
  | some (d, []) => some d.fields
  | _ => none

end SceneCode.Toml
