import SceneCode.Text.Decimal

/-!
# Pieces of JSON text

Texts of scalars, arrays and objects are put together here in the two layouts that the library
writes: everything on one line without blanks, and one item a line with two blanks of indentation
for each open container.
-/

namespace SceneCode.JsonText

/-- The characters that stand for one character inside a quoted text.  Only the quote, the
    backslash and the characters below the blank are escaped. -/
def escapeChar (c : Char) : List Char :=
  match c with
  | '"' => ['\\', '"']
  | '\\' => ['\\', '\\']
  | '\x08' => ['\\', 'b']
  | '\x0c' => ['\\', 'f']
  | '\n' => ['\\', 'n']
  | '\r' => ['\\', 'r']
  | '\t' => ['\\', 't']
  | c =>
    if c.toNat < 0x20 then '\\' :: 'u' :: (Text.paddedHex 4 c.toNat).toList
    else [c]

def quote (s : String) : String :=
  String.ofList ('"' :: s.toList.flatMap escapeChar ++ ['"'])

/-- How the items of a container are set apart. -/
inductive Style where
  /-- All on one line, without blanks. -/
  | compact
  /-- One item a line. -/
  | indented
deriving DecidableEq, Repr

/-- The blanks that open a line inside `depth` containers. -/
def indent (depth : Nat) : String :=
  String.ofList (List.replicate (2 * depth) ' ')

/-- Items between two brackets.  `depth` counts the containers around this one.  A container
    without items stays on one line. -/
def enclose (style : Style) (depth : Nat) (left right : String) (items : List String) : String :=
  match style, items with
  | _, [] => left ++ right
  | .compact, items => left ++ String.intercalate "," items ++ right
  | .indented, items =>
    left ++ "\n" ++ String.intercalate ",\n" (items.map (indent (depth + 1) ++ ·)) ++
      "\n" ++ indent depth ++ right

def array (style : Style) (depth : Nat) (items : List String) : String :=
  enclose style depth "[" "]" items

/-- What stands between a name and its value. -/
def Style.colon : Style → String
  | .compact => ":"
  | .indented => ": "

def object (style : Style) (depth : Nat) (fields : List (String × String)) : String :=
  enclose style depth "\x7b" "\x7d" (fields.map fun f => quote f.1 ++ style.colon ++ f.2)

end SceneCode.JsonText
