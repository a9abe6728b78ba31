import SceneCode.Machine.Program

/-!
# Listings

A listing shows code one instruction a line.  `rows` splits any sequence of words, well formed or
not: an operation takes the operand words that follow it, fewer if the code ends before, and a word
where an operation should stand is a row of its own.  Each row tells where it starts, and the next
row starts right after it.
-/

namespace SceneCode

/-- What one row of a listing shows. -/
inductive Row.Content where
  /-- An operation with its operands, fewer than it wants only at the end of the code. -/
  | instruction (op : Opcode) (operands : List Word)
  /-- A word where an operation should stand. -/
  | data (w : Word)
deriving DecidableEq, Repr

/-- One row of a listing and the address it starts at. -/
structure Row where
  offset : Address
  content : Row.Content
deriving DecidableEq, Repr

namespace Row

/-- The number of words that a row shows. -/
def Content.size : Content → Nat
  | .instruction _ operands => 1 + operands.length
  | .data _ => 1

def Content.isTruncated : Content → Bool
  | .instruction op operands => operands.length < op.operandCount
  | .data _ => false

def Content.words : Content → List Word
  | .instruction op operands => .op op :: operands
  | .data w => [w]

def Content.text : Content → String
  | .data w => ".word " ++ w.text
  | .instruction op operands =>
    let shown := String.join (op.mnemonic :: operands.map fun w => " " ++ w.text)
    if operands.length < op.operandCount then shown ++ " <truncated>" else shown

/-- The row that starts with the word `w` and has the words `rest` behind it. -/
def Content.start (w : Word) (rest : List Word) : Content :=
  match w with
  | .op op => .instruction op (rest.take op.operandCount)
  | w => .data w

end Row

namespace Listing

/-- Split words that start at the address `offset` into rows. -/
def rows (offset : Address) : List Word → List Row
  | [] => []
  | w :: rest =>
    let content := Row.Content.start w rest
    ⟨offset, content⟩ :: rows (offset + content.size) (rest.drop (content.size - 1))
termination_by words => words.length
decreasing_by simp only [List.length_drop, List.length_cons]; omega

/-- The row at an address of some code, wherever its rows would start otherwise. -/
def rowAt? (words : List Word) (offset : Address) : Option Row.Content :=
  match words.drop offset with
  | [] => none
  | w :: rest => some (.start w rest)

/-- One line of a listing. -/
inductive Line where
  /-- The mark of an entry point. -/
  | entry (name : String) (offset : Address)
  /-- A row of the code. -/
  | row (r : Row)
deriving DecidableEq, Repr

def Line.text : Line → String
  | .entry name offset => Text.paddedDecimal 4 offset ++ "  <" ++ name ++ ">"
  | .row r => Text.paddedDecimal 4 r.offset ++ "  " ++ r.content.text

/-- The lines for one row: the marks of the entry points at its offset, then the row. -/
def linesOf (p : Program) (r : Row) : List Line :=
  (if p.init = some r.offset then [.entry "init" r.offset] else []) ++
  (if p.render = some r.offset then [.entry "render" r.offset] else []) ++
  [.row r]

def lines (p : Program) : List Line :=
  (rows 0 p.code).flatMap (linesOf p)

/-- The text of a listing, each line with its line break. -/
def text (p : Program) : String :=
  String.join ((lines p).map fun l => l.text ++ "\n")

end Listing

end SceneCode
