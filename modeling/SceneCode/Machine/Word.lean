import SceneCode.Json.Printer
import SceneCode.Machine.Opcode
import SceneCode.Text.Quoted

/-!
# Code words

The code of a program is a sequence of words.  A word is an operation or a value that an operation
before it uses.  In a listing every kind of word can be told from the others by its text.  In a
program file a word is a bare scalar: operations, integers and addresses are all numbers there,
and only the place of a word in the code tells which it is.
-/

namespace SceneCode

/-- A place in the code, counted in words from its start. -/
abbrev Address := Nat

/-- One word of code. -/
inductive Word where
  /-- An operation. -/
  | op (o : Opcode)
  /-- An integer, also a frame depth, a slot or a number of arguments. -/
  | int (n : Int)
  /-- A double. -/
  | float (x : Binary64)
  /-- A truth value. -/
  | bool (b : Bool)
  /-- A text. -/
  | str (s : String)
  /-- The target of a jump or call. -/
  | addr (a : Address)
deriving DecidableEq, Repr

/-- Doubles in listings are positional from `0.0001` up to sixteen digits before the point, and a
    positive exponent has no sign. -/
def Word.floatLayout : Binary64.Layout where
  leastPlain := -4
  greatestPlain := 15
  exponentSign := ""
  tie := .upward
  nan := "NaN"
  infinity := "inf"
  negativeInfinity := "-inf"

/-- The text of a word in a listing.  An address has at least four digits after its mark. -/
def Word.text : Word → String
  | .op o => o.mnemonic
  | .int n => Text.signedDecimal n
  | .float x => Word.floatLayout.render x
  | .bool b => Json.boolText b
  | .str s => Text.quoted s
  | .addr a => "@" ++ Text.paddedDecimal 4 a

/-! ### Words in program files -/

/-- What a program file holds for one word. -/
inductive Scalar where
  | null
  | int (n : Int)
  | float (x : Binary64)
  | bool (b : Bool)
  | str (s : String)
deriving DecidableEq, Repr

/-- The scalar for a word.  A double that is not finite is lost. -/
def Word.scalar : Word → Scalar
  | .op o => .int o.byte
  | .int n => .int n
  | .float x => if x.isFinite then .float x else .null
  | .bool b => .bool b
  | .str s => .str s
  | .addr a => .int a

def Scalar.text : Scalar → String
  | .null => "null"
  | .int n => Text.signedDecimal n
  | .float x => Json.floatLayout.render x
  | .bool b => Json.boolText b
  | .str s => JsonText.quote s

end SceneCode
