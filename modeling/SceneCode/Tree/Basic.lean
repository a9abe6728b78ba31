import SceneCode.Machine.Opcode
import SceneCode.Binary64.Basic

/-!
# Program trees

The parser of the drawing language hands over a program as a tree.  A position of the tree holds
one node, a sequence of positions in order, or nothing.  All three are constructors of one type,
because every position may hold any of them.
-/

namespace SceneCode

/-- The declared name of a type.  Only `void` has a meaning here; all other names are tags. -/
structure TypeName where
  name : String
deriving DecidableEq, Repr

/-- The return type of a function without a value. -/
def TypeName.void : TypeName := ⟨"void"⟩

/-- Whether a type is `void`. -/
def TypeName.isVoid (t : TypeName) : Bool :=
  t = .void

/-- A parameter of a function. -/
structure Param where
  type : TypeName
  name : String
deriving DecidableEq, Repr

/-- Operators on two values that are both computed. -/
inductive BinaryOp where
  | add | sub | mul | div | mod
  | eq | ne | lt | le | gt | ge
  | bitAnd | bitOr | bitXor | shl | shr | ushr
deriving DecidableEq, Repr

/-- The operation that computes an operator. -/
def BinaryOp.opcode : BinaryOp → Opcode
  | .add => .add
  | .sub => .sub
  | .mul => .mul
  | .div => .div
  | .mod => .mod
  | .eq => .eq
  | .ne => .ne
  | .lt => .lt
  | .le => .le
  | .gt => .gt
  | .ge => .ge
  | .bitAnd => .bitAnd
  | .bitOr => .bitOr
  | .bitXor => .bitXor
  | .shl => .shl
  | .shr => .shr
  | .ushr => .ushr

/-- Operators that compute their second value only if the first leaves the answer open. -/
inductive LogicalOp where
  | and | or
deriving DecidableEq, Repr

/-- The jump that leaves the second value out. -/
def LogicalOp.opcode : LogicalOp → Opcode
  | .and => .jumpIfFalse
  | .or => .jumpIfTrue

/-- Operators on one value. -/
inductive UnaryOp where
  | neg | not
deriving DecidableEq, Repr

/-- The operation that computes an operator. -/
def UnaryOp.opcode : UnaryOp → Opcode
  | .neg => .neg
  | .not => .not

/-- A change of a variable by one. -/
inductive StepOp where
  | increment | decrement
deriving DecidableEq, Repr

/-- The operation that a change by one amounts to. -/
def StepOp.opcode : StepOp → Opcode
  | .increment => .add
  | .decrement => .sub

/-- A value written in the program. -/
inductive Literal where
  | int (n : Int64)
  | float (x : Binary64)
  | bool (b : Bool)
  | str (s : String)
deriving DecidableEq

/-- A position of a program tree. -/
inductive Tree where
  /-- Nothing. -/
  | empty
  /-- Positions one after the other. -/
  | seq (items : List Tree)
  /-- A whole program. -/
  | program (body : Tree)
  /-- A block with a scope of its own. -/
  | block (body : Tree)
  /-- The definition of a function. -/
  | function (name : String) (params : List Param) (returns : TypeName) (body : Tree)
  /-- The end of a function's run, with a value unless `value` is empty. -/
  | ret (value : Tree)
  /-- The declaration of a variable. -/
  | declare (type : TypeName) (name : String)
  /-- The declaration of a variable with its first value. -/
  | declareWith (type : TypeName) (name : String) (value : Tree)
  /-- An assignment. -/
  | assign (name : String) (value : Tree)
  /-- An assignment that combines the old value with another. -/
  | compound (op : BinaryOp) (name : String) (value : Tree)
  /-- A change of a variable by one. -/
  | step (op : StepOp) (name : String)
  /-- A choice with one branch. -/
  | ifThen (cond body : Tree)
  /-- A choice with two branches. -/
  | ifElse (cond body other : Tree)
  /-- A loop that tests before each round. -/
  | whileLoop (cond body : Tree)
  /-- A loop that tests after each round. -/
  | doLoop (cond body : Tree)
  /-- A loop with a scope of its own, endless if `cond` is empty. -/
  | forLoop (init cond update body : Tree)
  /-- The call of a function. -/
  | call (name : String) (args : List Tree)
  /-- An operator on two values. -/
  | binary (op : BinaryOp) (lhs rhs : Tree)
  /-- An operator that may leave its second value out. -/
  | logical (op : LogicalOp) (lhs rhs : Tree)
  /-- An operator on one value. -/
  | unary (op : UnaryOp) (operand : Tree)
  /-- The value of a variable. -/
  | ident (name : String)
  /-- A value written in the program. -/
  | lit (value : Literal)

/-- Whether a position holds nothing. -/
def Tree.isEmpty : Tree → Bool
  | .empty => true
  | _ => false

end SceneCode
