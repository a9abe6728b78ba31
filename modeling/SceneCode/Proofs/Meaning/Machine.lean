import Mathlib.Logic.Function.Basic
import SceneCode.Machine.Listing
import SceneCode.Tree.Basic

/-!
# The machine

What the operations do.  Values and operators are left open: a `Meaning` says what the literals are,
what the operators compute and which values count as true.  A data frame is a function on slots, and
the frames of the open scopes are listed from the innermost outwards.

Calls and returns have no step here.  The machine is for programs without functions.
-/

namespace SceneCode

/-- What values are and what operators compute. -/
structure Meaning (V : Type) where
  int : Int → V
  float : Binary64 → V
  bool : Bool → V
  str : String → V
  binary : BinaryOp → V → V → V
  unary : UnaryOp → V → V
  /-- Which values count as true. -/
  truthy : V → Bool
  /-- What a variable holds before anything is stored in it. -/
  default : V

namespace Opcode

/-- The operator that an operation computes from two values. -/
def binary? : Opcode → Option BinaryOp
  | .add => some .add
  | .sub => some .sub
  | .mul => some .mul
  | .div => some .div
  | .mod => some .mod
  | .eq => some .eq
  | .ne => some .ne
  | .lt => some .lt
  | .le => some .le
  | .gt => some .gt
  | .ge => some .ge
  | .bitAnd => some .bitAnd
  | .bitOr => some .bitOr
  | .bitXor => some .bitXor
  | .shl => some .shl
  | .shr => some .shr
  | .ushr => some .ushr
  | _ => none

/-- The operator that an operation computes from one value. -/
def unary? : Opcode → Option UnaryOp
  | .neg => some .neg
  | .not => some .not
  | _ => none

end Opcode

/-- The values of the machine: the operand stack, top first, and the data frames, innermost
    first. -/
structure Memory (V : Type) where
  stack : List V := []
  frames : List (Nat → V)

/-- A state of the machine. -/
structure State (V : Type) where
  pc : Address
  memory : Memory V

namespace Memory

variable {V : Type}

/-- Put a value on the stack. -/
def push (v : V) (m : Memory V) : Memory V :=
  { m with stack := v :: m.stack }

/-- Take a value off the stack. -/
def pop? (m : Memory V) : Option (V × Memory V) :=
  match m.stack with
  | [] => none
  | v :: rest => some (v, { m with stack := rest })

/-- The value of a variable. -/
def load? (depth slot : Nat) (m : Memory V) : Option V :=
  m.frames[depth]?.map fun frame => frame slot

/-- Give a variable a value. -/
def store? (depth slot : Nat) (v : V) (m : Memory V) : Option (Memory V) :=
  m.frames[depth]?.map fun frame =>
    { m with frames := m.frames.set depth (Function.update frame slot v) }

/-- Open a scope with a fresh frame. -/
def enter (default : V) (m : Memory V) : Memory V :=
  { m with frames := (fun _ => default) :: m.frames }

/-- Close the innermost scope. -/
def exit? (m : Memory V) : Option (Memory V) :=
  match m.frames with
  | [] => none
  | _ :: rest => some { m with frames := rest }

end Memory

namespace Meaning

variable {V : Type} (M : Meaning V)

def value? : Word → Option V
  | .int n => some (M.int n)
  | .float x => some (M.float x)
  | .bool b => some (M.bool b)
  | .str s => some (M.str s)
  | .op _ | .addr _ => none

/-- What an operation that is not a jump does to the values. -/
def perform? (op : Opcode) (operands : List Word) (m : Memory V) : Option (Memory V) :=
  match op, operands with
  | .nop, [] => some m
  | .enterScope, [] => some (m.enter M.default)
  | .exitScope, [] => m.exit?
  | .push, [w] => (M.value? w).map m.push
  | .pop, [] => m.pop?.map (·.2)
  | .dup, [] => m.pop?.map fun (v, _) => m.push v
  | .load, [.int depth, .int slot] => (m.load? depth.toNat slot.toNat).map m.push
  | .store, [.int depth, .int slot] =>
    m.pop?.bind fun (v, rest) => rest.store? depth.toNat slot.toNat v
  | op, [] =>
    match op.binary?, op.unary? with
    | some b, _ =>
      m.pop?.bind fun (y, rest) => rest.pop?.map fun (x, rest) => rest.push (M.binary b x y)
    | none, some u => m.pop?.map fun (x, rest) => rest.push (M.unary u x)
    | none, none => none
  | _, _ => none

/-- Where a jump with this target goes and what it leaves, if the next address is `next`. -/
def leap? (op : Opcode) (target next : Address) (m : Memory V) : Option (State V) :=
  match op with
  | .jump => some ⟨target, m⟩
  | .jumpIfFalse =>
    m.pop?.map fun (v, rest) => ⟨if M.truthy v then next else target, rest⟩
  | .jumpIfTrue =>
    m.pop?.map fun (v, rest) => ⟨if M.truthy v then target else next, rest⟩
  | _ => none

/-- One step of the machine.  There is none from a halt, and none if something is missing. -/
def step? (code : List Word) (s : State V) : Option (State V) :=
  match Listing.rowAt? code s.pc with
  | some (.instruction op operands) =>
    match operands with
    | [.addr target] => M.leap? op target (s.pc + 2) s.memory
    | _ => (M.perform? op operands s.memory).map fun m => ⟨s.pc + 1 + operands.length, m⟩
  | _ => none

/-- The state after so many steps, if there are as many. -/
def after (code : List Word) : Nat → State V → Option (State V)
  | 0, s => some s
  | n + 1, s => (M.step? code s).bind (after code n)

/-- The machine comes from one state to another. -/
def Reaches (code : List Word) (s t : State V) : Prop :=
  ∃ n, M.after code n s = some t

end Meaning

end SceneCode
