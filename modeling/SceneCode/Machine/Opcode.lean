/-!
# Operation codes

The operations of the stack machine.  Each has a number, which is what a program file holds, a
name, a mnemonic for listings, and a fixed number of operand words that follow it in the code.
-/

namespace SceneCode

/-- An operation of the machine. -/
inductive Opcode where
  /-- Does nothing. -/
  | nop
  /-- Stops the machine. -/
  | halt
  /-- Adds a fresh data frame to the chain of frames. -/
  | enterScope
  /-- Drops the innermost data frame. -/
  | exitScope
  /-- Pushes the operand. -/
  | push
  /-- Drops the top value. -/
  | pop
  /-- Pushes a copy of the top value. -/
  | dup
  /-- Pushes the value of a variable, given by depth and slot. -/
  | load
  /-- Pops a value into a variable, given by depth and slot. -/
  | store
  /-- Adds the top two values. -/
  | add
  /-- Subtracts the top value from the one below. -/
  | sub
  /-- Multiplies the top two values. -/
  | mul
  /-- Divides the value below by the top value. -/
  | div
  /-- Takes the remainder of the value below by the top value. -/
  | mod
  /-- Changes the sign of the top value. -/
  | neg
  /-- Compares for equality. -/
  | eq
  /-- Compares for difference. -/
  | ne
  /-- Whether the value below is less than the top value. -/
  | lt
  /-- Whether the value below is at most the top value. -/
  | le
  /-- Whether the value below is greater than the top value. -/
  | gt
  /-- Whether the value below is at least the top value. -/
  | ge
  /-- Negates a truth value. -/
  | not
  /-- Goes on at the operand. -/
  | jump
  /-- Pops a value and goes on at the operand if it is false. -/
  | jumpIfFalse
  /-- Pops a value and goes on at the operand if it is true. -/
  | jumpIfTrue
  /-- Calls the function at the first operand with the second operand's number of arguments. -/
  | call
  /-- Returns a unit value to the caller. -/
  | ret
  /-- Returns the top value to the caller. -/
  | retValue
  /-- Bitwise and. -/
  | bitAnd
  /-- Bitwise or. -/
  | bitOr
  /-- Bitwise exclusive or. -/
  | bitXor
  /-- Shifts left. -/
  | shl
  /-- Shifts right and keeps the sign. -/
  | shr
  /-- Shifts right and fills with zeros. -/
  | ushr
deriving DecidableEq, Repr

namespace Opcode

/-- Every operation, in the order of the numbers. -/
def all : List Opcode :=
  [.nop, .halt, .enterScope, .exitScope, .push, .pop, .dup, .load, .store, .add, .sub, .mul, .div,
   .mod, .neg, .eq, .ne, .lt, .le, .gt, .ge, .not, .jump, .jumpIfFalse, .jumpIfTrue, .call, .ret,
   .retValue, .bitAnd, .bitOr, .bitXor, .shl, .shr, .ushr]

/-- The number of an operation. -/
def byte : Opcode → Nat
  | .nop => 0
  | .halt => 1
  | .enterScope => 2
  | .exitScope => 3
  | .push => 4
  | .pop => 5
  | .dup => 6
  | .load => 7
  | .store => 8
  | .add => 9
  | .sub => 10
  | .mul => 11
  | .div => 12
  | .mod => 13
  | .neg => 14
  | .eq => 15
  | .ne => 16
  | .lt => 17
  | .le => 18
  | .gt => 19
  | .ge => 20
  | .not => 21
  | .jump => 22
  | .jumpIfFalse => 23
  | .jumpIfTrue => 24
  | .call => 25
  | .ret => 26
  | .retValue => 27
  | .bitAnd => 28
  | .bitOr => 29
  | .bitXor => 30
  | .shl => 31
  | .shr => 32
  | .ushr => 33

/-- The name of an operation. -/
def name : Opcode → String
  | .nop => "Nop"
  | .halt => "Halt"
  | .enterScope => "EnterScope"
  | .exitScope => "ExitScope"
  | .push => "Push"
  | .pop => "Pop"
  | .dup => "Dup"
  | .load => "Load"
  | .store => "Store"
  | .add => "Add"
  | .sub => "Sub"
  | .mul => "Mul"
  | .div => "Div"
  | .mod => "Mod"
  | .neg => "Neg"
  | .eq => "Eq"
  | .ne => "Ne"
  | .lt => "Lt"
  | .le => "Le"
  | .gt => "Gt"
  | .ge => "Ge"
  | .not => "Not"
  | .jump => "Jump"
  | .jumpIfFalse => "JumpIfFalse"
  | .jumpIfTrue => "JumpIfTrue"
  | .call => "Call"
  | .ret => "Return"
  | .retValue => "ReturnValue"
  | .bitAnd => "BitAnd"
  | .bitOr => "BitOr"
  | .bitXor => "BitXor"
  | .shl => "Shl"
  | .shr => "Shr"
  | .ushr => "UShr"

/-- The word for an operation in a listing. -/
def mnemonic : Opcode → String
  | .nop => "NOP"
  | .halt => "HALT"
  | .enterScope => "PUSHSC"
  | .exitScope => "POPSC"
  | .push => "PUSH"
  | .pop => "POP"
  | .dup => "DUP"
  | .load => "LOAD"
  | .store => "STORE"
  | .add => "ADD"
  | .sub => "SUB"
  | .mul => "MUL"
  | .div => "DIV"
  | .mod => "MOD"
  | .neg => "NEG"
  | .eq => "EQ"
  | .ne => "NE"
  | .lt => "LT"
  | .le => "LE"
  | .gt => "GT"
  | .ge => "GE"
  | .not => "NOT"
  | .jump => "JMP"
  | .jumpIfFalse => "JMPF"
  | .jumpIfTrue => "JMPT"
  | .call => "CALL"
  | .ret => "RET"
  | .retValue => "RETV"
  | .bitAnd => "BAND"
  | .bitOr => "BOR"
  | .bitXor => "BXOR"
  | .shl => "SHL"
  | .shr => "SHR"
  | .ushr => "USHR"

/-- The number of operand words that follow an operation in the code. -/
def operandCount : Opcode → Nat
  | .push | .jump | .jumpIfFalse | .jumpIfTrue => 1
  | .load | .store | .call => 2
  | _ => 0

/-- The operation with the given number. -/
def ofByte? (n : Nat) : Option Opcode :=
  all[n]?

/-- The numbers and the operations correspond. -/
theorem ofByte?_eq_some_iff {n : Nat} {op : Opcode} : ofByte? n = some op ↔ op.byte = n := by
  constructor
  · intro h
    obtain ⟨hn, rfl⟩ := List.getElem?_eq_some_iff.1 h
    have : ∀ i : Fin all.length, (all.get i).byte = i.val := by decide
    exact this ⟨n, hn⟩
  · rintro rfl
    cases op <;> rfl

end Opcode

end SceneCode
