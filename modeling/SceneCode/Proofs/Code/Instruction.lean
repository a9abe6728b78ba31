import SceneCode.Machine.Listing
import SceneCode.Session.Generate

/-!
# Instructions

Code is a flat sequence of words, but every word in it is written as part of an instruction: an
operation with the operands it wants.  The types below hold exactly the instructions that code
generation writes, each with operands of the right kind, so that a list of instructions is well
formed by construction.  What is left to prove about words is that the words of a list of
instructions are split back into the same instructions (`rows_words`), wherever the list starts.

A jump has an absolute target.  The target of a call may still be a name: such a call is written
with a placeholder, and gets its address when the scope that declares the name is closed.
-/

namespace SceneCode

/-- Where a call leads: to an address, or to a function that is not known yet. -/
inductive Target where
  | known (address : Address)
  | pending (name : String)
deriving DecidableEq

/-- When a jump is taken. -/
inductive Jump where
  | always
  | ifFalse
  | ifTrue
deriving DecidableEq

def Jump.opcode : Jump → Opcode
  | .always => .jump
  | .ifFalse => .jumpIfFalse
  | .ifTrue => .jumpIfTrue

/-- The jump that leaves the second value of an operator out. -/
def LogicalOp.jump : LogicalOp → Jump
  | .and => .ifFalse
  | .or => .ifTrue

/-- The operator that a change by one amounts to. -/
def StepOp.binary : StepOp → BinaryOp
  | .increment => .add
  | .decrement => .sub

/-- An instruction that is not a jump. -/
inductive Plain where
  | push (value : Literal)
  | load (depth slot : Nat)
  | store (depth slot : Nat)
  | binary (op : BinaryOp)
  | unary (op : UnaryOp)
  | pop
  | dup
  | enterScope
  | exitScope
  | call (target : Target) (count : Nat)
  | ret
  | retValue
  | halt
deriving DecidableEq

/-- An instruction. -/
inductive Instruction where
  | plain (i : Plain)
  | jump (kind : Jump) (target : Address)
deriving DecidableEq

/-! ### Words -/

def Target.word : Target → Word
  | .known a => .addr a
  | .pending _ => Code.placeholder

namespace Plain

/-- The operation of an instruction. -/
def opcode : Plain → Opcode
  | .push _ => .push
  | .load _ _ => .load
  | .store _ _ => .store
  | .binary op => op.opcode
  | .unary op => op.opcode
  | .pop => .pop
  | .dup => .dup
  | .enterScope => .enterScope
  | .exitScope => .exitScope
  | .call _ _ => .call
  | .ret => .ret
  | .retValue => .retValue
  | .halt => .halt

def operands : Plain → List Word
  | .push value => [Gen.literalWord value]
  | .load depth slot => [.int depth, .int slot]
  | .store depth slot => [.int depth, .int slot]
  | .call target count => [target.word, .int count]
  | _ => []

/-- The number of words of an instruction. -/
def size : Plain → Nat
  | .push _ => 2
  | .load _ _ | .store _ _ | .call _ _ => 3
  | _ => 1

end Plain

namespace Instruction

def opcode : Instruction → Opcode
  | .plain i => i.opcode
  | .jump kind _ => kind.opcode

def operands : Instruction → List Word
  | .plain i => i.operands
  | .jump _ target => [.addr target]

def words (i : Instruction) : List Word :=
  .op i.opcode :: i.operands

/-- The number of words of an instruction. -/
def size : Instruction → Nat
  | .plain i => i.size
  | .jump _ _ => 2

theorem operandCount_binary (op : BinaryOp) : op.opcode.operandCount = 0 := by
  cases op <;> rfl

theorem operandCount_unary (op : UnaryOp) : op.opcode.operandCount = 0 := by
  cases op <;> rfl

/-- Every instruction has the operands that its operation wants. -/
theorem length_operands (i : Instruction) : i.operands.length = i.opcode.operandCount := by
  cases i with
  | plain p =>
    cases p with
    | binary op => exact (operandCount_binary op).symm
    | unary op => exact (operandCount_unary op).symm
    | _ => rfl
  | jump kind target => cases kind <;> rfl

@[simp] theorem length_words (i : Instruction) : i.words.length = i.size := by
  cases i with
  | plain p => cases p <;> rfl
  | jump kind target => rfl

theorem size_pos (i : Instruction) : 0 < i.size := by
  rw [← length_words]
  exact Nat.succ_pos _

/-- The number of words of several instructions. -/
def sizes : List Instruction → Nat
  | [] => 0
  | i :: is => i.size + sizes is

@[simp] theorem sizes_nil : sizes [] = 0 := rfl

@[simp] theorem sizes_cons (i : Instruction) (is : List Instruction) :
    sizes (i :: is) = i.size + sizes is := rfl

@[simp] theorem sizes_append (is js : List Instruction) :
    sizes (is ++ js) = sizes is + sizes js := by
  induction is with
  | nil => simp
  | cons i is ih => simp [ih, Nat.add_assoc]

def encode (is : List Instruction) : List Word :=
  is.flatMap words

@[simp] theorem encode_nil : encode [] = [] := rfl

@[simp] theorem encode_cons (i : Instruction) (is : List Instruction) :
    encode (i :: is) = i.words ++ encode is := rfl

@[simp] theorem encode_append (is js : List Instruction) :
    encode (is ++ js) = encode is ++ encode js := by
  simp [encode]

@[simp] theorem length_encode (is : List Instruction) : (encode is).length = sizes is := by
  induction is with
  | nil => rfl
  | cons i is ih => simp [ih]

/-! ### Places -/

/-- Instructions with their addresses, from the address `a` on. -/
def located : Address → List Instruction → List (Address × Instruction)
  | _, [] => []
  | a, i :: is => (a, i) :: located (a + i.size) is

@[simp] theorem located_append (a : Nat) (is js : List Instruction) :
    located a (is ++ js) = located a is ++ located (a + sizes is) js := by
  induction is generalizing a with
  | nil => rfl
  | cons i is ih => simp [located, ih, Nat.add_assoc]

/-- An instruction lies between the first word and the end of the code that it is part of. -/
theorem bounds_of_mem_located {a p : Nat} {i : Instruction} {is : List Instruction}
    (h : (p, i) ∈ located a is) : a ≤ p ∧ p + i.size ≤ a + sizes is := by
  induction is generalizing a with
  | nil => cases h
  | cons j is ih =>
    rcases List.mem_cons.mp h with heq | hmem
    · cases heq
      exact ⟨Nat.le_refl _, by simp only [sizes_cons]; omega⟩
    · have hbounds := ih hmem
      simp only [sizes_cons]
      omega

/-- Code that is not empty starts with an instruction. -/
theorem exists_first (a : Nat) (is : List Instruction) (last : Instruction) :
    ∃ i, (a, i) ∈ located a (is ++ [last]) := by
  cases is with
  | nil => exact ⟨last, by simp [located]⟩
  | cons i is => exact ⟨i, by simp [located]⟩

/-! ### Rows

`Listing.rows` splits any words.  On the words of instructions it finds the instructions. -/

def row (a : Address) (i : Instruction) : Row :=
  ⟨a, .instruction i.opcode i.operands⟩

theorem rows_words_append (a : Nat) (i : Instruction) (rest : List Word) :
    Listing.rows a (i.words ++ rest) = i.row a :: Listing.rows (a + i.size) rest := by
  have hlen := length_operands i
  have hsize : i.size = 1 + i.operands.length := by
    rw [← length_words, words, List.length_cons, Nat.add_comm]
  have htake : (i.operands ++ rest).take i.opcode.operandCount = i.operands := by
    rw [← hlen, List.take_left]
  rw [words, List.cons_append, Listing.rows]
  simp only [Row.Content.start, htake, Row.Content.size, row, ← hsize]
  rw [hsize, Nat.add_sub_cancel_left, List.drop_left]

/-- The words of instructions are split into these instructions, with nothing left over. -/
theorem rows_words (a : Nat) (is : List Instruction) :
    Listing.rows a (encode is) = (located a is).map fun (p, i) => i.row p := by
  induction is generalizing a with
  | nil => simp [Listing.rows, located]
  | cons i is ih =>
    rw [encode_cons, rows_words_append, ih]
    rfl

end Instruction

end SceneCode
