import Mathlib.Data.List.Forall2
import SceneCode.Proofs.Decoding.RoundTrip
import SceneCode.Proofs.Emission.Program

/-!
# Programs read back from their files

A program file holds a bare scalar for every word, so an operation, an integer and an address are
all the same kind of number there.  `Scalar.words?` tells them apart: it goes through the scalars
once and remembers which operands the last operation still wants.  On the files of compiled programs
it finds the words again (`scalars_read_back`), because every word is written as a part of an
instruction whose operands are of the kinds that its operation wants.

The one word that a file cannot hold is a double that is not finite.  Doubles come into the code
only from the literals of the tree (`Emits.pushes`), and JSON has no such number.
-/

namespace SceneCode

/-! ### The reader -/

/-- What an operand may be. -/
inductive Operand where
  | value
  | number
  | address
deriving DecidableEq, Repr

/-- The operands that an operation wants, in order. -/
def Opcode.wants : Opcode → List Operand
  | .push => [.value]
  | .load | .store => [.number, .number]
  | .jump | .jumpIfFalse | .jumpIfTrue => [.address]
  | .call => [.address, .number]
  | _ => []

/-- The operand that a scalar stands for. -/
def Operand.word? : Operand → Scalar → Option Word
  | .address, .int n => n.toNat?.map .addr
  | .address, _ => none
  | .number, .int n => some (.int n)
  | .number, _ => none
  | .value, .int n => some (.int n)
  | .value, .float x => some (.float x)
  | .value, .bool b => some (.bool b)
  | .value, .str s => some (.str s)
  | .value, .null => none

/-- The operation that a scalar stands for. -/
def Scalar.opcode? : Scalar → Option Opcode
  | .int n => n.toNat?.bind Opcode.ofByte?
  | _ => none

/-- The words that scalars stand for, if these operands are wanted before the next operation. -/
def Scalar.words? : List Operand → List Scalar → Option (List Word)
  | [], [] => some []
  | _ :: _, [] => none
  | [], s :: rest => do
    let op ← s.opcode?
    let words ← words? op.wants rest
    return .op op :: words
  | kind :: kinds, s :: rest => do
    let word ← kind.word? s
    let words ← words? kinds rest
    return word :: words

theorem Scalar.opcode?_op (op : Opcode) : (Word.op op).scalar.opcode? = some op :=
  Opcode.ofByte?_eq_some_iff.mpr rfl

/-! ### Instructions are read back -/

namespace Instruction

/-- Nothing that the instruction pushes is lost in a file. -/
def Lasting (i : Instruction) : Prop :=
  ∀ value, i = .plain (.push value) → value.isExpressible = true

theorem word?_literal {value : Literal} (h : value.isExpressible = true) :
    Operand.value.word? (Gen.literalWord value).scalar = some (Gen.literalWord value) := by
  cases value with
  | float x =>
    have hfinite : x.isFinite = true := h
    simp [Gen.literalWord, Word.scalar, hfinite, Operand.word?]
  | int n => rfl
  | bool b => rfl
  | str s => rfl

/-- Every operand is read back as one of the kind that the operation wants in its place. -/
theorem operands_read {i : Instruction} (h : i.Lasting) :
    List.Forall₂ (fun kind word => kind.word? word.scalar = some word) i.opcode.wants
      i.operands := by
  cases i with
  | jump kind target => cases kind <;> exact .cons rfl .nil
  | plain i =>
    cases i with
    | push value => exact .cons (word?_literal (h value rfl)) .nil
    | load depth slot => exact .cons rfl (.cons rfl .nil)
    | store depth slot => exact .cons rfl (.cons rfl .nil)
    | call target count => cases target <;> exact .cons rfl (.cons rfl .nil)
    | binary op => cases op <;> exact .nil
    | unary op => cases op <;> exact .nil
    | _ => exact .nil

end Instruction

namespace Scalar

/-- Operands of the wanted kinds are read one by one; behind them an operation is wanted. -/
theorem words?_operands {kinds : List Operand} {words : List Word}
    (h : List.Forall₂ (fun kind word => kind.word? word.scalar = some word) kinds words)
    (rest : List Scalar) :
    words? kinds (words.map Word.scalar ++ rest) = (words? [] rest).map (words ++ ·) := by
  induction h with
  | nil =>
    rw [List.map_nil, List.nil_append]
    cases words? [] rest <;> rfl
  | @cons kind word kinds words hword _ ih =>
    rw [List.map_cons, List.cons_append, words?, hword, ih]
    cases words? [] rest <;> rfl

theorem words?_instruction {i : Instruction} (h : i.Lasting) (rest : List Scalar) :
    words? [] (i.words.map Word.scalar ++ rest) = (words? [] rest).map (i.words ++ ·) := by
  rw [Instruction.words, List.map_cons, List.cons_append, words?, opcode?_op]
  have hoperands := words?_operands (Instruction.operands_read h) rest
  simp only [Option.bind_eq_bind, Option.bind_some, hoperands]
  cases words? [] rest <;> rfl

theorem words?_encode {is : List Instruction} (h : ∀ i ∈ is, i.Lasting) :
    words? [] ((Instruction.encode is).map Word.scalar) = some (Instruction.encode is) := by
  induction is with
  | nil => rfl
  | cons i rest ih =>
    obtain ⟨hfirst, hrest⟩ := List.forall_mem_cons.mp h
    rw [Instruction.encode_cons, List.map_append, words?_instruction hfirst, ih hrest]
    rfl

end Scalar

/-! ### Literals -/

namespace Tree

mutual

/-- The literals of a tree. -/
def literals : Tree → List Literal
  | .empty => []
  | .seq items => literalsAll items
  | .program body => literals body
  | .block body => literals body
  | .function _ _ _ body => literals body
  | .ret value => literals value
  | .declare _ _ => []
  | .declareWith _ _ value => literals value
  | .assign _ value => literals value
  | .compound _ _ value => literals value
  | .step _ _ => []
  | .ifThen cond body => literals cond ++ literals body
  | .ifElse cond body other => literals cond ++ (literals body ++ literals other)
  | .whileLoop cond body => literals cond ++ literals body
  | .doLoop cond body => literals body ++ literals cond
  | .forLoop init cond update body =>
    literals init ++ (literals cond ++ (literals body ++ literals update))
  | .call _ args => literalsAll args
  | .binary _ lhs rhs => literals lhs ++ literals rhs
  | .logical _ lhs rhs => literals lhs ++ literals rhs
  | .unary _ operand => literals operand
  | .ident _ => []
  | .lit value => [value]

def literalsAll : List Tree → List Literal
  | [] => []
  | t :: rest => literals t ++ literalsAll rest

end

/-- Every double that is written in the tree is finite. -/
def HasFiniteDoubles (t : Tree) : Prop :=
  ∀ x, .float x ∈ t.literals → x.isFinite = true

theorem HasFiniteDoubles.isExpressible {t : Tree} (h : t.HasFiniteDoubles) :
    ∀ value ∈ t.literals, value.isExpressible = true := by
  intro value hvalue
  cases value with
  | float x => exact h x hvalue
  | int n => rfl
  | bool b => rfl
  | str s => rfl

/-- JSON has no double that is not finite, so no tree from JSON has one. -/
theorem Decodes.isExpressible {v : Json} {t : Tree} (h : Decodes v t) :
    ∀ value ∈ t.literals, value.isExpressible = true := by
  induction h with
  | empty | nil | declare | step | callNone | ident =>
    intro value hvalue
    cases hvalue
  | int | bool | str =>
    intro value hvalue
    rw [List.mem_singleton.mp hvalue]
    rfl
  | float _ hx =>
    intro value hvalue
    rw [List.mem_singleton.mp hvalue]
    exact Json.isFinite_of_binary64? hx
  | program _ _ ih | block _ _ ih | function _ _ _ ih | ret _ _ ih | declareWith _ _ ih
  | assign _ _ ih | compound _ _ ih | call _ _ ih | unary _ _ ih | unaryBare _ _ _ ih => exact ih
  | callOne _ _ ih =>
    intro value hvalue
    exact ih value ((List.mem_append.mp hvalue).resolve_right List.not_mem_nil)
  | cons _ _ ih₁ ih₂ | ifThen _ _ _ ih₁ ih₂ | whileLoop _ _ _ ih₁ ih₂ | binary _ _ _ ih₁ ih₂
  | logical _ _ _ ih₁ ih₂ => exact List.forall_mem_append.mpr ⟨ih₁, ih₂⟩
  | doLoop _ _ _ ih₁ ih₂ => exact List.forall_mem_append.mpr ⟨ih₂, ih₁⟩
  | ifElse _ _ _ _ ih₁ ih₂ ih₃ =>
    exact List.forall_mem_append.mpr ⟨ih₁, List.forall_mem_append.mpr ⟨ih₂, ih₃⟩⟩
  | forLoop _ _ _ _ _ ih₁ ih₂ ih₃ ih₄ =>
    exact List.forall_mem_append.mpr ⟨ih₁, List.forall_mem_append.mpr
      ⟨ih₂, List.forall_mem_append.mpr ⟨ih₄, ih₃⟩⟩⟩

end Tree

/-! ### What the code of a tree pushes -/

def Plain.literal? : Plain → Option Literal
  | .push value => some value
  | _ => none

/-- Whatever the segment pushes has the property. -/
def Segment.Pushes (P : Literal → Prop) (p : Segment) : Prop :=
  ∀ i ∈ p.plains, ∀ value, i.literal? = some value → P value

namespace Segment

variable {P : Literal → Prop} {p q : Segment}

theorem pushes_nothing : nothing.Pushes P := by
  intro i hi
  cases hi

theorem pushes_literal {value : Literal} (h : P value) : (one (.push value)).Pushes P := by
  intro i hi other hother
  rw [List.mem_singleton.mp hi] at hother
  rw [← Option.some.inj hother]
  exact h

theorem pushes_other {i : Plain} (h : i.literal? = none) : (one i).Pushes P := by
  intro j hj value hvalue
  rw [List.mem_singleton.mp hj, h] at hvalue
  cases hvalue

theorem Pushes.seq (hp : p.Pushes P) (hq : q.Pushes P) : (seq p q).Pushes P := by
  intro i hi
  rcases List.mem_append.mp hi with hi | hi
  · exact hp i hi
  · exact hq i hi

theorem Pushes.scope (hp : p.Pushes P) : (scope p).Pushes P :=
  (pushes_other rfl).seq (hp.seq (pushes_other rfl))

theorem pushes_finish (u : Usage) : (finish u).Pushes P := by
  cases u with
  | value => exact pushes_nothing
  | discard => exact pushes_other rfl

theorem pushes_store (u : Usage) (depth slot : Nat) : (store u depth slot).Pushes P := by
  cases u with
  | value => exact (pushes_other rfl).seq ((pushes_other rfl).seq pushes_nothing)
  | discard => exact (pushes_other rfl).seq pushes_nothing

theorem pushes_leave (type : TypeName) : (leave type).Pushes P := by
  unfold leave
  split
  · exact (pushes_other rfl).seq ((pushes_other rfl).seq pushes_nothing)
  · exact (pushes_other rfl).seq pushes_nothing

theorem Pushes.settle (hp : p.Pushes P) (frame : Frame) : (p.settle frame).Pushes P := by
  intro i hi
  rw [plains_settle] at hi
  obtain ⟨j, hj, rfl⟩ := List.mem_map.mp hi
  intro value hvalue
  apply hp j hj value
  cases j with
  | call target count => cases hvalue
  | _ => exact hvalue

end Segment

/-- **The code of a tree pushes the literals of the tree**, and the one of a change by one.  The
    induction is on the rules; jumps push nothing, so a loop or a choice is as good as its parts one
    after the other. -/
theorem Emits.pushes {config : Config} {fn : Option TypeName} {sc sc' : Scopes} {a : Address}
    {t : Tree} {u : Usage} {p : Segment} {P : Literal → Prop} (hone : P (.int 1))
    (h : Emits config fn sc a t u p sc') (hliterals : ∀ value ∈ t.literals, P value) :
    p.Pushes P := by
  induction h with
  | empty | seqNil | declare => exact Segment.pushes_nothing
  | retEmpty => exact Segment.pushes_other rfl
  | lit =>
    apply (Segment.pushes_literal (hliterals _ _)).seq (Segment.pushes_finish _)
    exact List.mem_singleton_self _
  | ident => exact (Segment.pushes_other rfl).seq (Segment.pushes_finish _)
  | step =>
    exact ((Segment.pushes_other rfl).seq ((Segment.pushes_literal hone).seq
      ((Segment.pushes_other rfl).seq Segment.pushes_nothing))).seq (Segment.pushes_store _ _ _)
  | program _ ih => exact ih hliterals
  | block _ _ ih => exact ((ih hliterals).settle _).scope
  | function _ _ _ _ ih => exact ((ih hliterals).settle _).seq (Segment.pushes_other rfl)
  | ret _ _ ih => exact (ih hliterals).seq (Segment.pushes_leave _)
  | declareWith _ _ ih => exact (ih hliterals).seq (Segment.pushes_other rfl)
  | assign _ _ ih => exact (ih hliterals).seq (Segment.pushes_store _ _ _)
  | compound _ _ _ ih =>
    exact (Segment.pushes_other rfl).seq
      ((ih hliterals).seq ((Segment.pushes_other rfl).seq (Segment.pushes_store _ _ _)))
  | call _ _ ih =>
    exact (ih hliterals).seq ((Segment.pushes_other rfl).seq (Segment.pushes_finish _))
  | unary _ ih =>
    exact (ih hliterals).seq ((Segment.pushes_other rfl).seq (Segment.pushes_finish _))
  | seqCons _ _ ih₁ ih₂ | ifThen _ _ ih₁ ih₂ | whileLoop _ _ ih₁ ih₂ | doLoop _ _ ih₁ ih₂ =>
    obtain ⟨hfirst, hsecond⟩ := List.forall_mem_append.mp hliterals
    exact (ih₁ hfirst).seq (ih₂ hsecond)
  | binary _ _ ih₁ ih₂ =>
    obtain ⟨hlhs, hrhs⟩ := List.forall_mem_append.mp hliterals
    exact (ih₁ hlhs).seq ((ih₂ hrhs).seq
      ((Segment.pushes_other rfl).seq (Segment.pushes_finish _)))
  | logical _ _ ih₁ ih₂ =>
    obtain ⟨hlhs, hrhs⟩ := List.forall_mem_append.mp hliterals
    have hsecond := (Segment.pushes_other (P := P) (i := .pop) rfl).seq (ih₂ hrhs)
    exact (ih₁ hlhs).seq ((Segment.pushes_other rfl).seq (hsecond.seq (Segment.pushes_finish _)))
  | ifElse _ _ _ ih₁ ih₂ ih₃ =>
    obtain ⟨hcond, hrest⟩ := List.forall_mem_append.mp hliterals
    obtain ⟨hbody, hother⟩ := List.forall_mem_append.mp hrest
    exact (ih₁ hcond).seq ((ih₂ hbody).seq (ih₃ hother))
  | forEndless _ _ _ _ ih₁ ih₂ ih₃ =>
    obtain ⟨hinit, hrest⟩ := List.forall_mem_append.mp hliterals
    obtain ⟨-, hrest⟩ := List.forall_mem_append.mp hrest
    obtain ⟨hbody, hupdate⟩ := List.forall_mem_append.mp hrest
    exact (((ih₁ hinit).seq ((ih₂ hbody).seq (ih₃ hupdate))).settle _).scope
  | forLoop _ _ _ _ _ _ ih₁ ih₂ ih₃ ih₄ =>
    obtain ⟨hinit, hrest⟩ := List.forall_mem_append.mp hliterals
    obtain ⟨hcond, hrest⟩ := List.forall_mem_append.mp hrest
    obtain ⟨hbody, hupdate⟩ := List.forall_mem_append.mp hrest
    exact (((ih₁ hinit).seq ((ih₂ hcond).seq ((ih₃ hbody).seq (ih₄ hupdate)))).settle _).scope

/-! ### Whole programs -/

/-- The instructions of a program push literals of its tree, so nothing of it is lost in a file. -/
theorem Tree.Compiles.lasting {config : Config} {tree : Tree} {p : Segment} {frame : Frame}
    {program : Program} (h : tree.Compiles config p frame program)
    (hfinite : tree.HasFiniteDoubles) :
    ∀ i ∈ (p.whole config.emitHalt frame).code 0, i.Lasting := by
  have hending : (Segment.ending config.emitHalt).Pushes (·.isExpressible = true) := by
    unfold Segment.ending
    split
    · exact Segment.pushes_other rfl
    · exact Segment.pushes_nothing
  have htree : p.Pushes (·.isExpressible = true) := h.emits.pushes rfl hfinite.isExpressible
  have hpushes := (htree.settle frame).seq hending
  intro i hi value hvalue
  subst hvalue
  apply hpushes (.push value) _ value rfl
  rw [← Segment.filterMap_plain?_code (.seq (p.settle frame) (.ending config.emitHalt)) 0]
  exact List.mem_filterMap.mpr ⟨_, hi, rfl⟩

theorem Tree.Compiles.words?_scalars {config : Config} {tree : Tree} {p : Segment} {frame : Frame}
    {program : Program} (h : tree.Compiles config p frame program)
    (hfinite : tree.HasFiniteDoubles) :
    Scalar.words? [] (program.code.map Word.scalar) = some program.code := by
  rw [h.code]
  exact Scalar.words?_encode (h.lasting hfinite)

/-- **Programs are read back from their files.**  One reader finds the words of every compiled
    program from their scalars, if all doubles of its tree are finite, as they are in every tree
    from JSON.  So a program is determined by the scalars of its code and its entry points, although
    operations, integers and addresses are plain numbers there. -/
theorem scalars_read_back :
    (∀ (config : Config) (tree : Tree) (program : Program), tree.HasFiniteDoubles →
      tree.compile config = .ok program →
        Scalar.words? [] (program.code.map Word.scalar) = some program.code) ∧
    (∀ (config config' : Config) (tree tree' : Tree) (program program' : Program),
      tree.HasFiniteDoubles → tree'.HasFiniteDoubles →
      tree.compile config = .ok program → tree'.compile config' = .ok program' →
      program.code.map Word.scalar = program'.code.map Word.scalar →
      program.init = program'.init → program.render = program'.render → program = program') ∧
    ∀ (v : Json) (tree : Tree), Tree.decode v = .ok tree → tree.HasFiniteDoubles := by
  have hread (config : Config) (tree : Tree) (program : Program) (hfinite : tree.HasFiniteDoubles)
      (h : tree.compile config = .ok program) :
      Scalar.words? [] (program.code.map Word.scalar) = some program.code := by
    obtain ⟨p, frame, hcompiles⟩ := Tree.compiles_of_compile h
    exact hcompiles.words?_scalars hfinite
  refine ⟨hread, ?_, ?_⟩
  · intro config config' tree tree' program program' hfinite hfinite' h h' hscalars hinit hrender
    have hcode := hread config tree program hfinite h
    rw [hscalars, hread config' tree' program' hfinite' h'] at hcode
    obtain ⟨code, init, render⟩ := program
    obtain ⟨code', init', render'⟩ := program'
    cases hcode
    cases hinit
    cases hrender
    rfl
  · intro v tree h x hx
    exact (Tree.decode_eq_ok_iff.mp h).isExpressible _ hx

/-- Two functions that return constants, one of them the number of the operation behind it. -/
def Tree.constants : Tree :=
  .seq [
    .function "init" [] ⟨"int"⟩ (.ifThen (.lit (.bool true)) (.ret (.lit (.int 26)))),
    .function "render" [] ⟨"float"⟩ (.ret (.lit (.float ⟨0x3fe0000000000000⟩)))]

/-- The program of `Tree.constants`. -/
def Program.constants : Program where
  code := [.op .push, .bool true, .op .jumpIfFalse, .addr 7, .op .push, .int 26, .op .retValue,
    .op .ret, .op .push, .float ⟨0x3fe0000000000000⟩, .op .retValue, .op .ret]
  init := some 0
  render := some 8

theorem scalars_read_back_constants :
    Tree.constants.HasFiniteDoubles ∧
      Scalar.words? [] [.int 4, .bool true, .int 23, .int 7, .int 4, .int 26, .int 27, .int 26,
        .int 4, .float ⟨0x3fe0000000000000⟩, .int 27, .int 26] = some Program.constants.code ∧
      ∃ program, (Tree.program .constants).compile ⟨false, false⟩ = .ok program ∧
        program = .constants := by
  have hexpressible : Tree.constants.Expressible := by
    simp only [Tree.constants, Tree.Expressible, Tree.ExpressibleAll, Literal.isExpressible]
    decide
  have hdecode := Tree.decode_eq_ok_iff.mpr (Tree.constants.decodes_encode hexpressible)
  have hfinite := scalars_read_back.2.2 _ _ hdecode
  have hcompile : Tree.constants.compile {} = .ok .constants := rfl
  refine ⟨hfinite, scalars_read_back.1 {} .constants .constants hfinite hcompile, _, rfl, ?_⟩
  exact scalars_read_back.2.1 ⟨false, false⟩ {} (.program .constants) .constants _ _ hfinite hfinite
    rfl hcompile rfl rfl rfl

end SceneCode
