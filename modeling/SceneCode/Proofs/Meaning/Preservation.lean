import SceneCode.Proofs.Emission.Program
import SceneCode.Proofs.Meaning.Simulation

/-!
# Programs mean what their trees mean

A program without functions, run from its first word with an empty stack and one frame of default
values, comes to its end exactly if the evaluation of its tree does.  Then the stack is empty again,
only the outermost frame is open, and it holds the values of the variables in the order of their
declarations.
-/

namespace SceneCode

variable {V : Type}

/-- Where a run ends: at the halt, or behind the last word if there is none. -/
def Program.finish (config : Config) (program : Program) : Address :=
  if config.emitHalt then program.code.length - 1 else program.code.length

/-- The machine at the first word of a program. -/
def Meaning.start (M : Meaning V) : State V :=
  ⟨0, ⟨[], [fun _ => M.default]⟩⟩

namespace Tree.Compiles

variable {config : Config} {tree : Tree} {p : Segment} {frame : Frame} {program : Program}

theorem finish_eq (h : tree.Compiles config p frame program) : program.finish config = p.size := by
  have hlength := h.length_code
  unfold Program.finish
  cases hhalt : config.emitHalt with
  | true =>
    rw [hhalt] at hlength
    rw [if_pos rfl, hlength]
    rfl
  | false =>
    rw [hhalt] at hlength
    rw [if_neg Bool.false_ne_true, hlength]
    rfl

theorem stands (h : tree.Compiles config p frame program) :
    (p.settle frame).Stands program.code 0 ∧
      (Segment.ending config.emitHalt).Stands program.code p.size := by
  have hwhole : (p.whole config.emitHalt frame).Stands program.code 0 := by
    have hstand := Instruction.stand_encode [] ((p.whole config.emitHalt frame).code 0) []
    rwa [List.nil_append, List.append_nil, ← Segment.words, ← h.code] at hstand
  rw [Segment.whole, Segment.stands_seq, Segment.size_settle, Nat.zero_add] at hwhole
  exact hwhole

/-- The machine makes no step from the end. -/
theorem step?_finish (h : tree.Compiles config p frame program) (M : Meaning V) (m : Memory V) :
    M.step? program.code ⟨p.size, m⟩ = none := by
  have hlength := h.length_code
  have hending := h.stands.2
  cases hhalt : config.emitHalt with
  | true =>
    rw [hhalt] at hending
    rw [Meaning.step?_plain m (Instruction.stand_cons.mp hending).1]
    rfl
  | false =>
    rw [hhalt] at hlength
    have hdrop : program.code.drop p.size = [] := List.drop_eq_nil_of_le (Nat.le_of_eq hlength)
    simp [Meaning.step?, Listing.rowAt?, hdrop]

theorem word_finish (h : tree.Compiles config p frame program) (hhalt : config.emitHalt = true) :
    program.code[p.size]? = some (.op .halt) := by
  have hcode : program.code = (p.settle frame).words 0 ++ [.op .halt] := by
    rw [h.code, hhalt, Segment.words, Segment.whole, Segment.code, Instruction.encode_append]
    rfl
  have hlength : ((p.settle frame).words 0).length = p.size := by
    rw [Segment.length_words, Segment.size_settle]
  rw [hcode, ← hlength, List.getElem?_concat_length]

/-- The values in the outermost frame when the code of the tree is done. -/
theorem runs_iff (h : tree.Compiles config p frame program) (hshaped : tree.Shaped)
    (hfree : tree.FunctionFree) (M : Meaning V) (m : Memory V) :
    (p.settle frame).Runs M M.start.memory m ↔
      ∃ ρ, tree.exec M [[]] [fun _ => M.default] [ρ] ∧ m = ⟨[], [M.layout tree.declared ρ]⟩ := by
  have hroot : Scopes.Declares {} [[]] := .cons Frame.lists_empty .nil
  have hall := (h.emits.declares hshaped hfree hroot).within .nil
  have hdoes : p.Does M [tree.declared] (tree.exec M [[]]) := h.emits.means hshaped hfree hroot hall
  have hstart : M.start.memory = ⟨[], M.embed [tree.declared] [fun _ => M.default]⟩ := by
    simp [Meaning.start, Meaning.embed, M.layout_default]
  rw [Segment.runs_settle, hstart, hdoes]
  constructor
  · rintro ⟨σ, hexec, rfl⟩
    obtain ⟨ρ, rfl⟩ := List.length_eq_one_iff.mp (Tree.length_of_exec M tree hexec)
    exact ⟨ρ, hexec, rfl⟩
  · rintro ⟨ρ, hexec, rfl⟩
    exact ⟨[ρ], hexec, rfl⟩

end Tree.Compiles

/-- **Programs without functions keep their meaning.** -/
theorem reaches_finish_iff_exec (M : Meaning V) {config : Config} {tree : Tree} {program : Program}
    (hcompile : tree.compile config = .ok program) (hshaped : tree.Shaped)
    (hfree : tree.FunctionFree) :
    (config.emitHalt = true → program.code[program.finish config]? = some (.op .halt)) ∧
      ∀ m, M.Reaches program.code M.start ⟨program.finish config, m⟩ ↔
        ∃ ρ, tree.exec M [[]] [fun _ => M.default] [ρ] ∧ m = ⟨[], [M.layout tree.declared ρ]⟩ := by
  obtain ⟨p, frame, h⟩ := Tree.compiles_of_compile hcompile
  have hsize : 0 + (p.settle frame).size = p.size := by rw [Segment.size_settle, Nat.zero_add]
  rw [h.finish_eq]
  refine ⟨h.word_finish, ?_⟩
  intro m
  rw [← h.runs_iff hshaped hfree]
  constructor
  · rintro ⟨n, hn⟩
    obtain ⟨k, r, -, hruns, hrest⟩ := h.stands.1.exists_runs hn (Nat.le_of_eq hsize)
    rw [hsize] at hrest
    -- No step is left, so the machine is where the run of the code ends.
    cases k with
    | zero =>
      cases hrest
      exact hruns
    | succ k =>
      rw [Meaning.after, h.step?_finish] at hrest
      cases hrest
  · intro hruns
    have hreaches := h.stands.1.reaches hruns
    rwa [hsize] at hreaches

/-- A loop that counts a variable down to zero. -/
def Tree.countdown : Tree :=
  .program (.seq [.declareWith ⟨"int"⟩ "n" (.lit (.int 1)),
    .whileLoop (.ident "n") (.block (.step .decrement "n"))])

/-- The program of `Tree.countdown`, with a halt. -/
def Program.countdown : Program where
  code := [.op .push, .int 1, .op .store, .int 0, .int 0, .op .load, .int 0, .int 0,
    .op .jumpIfFalse, .addr 23, .op .enterScope, .op .load, .int 1, .int 0, .op .push, .int 1,
    .op .sub, .op .store, .int 1, .int 0, .op .exitScope, .op .jump, .addr 5, .op .halt]
  init := none
  render := none

/-- Integers, with the operators that counting needs. -/
def Meaning.counting : Meaning Int where
  int := id
  float := fun _ => 0
  bool := fun b => if b then 1 else 0
  str := fun _ => 0
  binary := fun op x y => if op = .sub then x - y else x + y
  unary := fun _ x => -x
  truthy := fun x => x ≠ 0
  default := 0

theorem countdown_reaches_halt :
    Tree.countdown.compile { emitHalt := true } = .ok .countdown ∧ Tree.countdown.Shaped ∧
      Tree.countdown.FunctionFree ∧
      Meaning.counting.Reaches Program.countdown.code Meaning.counting.start
        ⟨23, ⟨[], [fun _ => 0]⟩⟩ := by
  have hcompile : Tree.countdown.compile { emitHalt := true } = .ok .countdown := rfl
  have hshaped : Tree.countdown.Shaped :=
    ⟨⟨⟨_, rfl, rfl⟩, trivial⟩, ⟨⟨_, rfl, rfl⟩, trivial, trivial⟩, trivial⟩
  have hfree : Tree.countdown.FunctionFree := ⟨trivial, ⟨trivial, trivial⟩, trivial⟩
  have hreaches := (reaches_finish_iff_exec .counting hcompile hshaped hfree).2
  let one : String → Int := Function.update (fun _ => 0) "n" 1
  let zero : String → Int := Function.update one "n" 0
  have hround : (Tree.block (.step .decrement "n")).exec .counting [["n"]] [one] [zero] :=
    ⟨fun _ => 0, [0], rfl⟩
  have hloop : (Tree.whileLoop (.ident "n") (.block (.step .decrement "n"))).exec .counting [["n"]]
      [one] [zero] :=
    .again ⟨1, [one], rfl, rfl, hround⟩ (.exit ⟨0, [zero], rfl, rfl, rfl⟩)
  have hexec : Tree.countdown.exec .counting [[]] [fun _ => 0] [zero] :=
    ⟨[one], ⟨1, [fun _ => 0], rfl, rfl⟩, [zero], hloop, rfl⟩
  have hlayout : Meaning.counting.layout ["n"] zero = fun _ => 0 := by
    funext slot
    cases slot <;> rfl
  refine ⟨hcompile, hshaped, hfree, (hreaches _).mpr ⟨zero, hexec, ?_⟩⟩
  exact congrArg (fun frame => Memory.mk [] [frame]) hlayout.symm

end SceneCode
