import SceneCode.Proofs.Calls
import SceneCode.Proofs.Code.Boundary

/-!
# Well-formed programs

Every program that a tree compiles to is a sequence of instructions, each an operation with operands
of the right kinds.  Jumps lead to instructions, or to the end of a program that does not halt, and
calls and entry points lead to the bodies of functions of the tree.
-/

namespace SceneCode

/-! ### Splitting code into rows -/

namespace Listing

/-- The rows show the words from the address `a` on, one row after the other, with nothing left
    over. -/
inductive Splits : Address → List Word → List Row → Prop where
  | done {a} : Splits a [] []
  | row {a content words rows} :
      Splits (a + content.size) words rows →
      Splits a (content.words ++ words) (⟨a, content⟩ :: rows)

/-- The words of a first row and the words behind it. -/
theorem words_start (w : Word) (rest : List Word) :
    (Row.Content.start w rest).words ++ rest.drop ((Row.Content.start w rest).size - 1) =
      w :: rest := by
  cases w with
  | op op =>
    simp only [Row.Content.start, Row.Content.words, Row.Content.size, Nat.add_sub_cancel_left,
      List.length_take, List.cons_append, List.cons.injEq, true_and]
    rcases Nat.le_total op.operandCount rest.length with hle | hle
    · rw [Nat.min_eq_left hle, List.take_append_drop]
    · rw [Nat.min_eq_right hle, List.take_of_length_le hle, List.drop_length, List.append_nil]
  | _ => rfl

theorem splits_rows (a : Nat) (words : List Word) : Splits a words (rows a words) := by
  fun_induction rows a words with
  | case1 a => exact .done
  | case2 a w rest content ih =>
    have hwords := words_start w rest
    rw [← hwords]
    exact .row ih

end Listing

/-! ### Operands -/

/-- A word that can be pushed. -/
def Word.IsValue : Word → Prop
  | .int _ | .float _ | .bool _ | .str _ => True
  | .op _ | .addr _ => False

/-- The operands have the kinds that the operation wants. -/
def Opcode.Accepts (op : Opcode) (operands : List Word) : Prop :=
  match op with
  | .push => ∃ w : Word, w.IsValue ∧ operands = [w]
  | .load | .store => ∃ depth slot : Nat, operands = [.int depth, .int slot]
  | .jump | .jumpIfFalse | .jumpIfTrue => ∃ target, operands = [.addr target]
  | .call => ∃ (target : Address) (count : Nat), operands = [.addr target, .int count]
  | _ => operands = []

theorem Instruction.accepts (i : Instruction) : i.opcode.Accepts i.operands := by
  cases i with
  | jump kind target => cases kind <;> exact ⟨target, rfl⟩
  | plain i =>
    cases i with
    | push value =>
      refine ⟨Gen.literalWord value, ?_, rfl⟩
      cases value <;> trivial
    | load depth slot => exact ⟨depth, slot, rfl⟩
    | store depth slot => exact ⟨depth, slot, rfl⟩
    | binary op => cases op <;> rfl
    | unary op => cases op <;> rfl
    | call target count => cases target <;> exact ⟨_, count, rfl⟩
    | _ => rfl

namespace Row

def jumpTarget? (r : Row) : Option Address :=
  match r.content with
  | .instruction .jump [.addr target] => some target
  | .instruction .jumpIfFalse [.addr target] => some target
  | .instruction .jumpIfTrue [.addr target] => some target
  | _ => none

def callTarget? (r : Row) : Option Address :=
  match r.content with
  | .instruction .call (.addr target :: _) => some target
  | _ => none

theorem callOperands?_of_callTarget? {r : Row} {target : Address}
    (h : r.callTarget? = some target) : ∃ rest, r.callOperands? = some (.addr target :: rest) := by
  unfold callTarget? at h
  split at h
  · next rest heq =>
    cases h
    refine ⟨rest, ?_⟩
    unfold callOperands?
    rw [heq]
  · cases h

end Row

theorem Instruction.eq_jump_of_jumpTarget? {i : Instruction} {a target : Address}
    (h : (i.row a).jumpTarget? = some target) : ∃ kind, i = .jump kind target := by
  cases i with
  | jump kind other => cases kind <;> cases h <;> exact ⟨_, rfl⟩
  | plain i =>
    cases i with
    | binary op => cases op <;> cases h
    | unary op => cases op <;> cases h
    | _ => cases h

/-! ### Bodies of functions -/

namespace Reading

/-- A function of some open scope has this body. -/
def Has (body : Address) (scopes : List Names) : Prop :=
  ∃ names ∈ scopes, ∃ name, (name, some body) ∈ names

variable {body : Address} {scopes : List Names}

theorem has_of_find {name : String} (h : find name scopes = some (some body)) :
    Has body scopes := by
  obtain ⟨names, hnames, hlookup⟩ := List.exists_of_findSome?_eq_some h
  obtain ⟨front, back, hsplit, -⟩ := List.lookup_eq_some_iff.mp hlookup
  refine ⟨names, hnames, name, ?_⟩
  rw [hsplit]
  exact List.mem_append_right _ (List.mem_cons_self ..)

theorem has_declare {name : String} {new : Option Address} (h : Has body (declare name new scopes)) :
    Has body scopes ∨ new = some body := by
  cases scopes with
  | nil =>
    obtain ⟨names, hnames, -⟩ := h
    cases hnames
  | cons first outer =>
    obtain ⟨names, hnames, other, hother⟩ := h
    rcases List.mem_cons.mp hnames with rfl | hnames
    · rcases List.mem_cons.mp hother with heq | hother
      · cases heq
        exact Or.inr rfl
      · exact Or.inl ⟨first, List.mem_cons_self .., other, hother⟩
    · exact Or.inl ⟨names, List.mem_cons_of_mem _ hnames, other, hother⟩

/-- Nothing is declared before a program starts. -/
theorem not_has_fresh : ¬Has body [[]] := by
  rintro ⟨names, hnames, name, hname⟩
  rcases List.mem_singleton.mp hnames with rfl
  cases hname

theorem has_tail {names : Names} (h : Has body scopes) : Has body (names :: scopes) := by
  obtain ⟨found, hfound, hname⟩ := h
  exact ⟨found, List.mem_cons_of_mem _ hfound, hname⟩

theorem has_of_tail (h : Has body scopes.tail) : Has body scopes := by
  obtain ⟨found, hfound, hname⟩ := h
  exact ⟨found, List.mem_of_mem_tail hfound, hname⟩

theorem has_push (h : Has body ([] :: scopes)) : Has body scopes := by
  obtain ⟨names, hnames, name, hname⟩ := h
  rcases List.mem_cons.mp hnames with rfl | hnames
  · cases hname
  · exact ⟨names, hnames, name, hname⟩

theorem has_or_of_declares {name : String} {later : List Address}
    (h : Has body (declare name none scopes) ∨ body ∈ later) : Has body scopes ∨ body ∈ later := by
  rcases h with hbefore | hlater
  · rcases has_declare hbefore with hbefore | hnew
    · exact Or.inl hbefore
    · cases hnew
  · exact Or.inr hlater

theorem has_or_of_defines {name : String} {a : Address} {later : List Address}
    (h : Has body (declare name (some a) scopes) ∨ body ∈ later) :
    Has body scopes ∨ body ∈ a :: later := by
  rcases h with hbefore | hlater
  · rcases has_declare hbefore with hbefore | hnew
    · exact Or.inl hbefore
    · cases hnew
      exact Or.inr (List.mem_cons_self ..)
  · exact Or.inr (List.mem_cons_of_mem _ hlater)

/-- What the scopes have declared when they close was there before or starts on the way. -/
theorem has_complete {a : Address} {marks : List Mark} (h : Has body (complete a scopes marks)) :
    Has body scopes ∨ body ∈ bodies a marks := by
  induction marks generalizing a scopes with
  | nil => exact Or.inl h
  | cons m rest ih =>
    cases m with
    | opens => exact (ih (has_of_tail h)).imp_left has_push
    | closes =>
      cases scopes with
      | nil => exact ih h
      | cons names outer =>
        obtain ⟨found, hfound, name, hname⟩ := h
        rcases List.mem_cons.mp hfound with rfl | hfound
        · exact Or.inl ⟨found, List.mem_cons_self .., name, hname⟩
        · exact (ih ⟨found, hfound, name, hname⟩).imp_left has_tail
    | declares name => exact has_or_of_declares (ih h)
    | defines name => exact has_or_of_defines (ih h)
    | words count => exact ih h
    | uses name => exact ih h
    | calls name count => exact ih h

/-- A call leads to the body of a function that was there before or starts on the way. -/
theorem mem_bodies_of_mem_calls {config : Config} {a : Address} {marks : List Mark} {count : Nat}
    (h : (some body, count) ∈ calls config a scopes marks) :
    Has body scopes ∨ body ∈ bodies a marks := by
  induction marks generalizing a scopes with
  | nil => cases h
  | cons m rest ih =>
    cases m with
    | opens => exact (ih h).imp_left has_push
    | closes => exact (ih h).imp_left has_of_tail
    | declares name => exact has_or_of_declares (ih h)
    | defines name => exact has_or_of_defines (ih h)
    | words n => exact ih h
    | uses name => exact ih h
    | calls name n =>
      rcases List.mem_cons.mp h with heq | hmem
      · have htarget := (Prod.mk.inj heq).1
        unfold target at htarget
        split at htarget
        · next found hfound =>
          subst htarget
          exact Or.inl (has_of_find hfound)
        · split at htarget
          · exact has_complete (has_of_find (Option.join_eq_some_iff.mp htarget.symm))
          · cases htarget
      · exact ih hmem

end Reading

/-! ### Whole programs -/

/-- The address is that of an instruction of the program, and one of the bodies starts there. -/
def Program.IsBody (program : Program) (bodies : List Address) (target : Address) : Prop :=
  (∃ r ∈ Listing.rows 0 program.code, r.offset = target) ∧ target < program.code.length ∧
    target ∈ bodies

/-- A program made of instructions, with addresses that lead to instructions.  The bodies of
    functions start at `bodies`. -/
structure Program.WellFormed (program : Program) (halts : Bool) (bodies : List Address) :
    Prop where
  splits : Listing.Splits 0 program.code (Listing.rows 0 program.code)
  operands : ∀ r ∈ Listing.rows 0 program.code, ∃ op operands,
    r.content = .instruction op operands ∧ operands.length = op.operandCount ∧
      op.Accepts operands
  jumps : ∀ r ∈ Listing.rows 0 program.code, ∀ target, r.jumpTarget? = some target →
    (∃ r' ∈ Listing.rows 0 program.code, r'.offset = target) ∨
      (halts = false ∧ target = program.code.length)
  calls : ∀ r ∈ Listing.rows 0 program.code, ∀ target, r.callTarget? = some target →
    program.IsBody bodies target
  init : ∀ target, program.init = some target → program.IsBody bodies target
  render : ∀ target, program.render = some target → program.IsBody bodies target

namespace Tree.Compiles

open Instruction

variable {config : Config} {tree : Tree} {p : Segment} {frame : Frame} {program : Program}

/-- An instruction of the tree is an instruction of the program. -/
theorem mem_whole {halts : Bool} {a : Address} {i : Instruction}
    (h : (a, i) ∈ located 0 ((p.settle frame).code 0)) :
    (a, i) ∈ located 0 ((p.whole halts frame).code 0) := by
  rw [Segment.whole, Segment.code, located_append]
  exact List.mem_append_left _ h

/-- The bodies of the functions of a tree start with instructions. -/
theorem isBody (h : tree.Compiles config p frame program) {target : Address}
    (hmem : target ∈ Reading.bodies 0 (tree.wholeReading config)) :
    program.IsBody (Reading.bodies 0 (tree.wholeReading config)) target := by
  have hstarts := h.emits.bodies_reading
  have hstart : target ∈ (p.settle frame).starts 0 := by
    rw [Segment.starts_settle, ← hstarts]
    exact hmem
  obtain ⟨i, hi⟩ := Segment.mem_located_of_mem_starts hstart
  refine ⟨⟨i.row target, h.mem_rows.mpr ⟨target, i, mem_whole hi, rfl⟩, rfl⟩, ?_, hmem⟩
  have hend := (bounds_of_mem_located hi).2
  rw [Segment.sizes_code, Segment.size_settle, Nat.zero_add] at hend
  have hinside := Nat.lt_of_lt_of_le (Nat.lt_add_of_pos_right i.size_pos) hend
  rw [h.length_code]
  exact Nat.lt_of_lt_of_le hinside (Nat.le_add_right ..)

/-- The functions of the outermost scope are functions of the tree. -/
theorem mem_bodies_of_function? (h : tree.Compiles config p frame program) {name : String}
    {target : Address} (hname : Scopes.function? ⟨frame, []⟩ name = some target) :
    target ∈ Reading.bodies 0 (tree.wholeReading config) := by
  have hcomplete := h.emits.reads.complete []
  simp only [List.append_nil, Reading.complete] at hcomplete
  have hfind : Reading.find name (Scopes.names ⟨frame, []⟩) = some (some target) := by
    rw [Scopes.find_names]
    unfold Scopes.function? at hname
    split at hname
    · next heq =>
      cases hname
      rw [heq]
      rfl
    · cases hname
  rw [← hcomplete] at hfind
  exact (Reading.has_complete (Reading.has_of_find hfind)).resolve_left Reading.not_has_fresh

/-- The target of a call is the body of a function of the tree. -/
theorem mem_bodies_of_call (h : tree.Compiles config p frame program) {r : Row} {target : Address}
    (hr : r ∈ Listing.rows 0 program.code) (htarget : r.callTarget? = some target) :
    target ∈ Reading.bodies 0 (tree.wholeReading config) := by
  obtain ⟨targets, hrows, hcalls⟩ := h.calls
  obtain ⟨rest, hoperands⟩ := Row.callOperands?_of_callTarget? htarget
  have hmem := List.mem_filterMap.mpr ⟨r, hr, hoperands⟩
  rw [hrows] at hmem
  obtain ⟨⟨address, count⟩, hin, heq⟩ := List.mem_map.mp hmem
  cases heq
  have hcall : (some target, count) ∈
      Reading.calls config 0 [[]] (tree.wholeReading config) := by
    rw [hcalls]
    exact List.mem_map.mpr ⟨(target, count), hin, rfl⟩
  exact (Reading.mem_bodies_of_mem_calls hcall).resolve_left Reading.not_has_fresh

theorem jumps (h : tree.Compiles config p frame program) {a target : Address} {kind : Jump}
    (hmem : (a, .jump kind target) ∈ located 0 ((p.whole config.emitHalt frame).code 0)) :
    (∃ i, (target, i) ∈ located 0 ((p.whole config.emitHalt frame).code 0)) ∨
      (config.emitHalt = false ∧ target = program.code.length) := by
  rw [Segment.whole, Segment.code, located_append, List.mem_append] at hmem
  rcases hmem with hmem | hmem
  · rcases Segment.boundary_of_jump hmem with ⟨i, hi⟩ | hend
    · exact Or.inl ⟨i, mem_whole hi⟩
    · -- a jump to the end of the tree leads to the halt, if there is one
      rw [Segment.sizes_code] at hend
      rcases hhalt : config.emitHalt with _ | _
      · refine Or.inr ⟨rfl, ?_⟩
        rw [h.length_code, hend, hhalt, Segment.size_settle]
        simp [Segment.ending, Segment.size]
      · refine Or.inl ⟨.plain .halt, ?_⟩
        rw [Segment.whole, Segment.code, located_append, hend, Segment.sizes_code, Nat.zero_add]
        exact List.mem_append_right _ (List.mem_cons_self ..)
  · unfold Segment.ending at hmem
    split at hmem
    · rcases List.mem_cons.mp hmem with heq | hmem
      · cases heq
      · cases hmem
    · cases hmem

end Tree.Compiles

/-- **Every compiled program is well formed.** -/
theorem wellFormed_of_compile {config : Config} {tree : Tree} {program : Program}
    (h : tree.compile config = .ok program) :
    program.WellFormed config.emitHalt (Reading.bodies 0 (tree.wholeReading config)) := by
  obtain ⟨p, frame, hcompiles⟩ := Tree.compiles_of_compile h
  refine ⟨Listing.splits_rows 0 program.code, ?_, ?_, ?_, ?_, ?_⟩
  · intro r hr
    obtain ⟨a, i, -, rfl⟩ := hcompiles.mem_rows.mp hr
    exact ⟨i.opcode, i.operands, rfl, i.length_operands, i.accepts⟩
  · intro r hr target htarget
    obtain ⟨a, i, hmem, rfl⟩ := hcompiles.mem_rows.mp hr
    obtain ⟨kind, rfl⟩ := Instruction.eq_jump_of_jumpTarget? htarget
    rcases hcompiles.jumps hmem with ⟨i, hi⟩ | hend
    · exact Or.inl ⟨i.row target, hcompiles.mem_rows.mpr ⟨target, i, hi, rfl⟩, rfl⟩
    · exact Or.inr hend
  · intro r hr target htarget
    exact hcompiles.isBody (hcompiles.mem_bodies_of_call hr htarget)
  · intro target htarget
    rw [hcompiles.init] at htarget
    exact hcompiles.isBody (hcompiles.mem_bodies_of_function? htarget)
  · intro target htarget
    rw [hcompiles.render] at htarget
    exact hcompiles.isBody (hcompiles.mem_bodies_of_function? htarget)

theorem wellFormed_doubling :
    Tree.doubling.compile {} = .ok .doubling ∧ Program.doubling.WellFormed false [0, 7] := by
  have hcompile : Tree.doubling.compile {} = .ok .doubling := rfl
  exact ⟨hcompile, wellFormed_of_compile hcompile⟩

end SceneCode
