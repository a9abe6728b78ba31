import SceneCode.Proofs.Heights
import SceneCode.Proofs.Lexical.Emission

/-!
# Paths of control

A path goes from row to row, and a call on it leads to the row behind the call.  The code of a
function is a segment with a return behind it, and so is a whole program with its halt.  Every jump
of a segment leads to a boundary of the segment, and at the last instruction control ends, so a path
never leaves such a stretch of code (`Program.Encloses.leads`).

Along the way every row does to the open scopes what its instruction says.  A path that begins where
no scope of a block or loop can be closed has opened exactly those scopes that are open where it
ends, besides those that were open at its start.
-/

namespace SceneCode

open Instruction

/-- Control can go from an address to another one through some rows, within the same function. -/
inductive Program.Leads (program : Program) (start : Address) : List Row → Address → Prop where
  | start : Leads program start [] start
  | step {done r b} :
      Leads program start done r.offset → r ∈ Listing.rows 0 program.code → b ∈ r.successors →
      Leads program start (done ++ [r]) b

/-! ### Rows -/

theorem Listing.le_offset {offset : Nat} {words : List Word} {r : Row}
    (h : r ∈ rows offset words) : offset ≤ r.offset := by
  fun_induction rows offset words with
  | case1 offset => cases h
  | case2 offset w rest content ih =>
    rcases List.mem_cons.mp h with rfl | h
    · exact Nat.le_refl _
    · exact Nat.le_trans (Nat.le_add_right ..) (ih h)

/-- At an address there is at most one row. -/
theorem Listing.eq_of_offset_eq {offset : Nat} {words : List Word} {r r' : Row}
    (h : r ∈ rows offset words) (h' : r' ∈ rows offset words) (heq : r.offset = r'.offset) :
    r = r' := by
  fun_induction rows offset words with
  | case1 offset => cases h
  | case2 offset w rest content ih =>
    have hsize : 0 < content.size := by
      cases content with
      | instruction op operands => exact Nat.add_pos_left Nat.zero_lt_one _
      | data w => exact Nat.zero_lt_one
    have hlater {s : Row} (hs : s ∈ rows (offset + content.size) (rest.drop (content.size - 1))) :
        offset < s.offset :=
      Nat.lt_of_lt_of_le (Nat.lt_add_of_pos_right hsize) (le_offset hs)
    rcases List.mem_cons.mp h with rfl | h
    · rcases List.mem_cons.mp h' with rfl | h'
      · rfl
      · exact (Nat.ne_of_lt (hlater h') heq).elim
    · rcases List.mem_cons.mp h' with rfl | h'
      · exact (Nat.ne_of_lt (hlater h) heq.symm).elim
      · exact ih h h'

namespace Row

def opcode? (r : Row) : Option Opcode :=
  match r.content with
  | .instruction op _ => some op
  | .data _ => none

/-- How often an operation is among the rows. -/
def runs (op : Opcode) (done : List Row) : Nat :=
  (done.filterMap opcode?).count op

theorem runs_append_row (op : Opcode) (done : List Row) (i : Instruction) (a : Nat) :
    runs op (done ++ [i.row a]) = runs op done + if i.opcode = op then 1 else 0 := by
  have hopcode : [i.row a].filterMap opcode? = [i.opcode] := rfl
  rw [runs, runs, List.filterMap_append, hopcode, List.count_append, List.count_singleton]
  simp only [beq_iff_eq]

end Row

/-- Behind an instruction that is not a jump control goes on, unless it ends there. -/
theorem Instruction.mem_successors_plain {i : Plain} {a b : Nat}
    (h : b ∈ ((Instruction.plain i).row a).successors) :
    b = a + i.size ∧ i ≠ .ret ∧ i ≠ .retValue ∧ i ≠ .halt := by
  cases i with
  | ret | retValue | halt => cases h
  | binary op => cases op <;> exact ⟨List.mem_singleton.mp h, nofun, nofun, nofun⟩
  | unary op => cases op <;> exact ⟨List.mem_singleton.mp h, nofun, nofun, nofun⟩
  | _ => exact ⟨List.mem_singleton.mp h, nofun, nofun, nofun⟩

/-- A jump leads to its target, or to the next instruction if it has a condition. -/
theorem Instruction.mem_successors_jump {kind : Jump} {target a b : Nat}
    (h : b ∈ ((Instruction.jump kind target).row a).successors) :
    b = target ∨ kind ≠ .always ∧ b = a + 2 := by
  cases kind with
  | always => exact Or.inl (List.mem_singleton.mp h)
  | ifFalse | ifTrue =>
    rcases List.mem_cons.mp h with rfl | h
    · exact Or.inl rfl
    · exact Or.inr ⟨nofun, List.mem_singleton.mp h⟩

/-! ### Open scopes along a path -/

/-- The scopes that the rows have opened and not closed are open at `b`, besides those of `base`. -/
def Bracketed (c : Nat → List Layer) (base : List Layer) (done : List Row) (b : Nat) : Prop :=
  ∃ scopes, c b = scopes ++ base ∧ (∀ layer ∈ scopes, layer.isScope = true) ∧
    Row.runs .enterScope done = Row.runs .exitScope done + scopes.length

namespace Bracketed

variable {c : Nat → List Layer} {base : List Layer} {done : List Row} {root a b : Nat}

theorem start (h : c a = base) : Bracketed c base [] a :=
  ⟨[], h, nofun, rfl⟩

/-- An instruction that leaves the scopes alone. -/
theorem keep {i : Instruction} (h : Bracketed c base done a) (hsame : c b = c a)
    (henter : i.opcode ≠ .enterScope) (hexit : i.opcode ≠ .exitScope) :
    Bracketed c base (done ++ [i.row a]) b := by
  obtain ⟨scopes, hopen, hscopes, hcount⟩ := h
  refine ⟨scopes, hsame.trans hopen, hscopes, ?_⟩
  rw [Row.runs_append_row, Row.runs_append_row, if_neg henter, if_neg hexit]
  exact hcount

theorem enter {count : Nat} (h : Bracketed c base done a) (hopened : c b = .scope count :: c a) :
    Bracketed c base (done ++ [(Instruction.plain .enterScope).row a]) b := by
  obtain ⟨scopes, hopen, hscopes, hcount⟩ := h
  refine ⟨.scope count :: scopes, by rw [hopened, hopen, List.cons_append], ?_, ?_⟩
  · intro layer hlayer
    rcases List.mem_cons.mp hlayer with rfl | hlayer
    · rfl
    · exact hscopes layer hlayer
  · have henter : Row.runs .enterScope (done ++ [(Instruction.plain .enterScope).row a]) =
        Row.runs .enterScope done + 1 := Row.runs_append_row ..
    have hexit : Row.runs .exitScope (done ++ [(Instruction.plain .enterScope).row a]) =
        Row.runs .exitScope done := Row.runs_append_row ..
    rw [henter, hexit, hcount, List.length_cons, Nat.add_assoc]

/-- A scope that is closed is not one of `base`, since the first of those is that of a function. -/
theorem exit {count : Nat} (h : Bracketed c base done a) (hclosed : c a = .scope count :: c b)
    (hbase : ∀ layer ∈ base.head?, layer.isScope = false) :
    Bracketed c base (done ++ [(Instruction.plain .exitScope).row a]) b := by
  obtain ⟨scopes, hopen, hscopes, hcount⟩ := h
  rw [hopen] at hclosed
  cases scopes with
  | nil =>
    rw [List.nil_append] at hclosed
    have hfirst := hbase (.scope count) (by rw [hclosed]; rfl)
    cases hfirst
  | cons layer scopes =>
    rw [List.cons_append, List.cons.injEq] at hclosed
    refine ⟨scopes, hclosed.2.symm, fun l hl => hscopes l (List.mem_cons_of_mem _ hl), ?_⟩
    have henter : Row.runs .enterScope (done ++ [(Instruction.plain .exitScope).row a]) =
        Row.runs .enterScope done := Row.runs_append_row ..
    have hexit : Row.runs .exitScope (done ++ [(Instruction.plain .exitScope).row a]) =
        Row.runs .exitScope done + 1 := Row.runs_append_row ..
    rw [henter, hexit, hcount, List.length_cons]
    omega

/-- What a row does to the scopes where control goes on from it. -/
theorem step {i : Instruction} (h : Bracketed c base done a) (hfits : i.Fits root c a)
    (hbase : ∀ layer ∈ base.head?, layer.isScope = false) (hb : b ∈ (i.row a).successors) :
    Bracketed c base (done ++ [i.row a]) b := by
  cases i with
  | jump kind target =>
    have hsame : c b = c a := by
      rcases mem_successors_jump hb with rfl | ⟨hkind, rfl⟩
      · exact hfits.1
      · exact hfits.2 hkind
    cases kind <;> exact h.keep hsame nofun nofun
  | plain i =>
    obtain ⟨rfl, hret, hvalue, hhalt⟩ := mem_successors_plain hb
    cases i with
    | enterScope =>
      obtain ⟨count, hopened⟩ := hfits
      exact h.enter hopened
    | exitScope =>
      obtain ⟨count, hclosed⟩ := hfits
      exact h.exit hclosed hbase
    | ret => exact (hret rfl).elim
    | retValue => exact (hvalue rfl).elim
    | halt => exact (hhalt rfl).elim
    | load depth slot | store depth slot => exact h.keep hfits.1 nofun nofun
    | binary op => cases op <;> exact h.keep hfits nofun nofun
    | unary op => cases op <;> exact h.keep hfits nofun nofun
    | push value | pop | dup | call target count => exact h.keep hfits nofun nofun

end Bracketed

/-! ### Stretches of code that control does not leave -/

/-- The program has a segment at an address with an instruction behind it where control ends.  The
    scopes `base` are open at both ends, and every instruction between them fits the open scopes. -/
structure Program.Encloses (program : Program) (c : Nat → List Layer) (root start : Nat)
    (base : List Layer) (q : Segment) (last : Plain) : Prop where
  rows : ∀ {b i}, (b, i) ∈ located start (q.code start ++ [.plain last]) →
    i.row b ∈ Listing.rows 0 program.code
  ends : last = .ret ∨ last = .halt
  fits : q.Fits root c start
  opens : c start = base
  closes : c (start + q.size) = base
  bottom : ∀ layer ∈ base.head?, layer.isScope = false

namespace Program.Encloses

variable {program : Program} {c : Nat → List Layer} {root start b : Nat} {base : List Layer}
  {q : Segment} {last : Plain} {done : List Row}

theorem row_mem (h : program.Encloses c root start base q last) {i : Instruction}
    (hi : (b, i) ∈ located start (q.code start)) : i.row b ∈ Listing.rows 0 program.code := by
  apply h.rows
  rw [located_append]
  exact List.mem_append_left _ hi

theorem last_mem (h : program.Encloses c root start base q last) :
    (Instruction.plain last).row (start + q.size) ∈ Listing.rows 0 program.code := by
  apply h.rows
  rw [located_append, Segment.sizes_code]
  exact List.mem_append_right _ (List.mem_singleton.mpr rfl)

theorem exists_row (h : program.Encloses c root start base q last)
    (hboundary : Boundary start (q.code start) b) :
    ∃ r ∈ Listing.rows 0 program.code, r.offset = b := by
  rcases hboundary with ⟨i, hi⟩ | rfl
  · exact ⟨i.row b, h.row_mem hi, rfl⟩
  · rw [Segment.sizes_code]
    exact ⟨_, h.last_mem, rfl⟩

/-- The row at a boundary is that of an instruction of the segment, or of the one behind it. -/
theorem row_cases (h : program.Encloses c root start base q last) {r : Row}
    (hr : r ∈ Listing.rows 0 program.code) (hboundary : Boundary start (q.code start) r.offset) :
    (∃ i, (r.offset, i) ∈ located start (q.code start) ∧ r = i.row r.offset) ∨
      r = (Instruction.plain last).row (start + q.size) := by
  rcases hboundary with ⟨i, hi⟩ | hend
  · exact Or.inl ⟨i, hi, Listing.eq_of_offset_eq hr (h.row_mem hi) rfl⟩
  · rw [Segment.sizes_code] at hend
    exact Or.inr (Listing.eq_of_offset_eq hr h.last_mem hend)

/-- **Control does not leave the code of a function**, nor that of a program which halts, and on the
    way scopes are opened and closed as the code says. -/
theorem leads (h : program.Encloses c root start base q last)
    (hleads : program.Leads start done b) :
    Boundary start (q.code start) b ∧ Bracketed c base done b := by
  induction hleads with
  | start => exact ⟨Boundary.start _ _, .start h.opens⟩
  | @step done r b _ hr hb ih =>
    obtain ⟨hboundary, hbracketed⟩ := ih
    rcases h.row_cases hr hboundary with ⟨i, hi, hrow⟩ | hrow
    · rw [hrow] at hb ⊢
      refine ⟨?_, hbracketed.step (h.fits hi) h.bottom hb⟩
      cases i with
      | plain i =>
        obtain ⟨rfl, -⟩ := mem_successors_plain hb
        exact Boundary.behind hi
      | jump kind target =>
        rcases mem_successors_jump hb with rfl | ⟨-, rfl⟩
        · exact Segment.boundary_of_jump hi
        · exact Boundary.behind hi
    · -- from the last instruction control goes nowhere
      rw [hrow] at hb
      rcases h.ends with rfl | rfl <;> cases hb

end Program.Encloses

/-! ### Where control enters -/

/-- Where control enters code, with the scopes that are open there: at the label of a function, and
    at the start of a program that halts. -/
inductive Tree.Entry (config : Config) (tree : Tree) : Nat → List Layer → Prop where
  | function {d} : d ∈ tree.definitions config → Entry config tree d.start d.base
  | whole : config.emitHalt = true → Entry config tree 0 []

namespace Tree.Compiles

variable {config : Config} {tree : Tree} {p : Segment} {frame : Frame} {program : Program}

theorem row_mem (h : tree.Compiles config p frame program) {b : Nat} {i : Instruction}
    (hmem : (b, i) ∈ located 0 ((p.settle frame).code 0)) :
    i.row b ∈ Listing.rows 0 program.code := by
  refine h.mem_rows.mpr ⟨b, i, ?_, rfl⟩
  rw [Segment.whole, Segment.code, located_append]
  exact List.mem_append_left _ hmem

theorem encloses_body (h : tree.Compiles config p frame program) {d : Definition}
    (hd : d ∈ tree.definitions config) :
    ∃ q : Segment, q.size = d.body.size ∧
      program.Encloses (tree.context config) (tree.wholeOutline config).locals d.start d.base q
        .ret := by
  obtain ⟨q, hq, hcode⟩ := h.covers.among rfl hd
  have hagrees : d.body.Agrees (tree.context config) d.start d.base := fun b hstart hend =>
    Outline.context_of_contains hd ⟨hstart, hend⟩
  refine ⟨q, hq.size_eq.symm, ?_⟩
  constructor
  case rows => exact fun hmem => h.row_mem (hcode hmem)
  case ends => exact Or.inl rfl
  case fits =>
    have hinside : Layer.InFunction d.base := ⟨d.layer, List.mem_cons_self .., rfl⟩
    exact hq.fits rfl (fun _ => hinside) rfl hagrees
  case opens => exact hagrees.start (hq.guarded rfl)
  case closes =>
    rw [← hq.size_eq]
    exact hagrees.finish
  case bottom =>
    intro layer hlayer
    cases hlayer
    rfl

theorem encloses_whole (h : tree.Compiles config p frame program)
    (hhalt : config.emitHalt = true) :
    program.Encloses (tree.context config) (tree.wholeOutline config).locals 0 []
      (p.settle frame) .halt := by
  have hcovers := h.covers
  rw [hhalt] at hcovers
  have hagrees : (tree.wholeOutline config).Agrees (tree.context config) 0 [] := fun b _ _ => rfl
  constructor
  case rows =>
    intro b i hmem
    refine h.mem_rows.mpr ⟨b, i, ?_, rfl⟩
    rw [hhalt]
    exact hmem
  case ends => exact Or.inr rfl
  case fits => exact hcovers.fits rfl nofun rfl hagrees
  case opens => exact hagrees.start (hcovers.guarded rfl)
  case closes =>
    rw [← hcovers.size_eq]
    exact hagrees.finish
  case bottom => nofun

theorem encloses (h : tree.Compiles config p frame program) {start : Nat} {base : List Layer}
    (hentry : tree.Entry config start base) :
    ∃ q last, program.Encloses (tree.context config) (tree.wholeOutline config).locals start base
      q last := by
  cases hentry with
  | function hd =>
    obtain ⟨q, -, hencloses⟩ := h.encloses_body hd
    exact ⟨q, .ret, hencloses⟩
  | whole hhalt => exact ⟨p.settle frame, .halt, h.encloses_whole hhalt⟩

end Tree.Compiles

end SceneCode
