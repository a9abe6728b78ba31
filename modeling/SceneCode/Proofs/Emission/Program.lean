import SceneCode.Proofs.Emission.Generation

/-!
# Whole programs

A program is the segment of its tree, with the calls settled that were still pending when the tree
was complete, and a halt behind it if the options ask for one.  No call is left without a target.
-/

namespace SceneCode

/-- What stands behind the code of a tree. -/
def Segment.ending (halts : Bool) : Segment :=
  if halts then .one .halt else .nothing

/-- The code of a whole program: the code of the tree with every call settled, and what stands
    behind it. -/
def Segment.whole (halts : Bool) (frame : Frame) (p : Segment) : Segment :=
  .seq (p.settle frame) (.ending halts)

/-- The program is what the rules give for the tree: the tree emits `p`, and `frame` holds the
    labels of the whole program. -/
structure Tree.Compiles (config : Config) (tree : Tree) (p : Segment) (frame : Frame)
    (program : Program) : Prop where
  emits : Emits config none {} 0 tree .discard p ⟨frame, []⟩
  settled : p.SettledBy frame
  complete : (p.settle frame).pending = []
  code : program.code = (p.whole config.emitHalt frame).words 0
  init : program.init = Scopes.function? ⟨frame, []⟩ "init"
  render : program.render = Scopes.function? ⟨frame, []⟩ "render"

/-! ### Names of pending calls -/

theorem Instruction.names_pendingCalls (a : Nat) (is : List Instruction) :
    (pendingCalls a is).map (·.name) = is.filterMap pending? := by
  induction is generalizing a with
  | nil => rfl
  | cons i is ih =>
    rcases hcall : i.pending? with _ | name
    · rw [pendingCalls_cons_of_none is hcall, ih, List.filterMap_cons_none hcall]
    · rw [pendingCalls_cons_of_some is hcall, List.map_cons, ih, List.filterMap_cons_some hcall]

theorem Segment.names_pendingCalls (p : Segment) (a : Nat) :
    (Instruction.pendingCalls a (p.code a)).map (·.name) = p.pending := by
  have hplain : Instruction.pending? = fun i => i.plain?.bind Plain.pending? := by
    funext i
    cases i <;> rfl
  rw [Instruction.names_pendingCalls, pending, ← filterMap_plain?_code p a,
    List.filterMap_filterMap, hplain]

namespace Gen

open Instruction Session

/-! ### The last steps -/

/-- In a finished program every call finds its function. -/
theorem yields_settleAll_cons {call : PendingCall} {rest : List PendingCall} {s t : Session} :
    (settleAll (call :: rest)).Yields s () t ↔
      ∃ label, s.scopes.current.get? call.name = some label ∧ label.kind = .function ∧
        (call.patchAt < s.code.next ∧
          (settleAll rest).Yields (s.replace call.patchAt (.addr label.address)) () t) := by
  simp only [settleAll, yields_bind, yields_ask, yields_settle]
  constructor
  · rintro ⟨_, s, ⟨rfl, rfl⟩, done, mid, ⟨-, rfl, -⟩ | ⟨label, hlabel, hkind, rfl, hlt, rfl⟩, h⟩
    · simp [yields_bind] at h
    · exact ⟨label, hlabel, hkind, hlt, h⟩
  · rintro ⟨label, hlabel, hkind, hlt, h⟩
    exact ⟨_, s, ⟨rfl, rfl⟩, true, _, Or.inr ⟨label, hlabel, hkind, rfl, hlt, rfl⟩, h⟩

/-- Settling the calls of a finished program is settling the calls of a scope, if none is left. -/
theorem settleInto_of_settleAll {calls : List PendingCall} {s t : Session}
    (h : (settleAll calls).Yields s () t) :
    (settleInto s.scopes.current calls).Yields s () t ∧
      ∀ call ∈ calls, s.scopes.current.get? call.name ≠ none := by
  induction calls generalizing s with
  | nil => exact ⟨h, by simp⟩
  | cons call rest ih =>
    obtain ⟨label, hlabel, hkind, hlt, hrest⟩ := yields_settleAll_cons.mp h
    obtain ⟨hinto, hall⟩ := ih hrest
    refine ⟨yields_settleInto_cons.mpr (Or.inr ⟨label, hlabel, hkind, hlt, hinto⟩), ?_⟩
    intro c hc
    rcases List.mem_cons.mp hc with rfl | hc
    · rw [hlabel]
      exact Option.some_ne_none _
    · exact hall c hc

/-- Only words are replaced when the calls of a finished program are settled. -/
theorem same_of_settleAll {calls : List PendingCall} {s t : Session}
    (h : (settleAll calls).Yields s () t) :
    t.config = s.config ∧ t.scopes = s.scopes ∧ t.functions = s.functions := by
  induction calls generalizing s with
  | nil =>
    obtain ⟨-, rfl⟩ := yields_pure.mp h
    exact ⟨rfl, rfl, rfl⟩
  | cons call rest ih =>
    obtain ⟨label, -, -, -, hrest⟩ := yields_settleAll_cons.mp h
    obtain ⟨hconfig, hscopes, hfunctions⟩ := ih hrest
    exact ⟨hconfig, hscopes, hfunctions⟩

@[simp] theorem yields_entryPoint {name : String} {a : Option Address} {s t : Session} :
    (entryPoint name).Yields s a t ↔ a = s.scopes.function? name ∧ t = s := by
  simp only [entryPoint, yields_bind, yields_ask, Scopes.function?, and_assoc, exists_and_left,
    exists_eq_left]
  rcases hfind : s.scopes.find? name with _ | ⟨⟨address, kind, signature⟩, depth⟩
  · simp only [yields_pure]
  · cases kind <;>
      simp only [yields_bind, yields_log, yields_pure, exists_const, exists_eq_left]

@[simp] theorem yields_takeCode {ws : List Word} {s t : Session} :
    takeCode.Yields s ws t ↔ ws = s.code.toList ∧ t = { s with code := {} } := by
  simp [Yields, takeCode, eq_comm]

/-- The pending calls of a session with one scope. -/
theorem yields_takeRootPending {calls : List PendingCall} {s t : Session}
    (houter : s.scopes.outer = []) :
    takeRootPending.Yields s calls t ↔
      calls = s.scopes.current.pending ∧ t = s.setScopes ⟨s.scopes.current.settled, []⟩ := by
  have htake : s.scopes.takeRootPending =
      (s.scopes.current.pending, ⟨s.scopes.current.settled, []⟩) := by
    simp [Scopes.takeRootPending, houter]
  simp [Yields, takeRootPending, htake, eq_comm, Session.setScopes]

/-- The halt at the end, if there is one. -/
def haltWords (halts : Bool) : List Word :=
  if halts then [.op .halt] else []

/-- Compiling a program, step by step. -/
theorem yields_compile {tree : Tree} {program : Program} {s v : Session}
    (h : (compile tree).Yields s program v) :
    ∃ s₁ s₂ calls s₃, (tree.generate .discard).Yields { config := s.config } () s₁ ∧
      takeRootPending.Yields s₁ calls s₂ ∧ (settleAll calls).Yields s₂ () s₃ ∧
      program = ⟨s₃.code.toList ++ haltWords s₃.config.emitHalt,
        s₃.scopes.function? "init", s₃.scopes.function? "render"⟩ ∧
      v = { s₃ with code := {} } := by
  simp only [compile, reset, yields_bind, yields_update, yields_ask] at h
  obtain ⟨_, _, rfl, _, s₁, hgen, calls, s₂, htake, _, _, hsettle, halts, s₃, ⟨rfl, rfl⟩, h⟩ := h
  refine ⟨s₁, s₂, calls, s₃, hgen, htake, hsettle, ?_⟩
  rcases hhalt : s₃.config.emitHalt with _ | _
  · simp only [hhalt, Bool.false_eq_true, if_false, yields_bind, yields_entryPoint, yields_here,
      yields_log, yields_takeCode, yields_pure] at h
    obtain ⟨_, _, ⟨rfl, rfl⟩, _, _, ⟨rfl, rfl⟩, _, _, ⟨rfl, rfl⟩, _, _, rfl, _, _, ⟨rfl, rfl⟩, rfl,
      rfl⟩ := h
    simp [haltWords]
  · simp only [hhalt, if_true, yields_bind, yields_emitAll, yields_entryPoint, yields_here,
      yields_log, yields_takeCode, yields_pure] at h
    obtain ⟨_, _, rfl, _, _, ⟨rfl, rfl⟩, _, _, ⟨rfl, rfl⟩, _, _, ⟨rfl, rfl⟩, _, _, rfl, _, _,
      ⟨rfl, rfl⟩, rfl, rfl⟩ := h
    simp [haltWords]

end Gen

open Instruction in
/-- **A tree that compiles follows the rules.**  Its program is the segment of the tree with every
    call settled, and its entry points are functions of the outermost scope. -/
theorem Tree.compiles_of_compile {config : Config} {tree : Tree} {program : Program}
    (h : tree.compile config = .ok program) : ∃ p frame, tree.Compiles config p frame program := by
  have hyields : (Gen.compile tree).Yields { config } program _ := ⟨h, rfl⟩
  obtain ⟨s₁, s₂, calls, s₃, hgen, htake, hsettle, rfl, -⟩ := Gen.yields_compile hyields
  obtain ⟨p, hp, hgrow⟩ := generates_generate tree .discard hgen
  have houter : s₁.scopes.outer = [] := hgrow.outer
  obtain ⟨rfl, rfl⟩ := (Gen.yields_takeRootPending houter).mp htake
  have hpending : s₁.scopes.current.pending = pendingCalls 0 (p.code 0) := hgrow.pending
  have hcode : s₁.code.toList = encode (p.code 0) := hgrow.code
  rw [hpending] at hsettle
  obtain ⟨hinto, hknown⟩ := Gen.settleInto_of_settleAll hsettle
  have hwords : (s₁.setScopes ⟨s₁.scopes.current.settled, []⟩).code.toList =
      [] ++ encode (p.code 0) ++ [] := by simpa using hcode
  obtain ⟨hsettled, -, -, -, hlist⟩ := Gen.yields_settleInto rfl hwords hinto
  rw [Session.scopes_setScopes] at hknown hsettled hlist
  have hcomplete : (p.settle s₁.scopes.current.settled).pending = [] := by
    apply List.eq_nil_iff_forall_not_mem.mpr
    intro name hname
    obtain ⟨hmem, hnone⟩ := Segment.mem_pending_settle.mp hname
    rw [← Segment.names_pendingCalls p 0] at hmem
    obtain ⟨call, hcall, rfl⟩ := List.mem_map.mp hmem
    exact hknown call hcall hnone
  obtain ⟨hconfig, hscopes, -⟩ := Gen.same_of_settleAll hsettle
  rw [Session.scopes_setScopes] at hscopes
  have hbare : s₁.scopes.bare = ⟨s₁.scopes.current.settled, []⟩ := by
    simp [Scopes.bare, houter]
  rw [hbare] at hp
  refine ⟨p, s₁.scopes.current.settled, hp, Segment.settledBy_of_code hsettled, hcomplete, ?_, ?_,
    ?_⟩
  · have hhalt : s₃.config.emitHalt = config.emitHalt := by
      rw [hconfig, Session.config_setScopes, hgrow.config]
    simp only [hlist, hhalt, Segment.words, Segment.whole, Segment.code, Segment.code_settle,
      Segment.ending]
    cases config.emitHalt with
    | true =>
      have hword : (plain .halt).words = [.op .halt] := rfl
      simp [Segment.code, Gen.haltWords, hword]
    | false => simp [Segment.code, Gen.haltWords]
  · rw [hscopes]
  · rw [hscopes]

namespace Tree.Compiles

open Instruction

variable {config : Config} {tree : Tree} {p : Segment} {frame : Frame} {program : Program}

/-- The rows of a program show its instructions. -/
theorem mem_rows (h : tree.Compiles config p frame program) {r : Row} :
    r ∈ Listing.rows 0 program.code ↔
      ∃ a i, (a, i) ∈ located 0 ((p.whole config.emitHalt frame).code 0) ∧ r = i.row a := by
  rw [h.code, Segment.words, rows_words, List.mem_map]
  constructor
  · rintro ⟨⟨a, i⟩, hmem, rfl⟩
    exact ⟨a, i, hmem, rfl⟩
  · rintro ⟨a, i, hmem, rfl⟩
    exact ⟨(a, i), hmem, rfl⟩

theorem length_code (h : tree.Compiles config p frame program) :
    program.code.length = p.size + (Segment.ending config.emitHalt).size := by
  rw [h.code, Segment.length_words, Segment.whole, Segment.size, Segment.size_settle]

end Tree.Compiles

end SceneCode
