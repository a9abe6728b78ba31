import SceneCode.Proofs.ControlFlow
import SceneCode.Proofs.Emission.Determinism
import SceneCode.Proofs.Relocation.Code
import SceneCode.Proofs.Scoping.Acceptance

/-!
# Programs that halt

A program that halts is the program that does not, relocated: `halting_relocates`.  There is a jump
over every function that is not inside another one and a halt at the end, and all addresses are
those of the same places as before.
-/

namespace SceneCode

open Instruction Spans

/-! ### Rows -/

/-- A row is relocated as its instruction is, if that calls no function by its name. -/
theorem Instruction.relocate_row {i : Instruction} (fs : List Span) (a : Nat)
    (h : i.pending? = none) : (i.row a).relocate fs = (i.relocate fs a).words := by
  cases i with
  | jump kind target => cases kind <;> rfl
  | plain i =>
    cases i with
    | call target count =>
      cases target with
      | known b => rfl
      | pending name => cases h
    | binary op => cases op <;> rfl
    | unary op => cases op <;> rfl
    | _ => rfl

/-- Code in which every call has its target is relocated row by row. -/
theorem Instruction.relocate_rows {is : List Instruction} (fs : List Span) (a : Nat)
    (h : ∀ i ∈ is, i.pending? = none) :
    (Listing.rows a (encode is)).flatMap (fun r => guards fs r.offset ++ r.relocate fs) =
      relocated fs a is := by
  induction is generalizing a with
  | nil =>
    rw [encode_nil, Listing.rows]
    rfl
  | cons i rest ih =>
    obtain ⟨hfirst, hrest⟩ := List.forall_mem_cons.mp h
    rw [encode_cons, rows_words_append, List.flatMap_cons, relocate_row fs a hfirst, ih _ hrest]
    rfl

namespace Tree.Compiles

variable {forward : Bool} {tree : Tree} {p : Segment} {frame : Frame} {program : Program}
  {fs : List Span}

/-- No call of a program is left without its target. -/
theorem pending?_eq_none {config : Config} (h : tree.Compiles config p frame program) (a : Nat) :
    ∀ i ∈ (p.settle frame).code a, i.pending? = none := by
  have hnames := Segment.names_pendingCalls (p.settle frame) a
  rw [names_pendingCalls, h.complete] at hnames
  exact List.filterMap_eq_nil_iff.mp hnames

/-- **The rules for a program that halts** give the relocated program, since the functions are moved
    to where they start behind the jumps over them. -/
theorem relocate (h : tree.Compiles ⟨forward, false⟩ p frame program)
    (hspans : tree.spans ⟨forward, false⟩ = fs) :
    tree.Compiles ⟨forward, true⟩ (p.guard (entry fs)) (frame.relocate (entry fs))
      (program.relocate fs) := by
  have hcovers := h.covers
  have hfs : Around fs 0 (tree.wholeOutline ⟨forward, false⟩) [] [] := by
    rw [← hspans, tree.spans_eq]
    exact Around.whole _
  have haligned : p.Aligned (entry fs) 0 0 := (hcovers.aligned rfl hfs).settle h.settled
  have hsettle : (p.guard (entry fs)).settle (frame.relocate (entry fs)) =
      (p.settle frame).guard (entry fs) := (Segment.guard_settle h.settled).symm
  have hemits := h.emits.guard ⟨forward, true⟩ rfl rfl haligned
  refine ⟨hemits, h.settled.guard, ?_, ?_, ?_, ?_⟩
  · rw [hsettle, Segment.pending_guard, h.complete]
  · have hcode : program.code = encode ((p.settle frame).code 0) := by
      rw [h.code, Segment.words, Segment.whole, Segment.code, encode_append]
      exact List.append_nil _
    have hwords := hcovers.words_guard rfl hfs
    calc
      (program.relocate fs).code
        = relocated fs 0 ((p.settle frame).code 0) ++ [.op .halt] := by
          rw [Program.relocate, hcode, relocate_rows fs 0 (h.pending?_eq_none 0)]
      _ = ((p.settle frame).guard (entry fs)).words 0 ++ [.op .halt] := by rw [← hwords]; rfl
      _ = ((p.guard (entry fs)).whole true (frame.relocate (entry fs))).words 0 := by
          rw [← hsettle, Segment.whole, Segment.words, Segment.words, Segment.code, encode_append]
          rfl
  · exact (congrArg _ h.init).trans (Scopes.function?_relocate ⟨frame, []⟩ "init").symm
  · exact (congrArg _ h.render).trans (Scopes.function?_relocate ⟨frame, []⟩ "render").symm

end Tree.Compiles

/-- **Halting only relocates.**  Whether a program is to halt makes no difference for the reason why
    a tree does not compile.  If it compiles, the program that halts is the one that does not with a
    jump over each function that is not inside another one and a halt behind it, where calls, entry
    points and jumps lead to the same places as before. -/
theorem halting_relocates (forward : Bool) (tree : Tree) :
    (∃ e, tree.compile ⟨forward, false⟩ = .error e ∧ tree.compile ⟨forward, true⟩ = .error e) ∨
      ∃ program, tree.compile ⟨forward, false⟩ = .ok program ∧
        tree.compile ⟨forward, true⟩ = .ok (program.relocate (tree.spans ⟨forward, false⟩)) ∧
        ((tree.spans ⟨forward, false⟩).Pairwise fun f g => f.finish ≤ g.start) ∧
        ∀ f ∈ tree.spans ⟨forward, false⟩, f.start < f.finish ∧
          ⟨f.finish - 1, .instruction .ret []⟩ ∈ Listing.rows 0 program.code := by
  cases hresult : tree.compile ⟨forward, false⟩ with
  | error e =>
    refine Or.inl ⟨e, rfl, ?_⟩
    rw [compile_eq_error_iff] at hresult ⊢
    exact hresult
  | ok program =>
    have hscoped := (exists_program_iff _ tree).mp ⟨program, hresult⟩
    obtain ⟨program', hresult'⟩ := (exists_program_iff ⟨forward, true⟩ tree).mpr hscoped
    obtain ⟨p, frame, h⟩ := Tree.compiles_of_compile hresult
    obtain ⟨q, frame', h'⟩ := Tree.compiles_of_compile hresult'
    refine Or.inr ⟨program, rfl, ?_, ?_, ?_⟩
    · rw [hresult', (h.relocate rfl).unique h']
    · rw [tree.spans_eq]
      exact Outline.pairwise_spans _ 0
    · intro f hf
      obtain ⟨d, hd, rfl⟩ := List.mem_map.mp hf
      refine ⟨by simp only [Definition.span, Definition.finish]; omega, ?_⟩
      exact h.return_mem_rows (List.mem_filter.mp hd).1

end SceneCode
