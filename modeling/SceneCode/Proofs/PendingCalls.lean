import SceneCode.Proofs.Scoping.Acceptance
import SceneCode.Proofs.Session.Requests

/-!
# Calls that wait

A call of a function that is not known yet waits in the innermost scope, and when the scope closes
without its function, in the scope around it.  In every session that requests lead to, also through
requests that fail, the calls wait in the order in which they were written, from the outermost scope
to the innermost one, and the code has the place of each (`Session.Orderly`).

So a target is only ever written into code that is there, and the reasons to fail that concern the
session rather than the program cannot occur in generation (`pending_calls_ordered`).
-/

namespace SceneCode

/-! ### The places of waiting calls -/

namespace Scopes

variable {sc : Scopes}

/-- The places of the calls that wait, from the outermost scope to the innermost one. -/
def waiting (sc : Scopes) : List Address :=
  sc.frames.reverse.flatMap fun f => f.pending.map (·.patchAt)

theorem waiting_of_pop {next : Frame} {rest : List Frame} (h : sc.outer = next :: rest) :
    sc.waiting = waiting ⟨next, rest⟩ ++ sc.current.pending.map (·.patchAt) := by
  simp [waiting, frames, h]

theorem waiting_push (sc : Scopes) : sc.push.waiting = sc.waiting := by
  simp [waiting, frames, push]

theorem waiting_defer (sc : Scopes) (call : PendingCall) :
    (sc.defer call).waiting = sc.waiting ++ [call.patchAt] := by
  simp [waiting, frames, defer, Frame.defer]

theorem waiting_of_register {sc' : Scopes} {name : String} {kind : LabelKind}
    {signature : Option Signature} {pc a : Address}
    (h : sc.register name kind signature pc = .ok (a, sc')) : sc'.waiting = sc.waiting := by
  simp [waiting, frames, outer_of_register h, pending_of_register h]

theorem mem_waiting {a : Address} : a ∈ sc.waiting ↔ a ∈ sc.places := by
  simp [waiting, places]

end Scopes

/-- The places of the calls that wait, and behind them those of calls that are held aside, increase
    and are in the code. -/
structure Session.Orderly (held : List Address) (s : Session) : Prop where
  increasing : (s.scopes.waiting ++ held).Pairwise (· < ·)
  written : ∀ a ∈ s.scopes.waiting ++ held, a < s.code.next

namespace Session.Orderly

variable {held fewer : List Address} {s t : Session}

/-- Fewer calls are held aside, and the code has not shrunk. -/
theorem mono (h : s.Orderly held) (hscopes : t.scopes.waiting = s.scopes.waiting)
    (hheld : fewer.Sublist held) (hnext : s.code.next ≤ t.code.next) : t.Orderly fewer := by
  have hsub : (t.scopes.waiting ++ fewer).Sublist (s.scopes.waiting ++ held) := by
    rw [hscopes]
    exact List.Sublist.append (List.Sublist.refl _) hheld
  refine ⟨h.increasing.sublist hsub, ?_⟩
  intro a ha
  exact Nat.lt_of_lt_of_le (h.written a (hsub.subset ha)) hnext

theorem extend (h : s.Orderly held) (hscopes : t.scopes.waiting = s.scopes.waiting)
    (hnext : s.code.next ≤ t.code.next) : t.Orderly held :=
  h.mono hscopes (List.Sublist.refl _) hnext

/-- A call that was held aside waits. -/
theorem defer {call : PendingCall} (h : s.Orderly (call.patchAt :: held)) :
    Orderly held { s with scopes := s.scopes.defer call } := by
  have hsplit : (s.scopes.defer call).waiting ++ held =
      s.scopes.waiting ++ call.patchAt :: held := by
    rw [Scopes.waiting_defer, List.append_assoc, List.singleton_append]
  constructor
  · exact hsplit ▸ h.increasing
  · exact hsplit ▸ h.written

/-- Nothing waits. -/
theorem of_waiting_eq_nil (h : s.scopes.waiting = []) : s.Orderly [] := by
  constructor
  · simp [h]
  · simp [h]

end Session.Orderly

/-! ### Requests keep the order -/

namespace Gen

variable {held : List Address}

theorem preserves_emit (w : Word) : Preserves (Session.Orderly held) (emit w) :=
  fun _ hs => hs.extend rfl (by simp [emit])

theorem preserves_patch (a : Address) (w : Word) :
    Preserves (Session.Orderly held) (patch a w) := by
  intro s hs
  unfold patch
  split
  · rename_i code hcode
    refine hs.extend rfl (Nat.le_of_eq ?_)
    have hwords := (Code.patch_eq_ok_iff.mp hcode).2
    rw [← Code.length_toList, ← Code.length_toList, hwords, List.length_set]
  · exact hs

theorem preserves_pushScope (silent : Bool) :
    Preserves (Session.Orderly []) (pushScope silent) := by
  have hpush :
      Preserves (Session.Orderly []) (update fun s => { s with scopes := s.scopes.push }) :=
    fun s hs => hs.extend (Scopes.waiting_push s.scopes) (Nat.le_refl _)
  refine hpush.bind fun _ => (Preserves.ask _).bind fun _ => (Preserves.log _).bind fun _ => ?_
  cases silent with
  | true => exact .pure ()
  | false => exact .emitAll preserves_emit _

/-- The calls of a scope that has been closed are held aside until they are settled or wait in the
    scope around it.  A call that does not find its function ends this, and those behind it are
    lost. -/
theorem orderly_settleInto (frame : Frame) {calls : List PendingCall} {s : Session}
    (h : s.Orderly (calls.map (·.patchAt))) : (settleInto frame calls s).session.Orderly [] := by
  induction calls generalizing s with
  | nil => exact h
  | cons call rest ih =>
    have hsettle := Preserves.settle preserves_patch frame call s h
    apply session_bind
    · intro e _
      exact hsettle.mono rfl (List.nil_sublist _) (Nat.le_refl _)
    · rintro settled t ⟨-, rfl⟩
      cases settled with
      | true => exact ih (hsettle.mono rfl (List.sublist_cons_self ..) (Nat.le_refl _))
      | false => exact ih hsettle.defer

/-- A scope that cannot be closed changes nothing. -/
theorem session_takeFrame_of_error {s : Session} {e : Fault}
    (h : (takeFrame s).result = .error e) : (takeFrame s).session = s := by
  unfold takeFrame at h ⊢
  split at h
  · cases h
  · simp_all

theorem preserves_popScope (silent : Bool) : Preserves (Session.Orderly []) (popScope silent) := by
  intro s hs
  apply session_bind
  · intro e herror
    rw [session_takeFrame_of_error herror]
    exact hs
  · intro frame t htake
    obtain ⟨next, rest, houter, rfl, rfl⟩ := yields_takeFrame.mp htake
    have hwaiting := Scopes.waiting_of_pop houter
    have hheld : Session.Orderly (s.scopes.current.pending.map (·.patchAt))
        (s.setScopes ⟨next, rest⟩) := by
      constructor
      · simpa [hwaiting] using hs.increasing
      · simpa [hwaiting] using hs.written
    have hsettled := orderly_settleInto s.scopes.current hheld
    apply session_bind
    · intro e _
      exact hsettled
    · rintro _ t ⟨-, rfl⟩
      refine (Preserves.ask _).bind (fun _ => (Preserves.log _).bind fun _ => ?_) _ hsettled
      cases silent with
      | true => exact .pure ()
      | false => exact .emitAll preserves_emit _

theorem preserves_registerLabel (name : String) (kind : LabelKind)
    (signature : Option Signature) :
    Preserves (Session.Orderly []) (registerLabel name kind signature) := by
  intro s hs
  unfold registerLabel
  split
  · rename_i address scopes hregister
    exact hs.extend (Scopes.waiting_of_register hregister) (Nat.le_refl _)
  · exact hs

/-- The place of a new word is behind those of the calls that wait. -/
theorem orderly_emit (w : Word) {s : Session} (hs : s.Orderly []) :
    (emit w s).session.Orderly [s.code.next] := by
  have hbefore : ∀ a ∈ s.scopes.waiting, a < s.code.next := by simpa using hs.written
  have hincreasing : s.scopes.waiting.Pairwise (· < ·) := by simpa using hs.increasing
  constructor
  · refine List.pairwise_append.mpr ⟨hincreasing, List.pairwise_singleton .., ?_⟩
    intro a ha b hb
    rw [List.mem_singleton.mp hb]
    exact hbefore a ha
  · intro a ha
    have hnext : (emit w s).session.code.next = s.code.next + 1 := by simp [emit]
    rw [hnext]
    rcases List.mem_append.mp ha with ha | ha
    · exact Nat.lt_succ_of_lt (hbefore a ha)
    · rw [List.mem_singleton.mp ha]
      exact Nat.lt_succ_self _

theorem preserves_forward (name : String) :
    Preserves (Session.Orderly []) (emitTarget name none) := by
  refine (Preserves.ask _).bind fun allowed => ?_
  intro s hs
  by_cases hallowed : allowed = true
  · rw [if_pos hallowed]
    have hplace : (emit Code.placeholder s).session.Orderly
        [(PendingCall.mk name s.code.next).patchAt] := orderly_emit _ hs
    exact hplace.defer
  · rw [if_neg hallowed]
    exact hs

theorem compositional_orderly : Compositional (Preserves (Session.Orderly [])) :=
  Preserves.compositional preserves_emit preserves_patch preserves_pushScope preserves_popScope
    preserves_registerLabel (fun _ _ hs => hs.extend rfl (Nat.le_refl _))
    (fun _ hs => hs.extend rfl (Nat.le_refl _)) preserves_forward

/-- Compiling starts over, and once the tree has its code, no call waits in an open scope. -/
theorem orderly_compile (tree : Tree) (s : Session) : (compile tree s).session.Orderly [] := by
  have hnew : Session.Orderly [] { config := s.config } :=
    .of_waiting_eq_nil (by simp [Scopes.waiting, Scopes.frames])
  have hreset : reset.Yields s () { config := s.config } := yields_update.mpr rfl
  apply session_bind
  · intro e herror
    rw [hreset.1] at herror
    cases herror
  rintro _ t ⟨-, rfl⟩
  apply session_bind
  · intro e _
    exact compositional_orderly.generate tree .discard _ hnew
  intro _ t hgen
  -- the scopes that the tree opens are closed, so that the outermost one has all the calls
  obtain ⟨p, -, hgrow⟩ := generates_generate tree .discard hgen
  have houter : t.scopes.outer = [] := hgrow.outer
  have htake := (yields_takeRootPending houter).mpr ⟨rfl, rfl⟩
  apply session_bind
  · intro e herror
    rw [htake.1] at herror
    cases herror
  rintro calls u ⟨-, rfl⟩
  -- the rest is none of the scopes' concern
  have hpatch (a : Address) (w : Word) :
      Preserves (fun s => s.scopes.waiting = []) (patch a w) := by
    intro s hs
    unfold patch
    split
    · exact hs
    · exact hs
  have hrest := Preserves.completion hpatch (fun _ _ hs => hs) (fun _ hs => hs) calls
  refine .of_waiting_eq_nil (hrest _ ?_)
  rw [htake.2]
  simp [Scopes.waiting, Scopes.frames, Frame.settled]

end Gen

theorem Session.Orderly.after {s : Session} (hs : s.Orderly []) (r : Request) :
    (r.after s).Orderly [] := by
  match r with
  | .emit w => exact Gen.preserves_emit w s hs
  | .patch a w => exact Gen.preserves_patch a w s hs
  | .pushScope silent => exact Gen.preserves_pushScope silent s hs
  | .popScope silent => exact Gen.preserves_popScope silent s hs
  | .registerLabel name kind signature =>
    exact Gen.preserves_registerLabel name kind signature s hs
  | .enterFunction type => exact Gen.compositional_orderly.enterFunction type s hs
  | .exitFunction => exact Gen.compositional_orderly.exitFunction s hs
  | .generate tree usage => exact Gen.compositional_orderly.generate tree usage s hs
  | .compile tree => exact Gen.orderly_compile tree s
  | .reset => exact .of_waiting_eq_nil (by simp [Request.after, Gen.reset, Gen.update,
      Scopes.waiting, Scopes.frames])

theorem Session.Reachable.orderly {config : Config} {s : Session} (h : Reachable config s) :
    s.Orderly [] :=
  h.holds (.of_waiting_eq_nil (by simp [Scopes.waiting, Scopes.frames])) fun _ r hs => hs.after r

/-! ### Faults -/

/-- The fault concerns the session, not the program. -/
def Fault.IsInternal : Fault → Prop
  | .scopeUnderflow => True
  | .patchOutOfRange .. => True
  | _ => False

namespace Scoping

/-- The checker goes on with so many scopes around the innermost one, or stops for a reason of the
    program. -/
def Ends (depth : Nat) : Except Fault State → Prop
  | .ok t => t.2.length = depth
  | .error e => ¬ e.IsInternal

theorem Ends.bind {depth last : Nat} {r : Except Fault State} {g : State → Except Fault State}
    (h : Ends depth r) (hg : ∀ t : State, t.2.length = depth → Ends last (g t)) :
    Ends last (r >>= g) := by
  cases r with
  | error e => exact h
  | ok t => exact hg t h

theorem not_isInternal_of_settle {names : Names} {calls : List String} {e : Fault}
    (h : settle names calls = .error e) : ¬ e.IsInternal := by
  induction calls with
  | nil => cases h
  | cons name rest ih =>
    unfold settle at h
    split at h
    · exact ih h
    · cases h
      exact id
    · cases hrest : settle names rest with
      | error e' =>
        rw [hrest] at h
        cases h
        exact ih hrest
      | ok left =>
        rw [hrest] at h
        cases h

theorem not_isInternal_of_settleLast {names : Names} {calls : List String} {e : Fault}
    (h : settleLast names calls = .error e) : ¬ e.IsInternal := by
  induction calls with
  | nil => cases h
  | cons name rest ih =>
    unfold settleLast at h
    split at h
    · exact ih h
    · cases h
      exact id
    · cases h
      exact id

/-- The list closes the scopes that it opens. -/
def Nested (acts : List Act) : Prop :=
  ∀ forward s, Ends s.2.length (run forward s acts)

theorem nested_nil : Nested [] :=
  fun _ _ => rfl

theorem Nested.append {acts more : List Act} (h : Nested acts) (h' : Nested more) :
    Nested (acts ++ more) := by
  intro forward s
  rw [run_append]
  refine (h forward s).bind fun t ht => ?_
  rw [← ht]
  exact h' forward t

theorem nested_declares (role : Role) (name : String) : Nested [.declares role name] := by
  intro forward s
  rw [run_single, step]
  split
  · exact id
  · rfl

theorem nested_uses (name : String) : Nested [.uses name] := by
  intro forward s
  rw [run_single, step]
  split
  · rfl
  · exact id
  · exact id

theorem nested_calls (name : String) : Nested [.calls name] := by
  intro forward s
  rw [run_single, step]
  split
  · rfl
  · exact id
  · split
    · rfl
    · exact id

theorem nested_returns (inside : Bool) : Nested [.returns inside] := by
  intro forward s
  rw [run_single, step]
  split
  · rfl
  · exact id

theorem ends_closes {depth : Nat} {forward : Bool} {s : State} (h : s.2.length = depth + 1) :
    Ends depth (step forward s .closes) := by
  rw [step]
  split
  · rename_i hnone
    rw [hnone] at h
    cases h
  · rename_i next outer hcons
    rw [hcons] at h
    cases hsettle : settle s.1.names s.1.waiting with
    | error e => exact not_isInternal_of_settle hsettle
    | ok left => exact Nat.succ.inj h

theorem Nested.within {acts : List Act} (h : Nested acts) :
    Nested ([.opens] ++ acts ++ [.closes]) := by
  intro forward s
  rw [List.append_assoc, run_append, run_single]
  have hopens : Ends (s.2.length + 1) (step forward s .opens) := rfl
  refine hopens.bind fun t ht => ?_
  rw [run_append]
  refine (h forward t).bind fun u hu => ?_
  rw [run_single]
  exact ends_closes (hu.trans ht)

/-- A whole list that is nested is not accepted for a reason of the program only. -/
theorem not_isInternal_of_verdict {forward : Bool} {acts : List Act} {e : Fault}
    (hacts : Nested acts) (h : verdict forward acts = .error e) : ¬ e.IsInternal := by
  have hends := hacts forward ({}, [])
  unfold verdict at h
  cases hrun : run forward ({}, []) acts with
  | error e' =>
    rw [hrun] at h hends
    cases h
    exact hends
  | ok s =>
    rw [hrun] at h hends
    have houter : s.2 = [] := List.eq_nil_of_length_eq_zero hends
    change finish s.1 s.2 = .error e at h
    rw [houter] at h
    exact not_isInternal_of_settleLast h

end Scoping

open Scoping in
mutual

/-- **Every tree closes the scopes that it opens.** -/
theorem nested_acts (inside : Bool) (t : Tree) : Nested (t.acts inside) := by
  match t with
  | .empty => exact nested_nil
  | .seq items => exact nested_actsAll inside items
  | .program body => exact nested_acts inside body
  | .block body => exact (nested_acts inside body).within
  | .function name params _ body =>
    have hparams : Nested (params.map fun p => .declares .variable p.name) := by
      induction params with
      | nil => exact nested_nil
      | cons p rest ih => exact (nested_declares .variable p.name).append ih
    have hbody := (hparams.append (nested_acts true body)).within
    simpa [Tree.acts] using (nested_declares .function name).append hbody
  | .ret value => exact (nested_returns inside).append (nested_acts inside value)
  | .declare _ name => exact nested_declares .variable name
  | .declareWith _ name value =>
    exact (nested_acts inside value).append (nested_declares .variable name)
  | .assign name value => exact (nested_acts inside value).append (nested_uses name)
  | .compound _ name value =>
    exact ((nested_uses name).append (nested_acts inside value)).append (nested_uses name)
  | .step _ name => exact (nested_uses name).append (nested_uses name)
  | .ifThen cond body => exact (nested_acts inside cond).append (nested_acts inside body)
  | .ifElse cond body other =>
    exact ((nested_acts inside cond).append (nested_acts inside body)).append
      (nested_acts inside other)
  | .whileLoop cond body => exact (nested_acts inside cond).append (nested_acts inside body)
  | .doLoop cond body => exact (nested_acts inside body).append (nested_acts inside cond)
  | .forLoop init cond update body =>
    have hrounds := (((nested_acts inside init).append (nested_acts inside cond)).append
      (nested_acts inside body)).append (nested_acts inside update)
    simpa [Tree.acts] using hrounds.within
  | .call name args => exact (nested_actsAll inside args).append (nested_calls name)
  | .binary _ lhs rhs => exact (nested_acts inside lhs).append (nested_acts inside rhs)
  | .logical _ lhs rhs => exact (nested_acts inside lhs).append (nested_acts inside rhs)
  | .unary _ operand => exact nested_acts inside operand
  | .ident name => exact nested_uses name
  | .lit _ => exact nested_nil

theorem nested_actsAll (inside : Bool) (ts : List Tree) : Nested (Tree.actsAll inside ts) := by
  match ts with
  | [] => exact nested_nil
  | t :: rest => exact (nested_acts inside t).append (nested_actsAll inside rest)

end

namespace Session.Orderly

variable {s : Session}

/-- Where the calls are in order, generation does what the checker does. -/
theorem ready (hs : s.Orderly []) :
    s.Ready ⟨s.config.forwardCalls, !s.functions.types.isEmpty, []⟩ := by
  refine ⟨rfl, by simp, ?_, by simp⟩
  intro a ha
  apply hs.written
  rw [List.append_nil]
  exact Scopes.mem_waiting.mpr ha

/-- A computation that does what the checker does fails for a reason of the program if the checker
    does. -/
theorem not_isInternal_of_tracks {α : Type} {x : Gen α} {acts : List Act} {depth : Nat} {e : Fault}
    (hs : s.Orderly [])
    (hx : x.Tracks ⟨s.config.forwardCalls, !s.functions.types.isEmpty, []⟩ acts)
    (hends : Scoping.Ends depth (Scoping.run s.config.forwardCalls s.scopes.state acts))
    (h : (x s).result = .error e) : ¬ e.IsInternal := by
  have hmeets := hx hs.ready
  cases hrun : Scoping.run s.config.forwardCalls s.scopes.state acts with
  | error e' =>
    rw [hrun] at hmeets hends
    cases Except.error.inj (h.symm.trans hmeets)
    exact hends
  | ok state =>
    rw [hrun] at hmeets
    obtain ⟨_, _, hyields, -⟩ := hmeets
    cases h.symm.trans hyields.1

theorem not_isInternal_of_generate (hs : s.Orderly []) {tree : Tree} {usage : Usage} {e : Fault}
    (h : (tree.generate usage s).result = .error e) : ¬ e.IsInternal :=
  hs.not_isInternal_of_tracks (tracks_generate tree usage _) (nested_acts _ tree _ _) h

theorem not_isInternal_of_popScope (hs : s.Orderly []) (hdepth : s.scopes.depth ≠ 0)
    {silent : Bool} {e : Fault} (h : (Gen.popScope silent s).result = .error e) :
    ¬ e.IsInternal := by
  have hlength : s.scopes.state.2.length = s.scopes.depth - 1 + 1 := by
    simp only [Scopes.state, List.length_map]
    exact (Nat.succ_pred_eq_of_ne_zero hdepth).symm
  have hends : Scoping.Ends (s.scopes.depth - 1)
      (Scoping.step s.config.forwardCalls s.scopes.state .closes) := Scoping.ends_closes hlength
  rw [← Scoping.run_single] at hends
  exact hs.not_isInternal_of_tracks (Gen.tracks_popScope silent) hends h

end Session.Orderly

/-- The outermost scope cannot be closed. -/
theorem popScope_of_depth_eq_zero {s : Session} (h : s.scopes.depth = 0) (silent : Bool) :
    (Gen.popScope silent s).result = .error .scopeUnderflow := by
  have houter : s.scopes.outer = [] := List.eq_nil_of_length_eq_zero h
  apply Gen.result_bind_of_error
  simp [Gen.takeFrame, Scopes.pop, houter]

theorem not_isInternal_of_compile {tree : Tree} {s : Session} {e : Fault}
    (h : (Gen.compile tree s).result = .error e) : ¬ e.IsInternal := by
  have hcompile : tree.compile s.config = .error e := h
  exact Scoping.not_isInternal_of_verdict (nested_acts false tree)
    ((compile_eq_error_iff s.config tree e).mp hcompile)

/-- **Pending calls stay in order, whatever is asked of a session.**  The outermost scope is always
    there; the calls that wait do so in the order of their places, from the outermost scope to the
    innermost one; and the code has all these places.  So no target is ever written outside of the
    code, and a scope is missing only where the outermost one is to be closed by hand. -/
theorem pending_calls_ordered {config : Config} {s : Session} (h : Session.Reachable config s) :
    s.scopes.frames ≠ [] ∧
      s.scopes.waiting.Pairwise (· < ·) ∧
      (∀ a ∈ s.scopes.waiting, a < s.code.next) ∧
      (∀ silent a n, (Gen.popScope silent s).result ≠ .error (.patchOutOfRange a n)) ∧
      (∀ tree usage a n, (Tree.generate tree usage s).result ≠ .error (.patchOutOfRange a n)) ∧
      (∀ tree a n, (Gen.compile tree s).result ≠ .error (.patchOutOfRange a n)) ∧
      (∀ tree usage, (Tree.generate tree usage s).result ≠ .error .scopeUnderflow) ∧
      (∀ tree, (Gen.compile tree s).result ≠ .error .scopeUnderflow) ∧
      ∀ silent, (Gen.popScope silent s).result = .error .scopeUnderflow ↔ s.scopes.depth = 0 := by
  have hs := h.orderly
  refine ⟨List.cons_ne_nil _ _, ?_, ?_, ?_, ?_, ?_, ?_, ?_, ?_⟩
  · simpa using hs.increasing
  · simpa using hs.written
  · intro silent a n herror
    by_cases hdepth : s.scopes.depth = 0
    · cases herror.symm.trans (popScope_of_depth_eq_zero hdepth silent)
    · exact hs.not_isInternal_of_popScope hdepth herror trivial
  · intro tree usage a n herror
    exact hs.not_isInternal_of_generate herror trivial
  · intro tree a n herror
    exact not_isInternal_of_compile herror trivial
  · intro tree usage herror
    exact hs.not_isInternal_of_generate herror trivial
  · intro tree herror
    exact not_isInternal_of_compile herror trivial
  · intro silent
    constructor
    · intro herror
      by_cases hdepth : s.scopes.depth = 0
      · exact hdepth
      · exact absurd trivial (hs.not_isInternal_of_popScope hdepth herror)
    · intro hdepth
      exact popScope_of_depth_eq_zero hdepth silent

/-- Requests the last of which stops half-way, with a scope still open, and a call waiting in it and
    another one around it. -/
def Request.interrupted : List Request :=
  [.generate (.call "f" []) .discard, .pushScope false,
    .generate (.seq [.call "g" [], .ident "x"]) .discard]

theorem pending_calls_interrupted :
    let s := Request.interrupted.foldl Request.after {}
    Session.Reachable {} s ∧ s.scopes.waiting = [1, 6] ∧ s.scopes.waiting.Pairwise (· < ·) ∧
      ∀ silent a n, (Gen.popScope silent s).result ≠ .error (.patchOutOfRange a n) := by
  intro s
  have hreachable : Session.Reachable {} s := Session.Reachable.new.afterAll Request.interrupted
  obtain ⟨-, hincreasing, -, hpop, -⟩ := pending_calls_ordered hreachable
  exact ⟨hreachable, by rfl, hincreasing, hpop⟩

end SceneCode
