import SceneCode.Proofs.Emission.Program
import SceneCode.Proofs.Scoping.Basic
import SceneCode.Proofs.Session.Ledger

/-!
# Generation does what the checker does

Seen from the names and the waiting calls of its scopes, a session goes through the states of the
checker, and it fails exactly where the checker does, for the same reason.  `Gen.Tracks` says so for
one computation and the things it does.  One computation after the other tracks one list after the
other, so this is proved for the actions, then for every construct, then along the tree.

Two reasons to fail are not in the rules for scopes: a jump or a call may only be given a target if
it has been written.  That is what a computation may rely on where it starts (`Session.Ready`), and
what it keeps.
-/

namespace SceneCode

/-! ### What the checker sees of a session -/

def LabelKind.role : LabelKind → Role
  | .function => .function
  | .variable _ => .variable

def Frame.scope (f : Frame) : Scoping.Scope :=
  ⟨f.labels.map fun (name, label) => (name, label.kind.role), f.pending.map (·.name)⟩

def Scopes.state (sc : Scopes) : Scoping.State :=
  (sc.current.scope, sc.outer.map Frame.scope)

theorem Frame.lookup_scope (f : Frame) (name : String) :
    f.scope.names.lookup name = (f.get? name).map (·.kind.role) :=
  f.lookup_map_labels (·.kind.role) name

theorem Scopes.find_state (sc : Scopes) (name : String) :
    Scoping.find name sc.state.names = (sc.find? name).map (·.label.kind.role) := by
  have hframes (frames : List Frame) (depth : Nat) :
      Scoping.find name ((frames.map Frame.scope).map Scoping.Scope.names) =
        (findIn name frames depth).map (·.label.kind.role) := by
    induction frames generalizing depth with
    | nil => rfl
    | cons f rest ih =>
      rw [List.map_cons, List.map_cons, Scoping.find_cons, Frame.lookup_scope, findIn]
      cases f.get? name with
      | none => exact ih (depth + 1)
      | some label => rfl
  exact hframes sc.frames 0

theorem Scopes.mem_places_defer {sc : Scopes} {call : PendingCall} {place : Address} :
    place ∈ (sc.defer call).places ↔ place = call.patchAt ∨ place ∈ sc.places := by
  simp only [places, frames, defer, Frame.defer, List.flatMap_cons, List.map_append,
    List.mem_append, List.map_cons, List.map_nil, List.mem_singleton]
  rw [or_right_comm, or_comm]

/-- What is known where a computation starts. -/
structure Setting where
  /-- Whether a function may be called before it is defined. -/
  forward : Bool
  /-- Whether a function definition is in progress. -/
  inside : Bool
  /-- The placeholders of jumps that have been written. -/
  holes : List Address := []

def Setting.hole (c : Setting) (a : Address) : Setting :=
  { c with holes := a :: c.holes }

/-- The session is as the setting says, and the places of all waiting calls have been written. -/
structure Session.Ready (c : Setting) (s : Session) : Prop where
  forward : s.config.forwardCalls = c.forward
  inside : s.functions.types.isEmpty = !c.inside
  places : ∀ a ∈ s.scopes.places, a < s.code.next
  holes : ∀ a ∈ c.holes, a < s.code.next

/-- More code, and no other call that waits. -/
theorem Session.Ready.extend {c : Setting} {s t : Session} (h : s.Ready c)
    (hconfig : t.config = s.config) (hfunctions : t.functions = s.functions)
    (hplaces : ∀ a ∈ t.scopes.places, a ∈ s.scopes.places) (hnext : s.code.next ≤ t.code.next) :
    t.Ready c where
  forward := hconfig ▸ h.forward
  inside := hfunctions ▸ h.inside
  places := fun a ha => Nat.lt_of_lt_of_le (h.places a (hplaces a ha)) hnext
  holes := fun a ha => Nat.lt_of_lt_of_le (h.holes a ha) hnext

theorem Session.Ready.hole {c : Setting} {s : Session} {a : Address} (h : s.Ready c)
    (ha : a < s.code.next) : s.Ready (c.hole a) :=
  ⟨h.forward, h.inside, h.places, List.forall_mem_cons.mpr ⟨ha, h.holes⟩⟩

theorem Session.Ready.mono {c : Setting} {s : Session} {a : Address} (h : s.Ready (c.hole a)) :
    s.Ready c :=
  ⟨h.forward, h.inside, h.places, fun b hb => h.holes b (List.mem_cons_of_mem a hb)⟩

/-- What every computation keeps: the functions in progress, and the code. -/
structure Session.Keeps (s t : Session) : Prop where
  functions : t.functions = s.functions
  next : s.code.next ≤ t.code.next

theorem Session.Keeps.refl (s : Session) : s.Keeps s :=
  ⟨rfl, Nat.le_refl _⟩

theorem Session.keeps_write (s : Session) (ws : List Word) : s.Keeps (s.write ws) :=
  ⟨rfl, by simp⟩

theorem Session.Keeps.trans {s t u : Session} (h : s.Keeps t) (h' : t.Keeps u) : s.Keeps u :=
  ⟨h'.functions.trans h.functions, Nat.le_trans h.next h'.next⟩

namespace Gen

variable {α β : Type} {c : Setting} {s t : Session} {r : Except Fault Scoping.State}
  {as bs cs ds : List Act}

/-! ### Ways to build computations -/

theorem result_bind_of_yields {x : Gen α} {f : α → Gen β} {a : α} (h : x.Yields s a t) :
    ((x >>= f) s).result = (f a t).result := by
  obtain ⟨hresult, rfl⟩ := h
  rw [bind_apply, hresult]

theorem result_bind_of_error {x : Gen α} {f : α → Gen β} {e : Fault} (h : (x s).result = .error e) :
    ((x >>= f) s).result = .error e := by
  rw [bind_apply, h]

/-- The computation comes to the same end as the checker: the state that the checker comes to, or
    the same fault. -/
def Meets (c : Setting) (x : Gen α) (s : Session) : Except Fault Scoping.State → Prop
  | .ok state => ∃ a t, x.Yields s a t ∧ t.scopes.state = state ∧ s.Keeps t ∧ t.Ready c
  | .error e => (x s).result = .error e

/-- Wherever it is ready to start, the computation does what the checker does with the list. -/
def Tracks (c : Setting) (x : Gen α) (acts : List Act) : Prop :=
  ∀ ⦃s⦄, s.Ready c → x.Meets c s (Scoping.run c.forward s.scopes.state acts)

theorem Meets.bind {x : Gen α} {f : α → Gen β} {g : Scoping.State → Except Fault Scoping.State}
    (hx : x.Meets c s r)
    (hf : ∀ a t, x.Yields s a t → t.Ready c → (f a).Meets c t (g t.scopes.state)) :
    (x >>= f).Meets c s (r >>= g) := by
  cases r with
  | error e => exact result_bind_of_error hx
  | ok state =>
    obtain ⟨a, t, hyields, rfl, hkeeps, hready⟩ := hx
    have hrest := hf a t hyields hready
    change (x >>= f).Meets c s (g t.scopes.state)
    cases hg : g t.scopes.state with
    | error e =>
      rw [hg] at hrest
      exact (result_bind_of_yields hyields).trans hrest
    | ok last =>
      rw [hg] at hrest
      obtain ⟨b, u, hlast, hstate, hkeeps', hready'⟩ := hrest
      exact ⟨b, u, yields_bind.mpr ⟨a, t, hyields, hlast⟩, hstate, hkeeps.trans hkeeps', hready'⟩

/-- What a computation does after a first step that succeeds and that the checker does not see. -/
theorem Meets.after {x : Gen α} {f : α → Gen β} {a : α} (hx : x.Yields s a t)
    (hkeeps : s.Keeps t) (hf : (f a).Meets c t r) : (x >>= f).Meets c s r := by
  cases r with
  | error e => exact (result_bind_of_yields hx).trans hf
  | ok state =>
    obtain ⟨b, u, hlast, hstate, hkeeps', hready⟩ := hf
    exact ⟨b, u, yields_bind.mpr ⟨a, t, hx, hlast⟩, hstate, hkeeps.trans hkeeps', hready⟩

/-- Something that the checker does not see may follow. -/
theorem Meets.before {x : Gen α} {f : α → Gen β} (hx : x.Meets c s r)
    (hf : ∀ a, Tracks c (f a) []) : (x >>= f).Meets c s r := by
  have h := hx.bind fun a t _ ht => hf a ht
  rwa [bind_pure] at h

theorem Tracks.bind {x : Gen α} {f : α → Gen β} (hx : Tracks c x as)
    (hf : ∀ a, Tracks c (f a) bs) : Tracks c (x >>= f) (as ++ bs) := by
  intro s hs
  rw [Scoping.run_append]
  exact (hx hs).bind fun a t _ ht => hf a ht

/-- A placeholder that has been written stays. -/
theorem Tracks.weaken {x : Gen α} (hx : Tracks c x as) (hole : Address) :
    Tracks (c.hole hole) x as := by
  intro s hs
  have h := hx hs.mono
  change x.Meets (c.hole hole) s (Scoping.run c.forward s.scopes.state as)
  cases hrun : Scoping.run c.forward s.scopes.state as with
  | error e =>
    rw [hrun] at h
    exact h
  | ok state =>
    rw [hrun] at h
    obtain ⟨a, t, hyields, hstate, hkeeps, hready⟩ := h
    have hhole := hs.holes hole (List.mem_cons_self ..)
    exact ⟨a, t, hyields, hstate, hkeeps, hready.hole (Nat.lt_of_lt_of_le hhole hkeeps.next)⟩

/-- A computation that always succeeds, writes code at most, and does nothing that the checker
    sees. -/
theorem tracks_quiet {x : Gen α} (hx : ∀ ⦃s⦄, s.Ready c → ∃ a t, x.Yields s a t ∧
    t.scopes = s.scopes ∧ t.config = s.config ∧ s.Keeps t) : Tracks c x [] := by
  intro s hs
  obtain ⟨a, t, hyields, hscopes, hconfig, hkeeps⟩ := hx hs
  refine ⟨a, t, hyields, by rw [hscopes], hkeeps,
    hs.extend hconfig hkeeps.functions ?_ hkeeps.next⟩
  intro place hplace
  rw [← hscopes]
  exact hplace

/-- Behind something that the checker does not see, the list is the same. -/
theorem Tracks.then {x : Gen α} {f : α → Gen β} (hx : Tracks c x [])
    (hf : ∀ a, Tracks c (f a) as) : Tracks c (x >>= f) as :=
  hx.bind hf

theorem Tracks.before {x : Gen α} {f : α → Gen β} (hx : Tracks c x as)
    (hf : ∀ a, Tracks c (f a) []) : Tracks c (x >>= f) as :=
  fun _ hs => (hx hs).before hf

theorem tracks_pure (a : α) : Tracks c (Pure.pure a : Gen α) [] :=
  tracks_quiet fun s _ => ⟨a, s, yields_pure.mpr ⟨rfl, rfl⟩, rfl, rfl, .refl s⟩

theorem tracks_ask (f : Session → α) : Tracks c (ask f) [] :=
  tracks_quiet fun s _ => ⟨f s, s, yields_ask.mpr ⟨rfl, rfl⟩, rfl, rfl, .refl s⟩

theorem tracks_log (e : Event) : Tracks c (log e) [] :=
  tracks_quiet fun s _ => ⟨(), s, yields_log.mpr rfl, rfl, rfl, .refl s⟩

/-! ### Code -/

theorem tracks_emitAll (ws : List Word) : Tracks c (emitAll ws) [] :=
  tracks_quiet fun s _ => ⟨(), _, yields_emitAll.mpr rfl, rfl, rfl, s.keeps_write ws⟩

theorem tracks_finish (u : Usage) : Tracks c (finish u) [] :=
  tracks_quiet fun s _ => ⟨(), _, yields_finish.mpr rfl, rfl, rfl, s.keeps_write _⟩

theorem tracks_land {hole : Address} (h : hole ∈ c.holes) : Tracks c (land hole) [] :=
  tracks_quiet fun _ hs =>
    ⟨(), _, yields_land.mpr ⟨hs.holes hole h, rfl⟩, rfl, rfl, rfl, by simp⟩

/-- Behind a jump its placeholder may be given a target. -/
theorem tracks_emitJump_bind {op : Opcode} {f : Address → Gen α}
    (hf : ∀ hole, Tracks (c.hole hole) (f hole) as) : Tracks c (emitJump op >>= f) as := by
  intro s hs
  have hyields : (emitJump op).Yields s (s.code.next + 1) (s.write [.op op, Code.placeholder]) :=
    yields_emitJump.mpr ⟨rfl, rfl⟩
  have hready : (s.write [.op op, Code.placeholder]).Ready c :=
    hs.extend rfl rfl (fun _ ha => ha) (by simp)
  have hrest := hf (s.code.next + 1) (hready.hole (by simp))
  refine Meets.after hyields (s.keeps_write _) ?_
  rw [show Scoping.run (c.hole (s.code.next + 1)).forward = Scoping.run c.forward from rfl,
    Session.scopes_write] at hrest
  cases hrun : Scoping.run c.forward s.scopes.state as with
  | error e =>
    rw [hrun] at hrest
    exact hrest
  | ok state =>
    rw [hrun] at hrest
    obtain ⟨a, t, hlast, hstate, hkeeps, hready'⟩ := hrest
    exact ⟨a, t, hlast, hstate, hkeeps, hready'.mono⟩

/-! ### Scopes and labels -/

theorem tracks_pushScope (silent : Bool) : Tracks c (pushScope silent) [.opens] := by
  intro s hs
  refine ⟨(), _, yields_pushScope.mpr rfl, rfl, ⟨rfl, by simp⟩, hs.extend rfl rfl ?_ (by simp)⟩
  intro a ha
  exact ha

theorem tracks_registerLabel (name : String) (kind : LabelKind) (signature : Option Signature) :
    Tracks c (registerLabel name kind signature) [.declares kind.role name] := by
  intro s hs
  rw [Scoping.run_single, Scoping.step]
  have hlookup : s.scopes.state.1.names.lookup name = _ := s.scopes.current.lookup_scope name
  rw [hlookup]
  rcases hget : s.scopes.current.get? name with _ | label
  · have hreg : ∃ a sc, s.scopes.register name kind signature s.code.next = .ok (a, sc) ∧
        sc.state = ({ s.scopes.state.1 with
          names := (name, kind.role) :: s.scopes.state.1.names }, s.scopes.state.2) := by
      cases kind <;> exact ⟨_, _, by simp only [Scopes.register, Frame.register, hget]; rfl, rfl⟩
    obtain ⟨a, sc, hok, hstate⟩ := hreg
    refine ⟨a, s.setScopes sc, yields_registerLabel.mpr ⟨sc, hok, rfl⟩, hstate,
      ⟨rfl, Nat.le_refl _⟩, hs.extend rfl rfl ?_ (Nat.le_refl _)⟩
    intro place hplace
    simpa [Scopes.places, Scopes.frames, Scopes.pending_of_register hok,
      Scopes.outer_of_register hok] using hplace
  · have hreg : s.scopes.register name kind signature s.code.next =
        .error (.redefinition name) := by
      simp only [Scopes.register, Frame.register, hget]
      rfl
    simp [Meets, registerLabel, hreg]

theorem tracks_declare (type : TypeName) (name : String) :
    Tracks c (declare type name) [.declares .variable name] :=
  (tracks_registerLabel name (.variable type) none).before fun _ => tracks_pure ()

theorem tracks_declareParams (ps : List Param) :
    Tracks c (declareParams ps) (ps.map fun p => .declares .variable p.name) := by
  induction ps with
  | nil => exact tracks_pure ()
  | cons p rest ih => exact (tracks_declare p.type p.name).bind fun _ => ih

/-- The calls of a closed scope, one after the other. -/
theorem meets_settleInto (frame : Frame) {calls : List PendingCall} (hs : s.Ready c)
    (hcalls : ∀ call ∈ calls, call.patchAt < s.code.next) :
    (settleInto frame calls).Meets c s ((Scoping.settle frame.scope.names
      (calls.map (·.name))).map (Scoping.State.await s.scopes.state)) := by
  induction calls generalizing s with
  | nil =>
    refine ⟨(), s, yields_pure.mpr ⟨rfl, rfl⟩, ?_, .refl s, hs⟩
    simp [Scoping.State.await]
  | cons call rest ih =>
    obtain ⟨hcall, hrest⟩ := List.forall_mem_cons.mp hcalls
    rw [List.map_cons, Scoping.settle, Frame.lookup_scope]
    unfold settleInto
    rcases hget : frame.get? call.name with _ | ⟨address, kind, signature⟩
    · -- the frame does not know the name, so the call waits in the scope around
      have hready : (s.setScopes (s.scopes.defer call)).Ready c := by
        refine ⟨hs.forward, hs.inside, ?_, hs.holes⟩
        intro place hplace
        rcases Scopes.mem_places_defer.mp hplace with rfl | hplace
        · exact hcall
        · exact hs.places place hplace
      have hstate (left : List String) : Scoping.State.await s.scopes.state (call.name :: left) =
          Scoping.State.await (s.scopes.defer call).state left := by
        simp [Scoping.State.await, Scopes.state, Scopes.defer, Frame.defer, Frame.scope]
      have hmap (left : Except Fault (List String)) :
          (left.map (call.name :: ·)).map (Scoping.State.await s.scopes.state) =
            left.map (Scoping.State.await (s.scopes.defer call).state) := by
        cases left with
        | error e => rfl
        | ok left => exact congrArg Except.ok (hstate left)
      refine Meets.after (yields_settle.mpr (Or.inl ⟨hget, rfl, rfl⟩)) (.refl s) ?_
      simp only [Bool.false_eq_true, if_false, Option.map_none, hmap]
      exact Meets.after (yields_update (a := ()).mpr rfl) ⟨rfl, Nat.le_refl _⟩ (ih hready hrest)
    · cases kind with
      | function =>
        have hready : (s.replace call.patchAt (.addr address)).Ready c :=
          hs.extend rfl rfl (fun _ ha => ha) (by simp)
        refine Meets.after (yields_settle.mpr (Or.inr ⟨_, hget, rfl, rfl, hcall, rfl⟩))
          ⟨rfl, by simp⟩ ?_
        exact ih hready fun other hother => by simpa using hrest other hother
      | «variable» type =>
        apply result_bind_of_error
        simp only [settle, hget]
        rfl

theorem tracks_popScope (silent : Bool) : Tracks c (popScope silent) [.closes] := by
  intro s hs
  rw [Scoping.run_single, Scoping.step]
  rcases houter : s.scopes.outer with _ | ⟨next, rest⟩
  · have hempty : s.scopes.state.2 = [] := by simp [Scopes.state, houter]
    rw [hempty]
    apply result_bind_of_error
    simp [takeFrame, Scopes.pop, houter]
  · have hcons : s.scopes.state.2 = next.scope :: rest.map Frame.scope := by
      simp [Scopes.state, houter]
    have hplaces : s.scopes.places = s.scopes.current.pending.map (·.patchAt) ++
        Scopes.places ⟨next, rest⟩ := by
      simp [Scopes.places, Scopes.frames, houter]
    have hready : (s.setScopes ⟨next, rest⟩).Ready c :=
      hs.extend rfl rfl (fun a ha => hplaces ▸ List.mem_append_right _ ha) (Nat.le_refl _)
    have hcalls : ∀ call ∈ s.scopes.current.pending, call.patchAt < s.code.next := by
      intro call hcall
      exact hs.places _ (hplaces ▸ List.mem_append_left _ (List.mem_map_of_mem hcall))
    rw [hcons]
    refine Meets.after (yields_takeFrame.mpr ⟨next, rest, houter, rfl, rfl⟩)
      ⟨rfl, Nat.le_refl _⟩ ?_
    refine (meets_settleInto s.scopes.current hready hcalls).before fun _ => ?_
    refine (tracks_ask _).then fun _ => (tracks_log _).then fun _ => ?_
    cases silent with
    | true => exact tracks_pure ()
    | false => exact tracks_emitAll _

/-! ### Names -/

theorem tracks_variableAddress (name : String) : Tracks c (variableAddress name) [.uses name] := by
  intro s hs
  rw [Scoping.run_single, Scoping.step, Scopes.find_state]
  rcases hfind : s.scopes.find? name with _ | ⟨⟨slot, kind, signature⟩, depth⟩
  · apply result_bind_of_error
    simp [ofExcept, Scopes.lookup, hfind]
  · have hlookup : (ofExcept (·.scopes.lookup name)).Yields s _ s :=
      yields_ofExcept.mpr ⟨by simp only [Scopes.lookup, hfind]; rfl, rfl⟩
    cases kind with
    | function => exact result_bind_of_yields hlookup
    | «variable» type =>
      exact Meets.after hlookup (.refl s)
        ⟨_, s, yields_pure.mpr ⟨rfl, rfl⟩, rfl, .refl s, hs⟩

theorem tracks_loadVariable (name : String) : Tracks c (loadVariable name) [.uses name] :=
  (tracks_variableAddress name).before fun _ => tracks_emitAll _

theorem tracks_storeVariable (name : String) (u : Usage) :
    Tracks c (storeVariable name u) [.uses name] := by
  refine (tracks_variableAddress name).before fun (depth, slot) => ?_
  cases u with
  | value => exact (tracks_emitAll _).then fun _ => tracks_emitAll _
  | discard => exact tracks_emitAll _

/-- The place of a call that waits is written with it. -/
theorem meets_emitTarget_none (name : String) (hs : s.Ready c) :
    (emitTarget name none).Meets c s (if c.forward = true then
      .ok (Scoping.State.await s.scopes.state [name]) else .error (.unresolved name)) := by
  have hforward := hs.forward
  cases hc : c.forward with
  | true =>
    rw [hc] at hforward
    refine ⟨(), _, yields_emitTarget_none.mpr ⟨hforward, rfl⟩, ?_, ⟨rfl, by simp⟩, hs.forward,
      hs.inside, ?_, ?_⟩
    · simp [Scoping.State.await, Scopes.state, Scopes.defer, Frame.defer, Frame.scope]
    · intro place hplace
      rcases Scopes.mem_places_defer.mp hplace with rfl | hplace
      · simp
      · exact Nat.lt_of_lt_of_le (hs.places place hplace) (by simp)
    · intro hole hhole
      exact Nat.lt_of_lt_of_le (hs.holes hole hhole) (by simp)
  | false =>
    rw [hc] at hforward
    refine (result_bind_of_yields (yields_ask.mpr ⟨rfl, rfl⟩)).trans ?_
    simp [hforward, fail]

theorem tracks_call {name : String} {count : Nat} {x : Gen Unit} {u : Usage} (hx : Tracks c x as) :
    Tracks c (call name count x u) (as ++ [.calls name]) := by
  refine hx.bind fun _ => ?_
  intro s hs
  rw [Scoping.run_single, Scoping.step, Scopes.find_state]
  have hcall : (s.write [.op .call]).Ready c := hs.extend rfl rfl (fun _ ha => ha) (by simp)
  have hwrite : (emitAll [.op .call]).Yields s () _ := yields_emitAll.mpr rfl
  have hrest : Tracks c (do emitAll [.int count]; finish u) [] :=
    (tracks_emitAll _).then fun _ => tracks_finish u
  rcases hfind : s.scopes.find? name with _ | ⟨⟨address, kind, signature⟩, depth⟩
  · refine Meets.after (yields_callTarget.mpr ⟨rfl, Or.inl ⟨rfl, hfind⟩⟩) (.refl s) ?_
    refine Meets.after hwrite (s.keeps_write _) ?_
    exact (meets_emitTarget_none name hcall).before fun _ => hrest
  · cases kind with
    | function =>
      have hknown : s.scopes.function? name = some address := by simp [Scopes.function?, hfind]
      refine Meets.after (yields_callTarget.mpr ⟨rfl, Or.inr ⟨_, rfl, hknown⟩⟩) (.refl s) ?_
      refine Meets.after hwrite (s.keeps_write _) ?_
      exact ((tracks_emitAll _).then fun _ => hrest) hcall
    | «variable» type =>
      apply result_bind_of_error
      refine (result_bind_of_yields (yields_ask.mpr ⟨rfl, rfl⟩)).trans ?_
      simp [hfind, fail]

/-! ### Expressions -/

variable {x y z v : Gen Unit} {u : Usage}

theorem tracks_literal (value : Literal) : Tracks c (literal value u) [] :=
  (tracks_emitAll _).then fun _ => tracks_finish u

theorem tracks_identifier (name : String) : Tracks c (identifier name u) [.uses name] :=
  (tracks_loadVariable name).before fun _ => tracks_finish u

theorem tracks_assign (name : String) (hx : Tracks c x as) :
    Tracks c (assign name x u) (as ++ [.uses name]) :=
  hx.bind fun _ => tracks_storeVariable name u

theorem tracks_compound (op : BinaryOp) (name : String) (hx : Tracks c x as) :
    Tracks c (compound op name x u) ([.uses name] ++ as ++ [.uses name]) := by
  rw [List.append_assoc]
  exact (tracks_loadVariable name).bind fun _ => hx.bind fun _ =>
    (tracks_emitAll _).then fun _ => tracks_storeVariable name u

theorem tracks_step (op : StepOp) (name : String) :
    Tracks c (step op name u) [.uses name, .uses name] :=
  (tracks_loadVariable name).bind fun _ => (tracks_emitAll _).then fun _ =>
    tracks_storeVariable name u

theorem tracks_binary (op : BinaryOp) (hx : Tracks c x as) (hy : Tracks c y bs) :
    Tracks c (binary op x y u) (as ++ bs) :=
  hx.bind fun _ => hy.before fun _ => (tracks_emitAll _).then fun _ => tracks_finish u

theorem tracks_unary (op : UnaryOp) (hx : Tracks c x as) : Tracks c (unary op x u) as :=
  hx.before fun _ => (tracks_emitAll _).then fun _ => tracks_finish u

theorem tracks_logical (op : LogicalOp) (hx : Tracks c x as)
    (hy : Tracks c y bs) : Tracks c (logical op x y u) (as ++ bs) :=
  hx.bind fun _ => (tracks_emitAll _).then fun _ => tracks_emitJump_bind fun hole =>
    (tracks_emitAll _).then fun _ => (hy.weaken hole).before fun _ =>
      (tracks_land (List.mem_cons_self ..)).then fun _ => tracks_finish u

/-! ### Statements -/

theorem tracks_block (hx : Tracks c x as) : Tracks c (block x) ([.opens] ++ as ++ [.closes]) := by
  rw [List.append_assoc]
  exact (tracks_pushScope false).bind fun _ => hx.bind fun _ => tracks_popScope false

theorem tracks_declareWith (type : TypeName) (name : String) (hx : Tracks c x as) :
    Tracks c (declareWith type name x) (as ++ [.declares .variable name]) :=
  hx.bind fun _ => (tracks_registerLabel name (.variable type) none).before fun _ =>
    tracks_emitAll _

theorem tracks_ret (isEmpty : Bool) (hx : Tracks c x as) (hempty : isEmpty = true → as = []) :
    Tracks c (ret isEmpty x) ([.returns c.inside] ++ as) := by
  intro s hs
  rw [Scoping.run_append, Scoping.run_single, Scoping.step]
  have hinside := hs.inside
  rcases htypes : s.functions.types with _ | ⟨type, rest⟩
  · have hfalse : c.inside = false := by simpa [htypes] using hinside
    rw [hfalse]
    apply result_bind_of_error
    simp [currentFunctionType, ofExcept, ReturnTypes.current, htypes]
  · have htrue : c.inside = true := by simpa [htypes] using hinside
    rw [htrue]
    have htype : currentFunctionType.Yields s type s :=
      yields_currentFunctionType.mpr ⟨by simp [htypes], rfl⟩
    refine Meets.after htype (.refl s) ?_
    cases isEmpty with
    | true =>
      rw [hempty rfl]
      exact tracks_emitAll _ hs
    | false =>
      refine (hx hs).before fun _ => ?_
      cases type.isVoid <;> exact tracks_emitAll _

theorem tracks_ifThen (hx : Tracks c x as) (hy : Tracks c y bs) :
    Tracks c (ifThen x y) (as ++ bs) :=
  hx.bind fun _ => tracks_emitJump_bind fun hole => (hy.weaken hole).before fun _ =>
    tracks_land (List.mem_cons_self ..)

theorem tracks_ifElse (hx : Tracks c x as) (hy : Tracks c y bs)
    (hz : Tracks c z cs) :
    Tracks c (ifElse x y z) (as ++ bs ++ cs) := by
  rw [List.append_assoc]
  exact hx.bind fun _ => tracks_emitJump_bind fun hole => (hy.weaken hole).bind fun _ =>
    tracks_emitJump_bind fun hole' =>
      (tracks_land (List.mem_cons_of_mem _ (List.mem_cons_self ..))).then fun _ =>
        ((hz.weaken hole).weaken hole').before fun _ => tracks_land (List.mem_cons_self ..)

theorem tracks_whileLoop (hx : Tracks c x as) (hy : Tracks c y bs) :
    Tracks c (whileLoop x y) (as ++ bs) :=
  (tracks_ask _).then fun _ => hx.bind fun _ => tracks_emitJump_bind fun hole =>
    (hy.weaken hole).before fun _ => (tracks_emitAll _).then fun _ =>
      tracks_land (List.mem_cons_self ..)

theorem tracks_doLoop (hx : Tracks c x as) (hy : Tracks c y bs) :
    Tracks c (doLoop x y) (bs ++ as) :=
  (tracks_ask _).then fun _ => hy.bind fun _ => hx.before fun _ => tracks_emitAll _

theorem tracks_forLoop (isEndless : Bool) (hx : Tracks c x as) (hy : Tracks c y bs)
    (hz : Tracks c z cs) (hv : Tracks c v ds) (hempty : isEndless = true → bs = []) :
    Tracks c (forLoop x isEndless y z v) ([.opens] ++ as ++ bs ++ ds ++ cs ++ [.closes]) := by
  simp only [List.append_assoc]
  refine (tracks_pushScope false).bind fun _ => hx.bind fun _ => (tracks_ask _).then fun _ => ?_
  cases isEndless with
  | true =>
    rw [hempty rfl]
    exact hv.bind fun _ => hz.bind fun _ => (tracks_emitAll _).then fun _ => tracks_popScope false
  | false =>
    exact hy.bind fun _ => tracks_emitJump_bind fun hole => (hv.weaken hole).bind fun _ =>
      (hz.weaken hole).bind fun _ => (tracks_emitAll _).then fun _ =>
        (tracks_land (List.mem_cons_self ..)).then fun _ => tracks_popScope false

/-- What a function definition in progress changes is undone behind it. -/
theorem tracks_within (type : TypeName) (hx : Tracks { c with inside := true } x as) :
    Tracks c (do enterFunction type; x; exitFunction) as := by
  intro s hs
  have henter : (enterFunction type).Yields s () _ := yields_enterFunction.mpr rfl
  have h := hx (s := { s with functions := s.functions.enter type })
    ⟨hs.forward, rfl, hs.places, hs.holes⟩
  change Meets c _ s (Scoping.run c.forward s.scopes.state as)
  change x.Meets _ _ (Scoping.run c.forward s.scopes.state as) at h
  cases hrun : Scoping.run c.forward s.scopes.state as with
  | error e =>
    rw [hrun] at h
    exact (result_bind_of_yields henter).trans (result_bind_of_error h)
  | ok state =>
    rw [hrun] at h
    obtain ⟨a, t, hyields, hstate, hkeeps, hready⟩ := h
    have hfunctions : t.functions.exit.2 = s.functions := by rw [hkeeps.functions]; rfl
    refine ⟨(), { t with functions := t.functions.exit.2 }, ?_, hstate, ⟨hfunctions, hkeeps.next⟩,
      hready.forward, ?_, hready.places, hready.holes⟩
    · exact yields_bind.mpr ⟨(), _, henter, yields_bind.mpr ⟨a, t, hyields,
        yields_exitFunction.mpr rfl⟩⟩
    · rw [hfunctions]
      exact hs.inside

theorem tracks_jumpOver (needed : Bool) (hx : Tracks c x as) : Tracks c (jumpOver needed x) as := by
  cases needed with
  | true =>
    exact tracks_emitJump_bind fun hole => (hx.weaken hole).before fun _ =>
      tracks_land (List.mem_cons_self ..)
  | false => exact hx

theorem tracks_function (name : String) (params : List Param) (returns : TypeName)
    (hx : Tracks { c with inside := true } x as) :
    Tracks c (function name params returns x) ([.declares .function name, .opens] ++
      params.map (fun p => .declares .variable p.name) ++ as ++ [.closes]) := by
  refine (tracks_ask _).then fun needed => tracks_jumpOver needed ?_
  have hbody := tracks_within returns <| (tracks_pushScope true).bind fun _ =>
    (tracks_declareParams params).bind fun _ => hx.bind fun _ => (tracks_emitAll [.op .ret]).then
      fun _ => tracks_popScope true
  have hall := (tracks_registerLabel name .function (some ⟨params, returns⟩)).bind fun _ => hbody
  simpa [LabelKind.role] using hall

theorem tracks_node (kind : Kind) (hx : Tracks c x as) : Tracks c (node kind x) as :=
  (tracks_ask _).then fun _ => (tracks_log _).then fun _ => hx

end Gen

theorem Tree.acts_of_isEmpty {t : Tree} (inside : Bool) (h : t.isEmpty = true) :
    t.acts inside = [] := by
  cases t <;> first | rfl | cases h

/-! ### Trees -/

open Gen in
mutual

/-- **Generation does what the checker does.** -/
theorem tracks_generate (t : Tree) (u : Usage) (c : Setting) :
    (t.generate u).Tracks c (t.acts c.inside) := by
  match t with
  | .empty => exact tracks_pure ()
  | .seq items => exact tracks_generateAll items u c
  | .program body => exact tracks_node _ (tracks_generate body _ c)
  | .block body => exact tracks_node _ (tracks_block (tracks_generate body _ c))
  | .function name params returns body =>
    exact tracks_node _ (tracks_function name params returns (tracks_generate body _ _))
  | .ret value =>
    exact tracks_node _ (tracks_ret _ (tracks_generate value _ c) (Tree.acts_of_isEmpty _))
  | .declare type name => exact tracks_node _ (tracks_declare type name)
  | .declareWith type name value =>
    exact tracks_node _ (tracks_declareWith type name (tracks_generate value _ c))
  | .assign name value => exact tracks_node _ (tracks_assign name (tracks_generate value _ c))
  | .compound op name value =>
    exact tracks_node _ (tracks_compound op name (tracks_generate value _ c))
  | .step op name => exact tracks_node _ (tracks_step op name)
  | .ifThen cond body =>
    exact tracks_node _ (tracks_ifThen (tracks_generate cond _ c) (tracks_generate body _ c))
  | .ifElse cond body other =>
    exact tracks_node _ (tracks_ifElse (tracks_generate cond _ c) (tracks_generate body _ c)
      (tracks_generate other _ c))
  | .whileLoop cond body =>
    exact tracks_node _ (tracks_whileLoop (tracks_generate cond _ c) (tracks_generate body _ c))
  | .doLoop cond body =>
    exact tracks_node _ (tracks_doLoop (tracks_generate cond _ c) (tracks_generate body _ c))
  | .forLoop init cond update body =>
    exact tracks_node _ (tracks_forLoop _ (tracks_generate init _ c) (tracks_generate cond _ c)
      (tracks_generate update _ c) (tracks_generate body _ c) (Tree.acts_of_isEmpty _))
  | .call name args => exact tracks_node _ (tracks_call (tracks_generateAll args _ c))
  | .binary op lhs rhs =>
    exact tracks_node _ (tracks_binary op (tracks_generate lhs _ c) (tracks_generate rhs _ c))
  | .logical op lhs rhs =>
    exact tracks_node _ (tracks_logical op (tracks_generate lhs _ c) (tracks_generate rhs _ c))
  | .unary op operand => exact tracks_node _ (tracks_unary op (tracks_generate operand _ c))
  | .ident name => exact tracks_node _ (tracks_identifier name)
  | .lit value => exact tracks_node _ (tracks_literal value)

theorem tracks_generateAll (ts : List Tree) (u : Usage) (c : Setting) :
    (Tree.generateAll ts u).Tracks c (Tree.actsAll c.inside ts) := by
  match ts with
  | [] => exact tracks_pure ()
  | t :: rest =>
    exact (tracks_generate t u c).bind fun _ => tracks_generateAll rest u c

end

end SceneCode
