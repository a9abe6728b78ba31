import SceneCode.Proofs.Session.Composition
import SceneCode.Proofs.Session.Growth

/-!
# The ledger of placeholders

The log of a session tells when a call is written without a target and when it gets one.  A
computation is `Balanced` if it keeps the books: whatever was deferred, before it or in it, is
either patched in it or still waits in an open scope behind it, and it defers each place once.  One
computation after the other is balanced if both are, so it is enough to look at the actions.
-/

namespace SceneCode

namespace Event

/-- The place of a call that was written without a target. -/
def deferred? : Event → Option Address
  | .forwardCall _ patchAt => some patchAt
  | _ => none

/-- The place of a call that got its target. -/
def patched? : Event → Option Address
  | .patchCall _ patchAt _ => some patchAt
  | _ => none

end Event

/-- The places of the calls that were written without a target. -/
def deferrals (events : List Event) : List Address :=
  events.filterMap Event.deferred?

/-- The places of the calls that got their targets. -/
def patches (events : List Event) : List Address :=
  events.filterMap Event.patched?

/-- The places of the calls that wait in open scopes. -/
def Scopes.places (sc : Scopes) : List Address :=
  sc.frames.flatMap fun f => f.pending.map (·.patchAt)

/-- A call that is deferred waits in the innermost scope. -/
theorem Scopes.count_places_defer (sc : Scopes) (call : PendingCall) (place : Address) :
    (sc.defer call).places.count place = [call.patchAt].count place + sc.places.count place := by
  simp only [places, frames, defer, Frame.defer, List.flatMap_cons, List.count_append,
    List.map_append, List.map_cons, List.map_nil]
  omega

namespace Gen

variable {α β : Type}

/-- What a successful run of a computation does to the ledger. -/
structure Entry (events : List Event) (s t : Session) : Prop where
  /-- What was deferred is patched or still waits. -/
  balance : ∀ place, (patches events).count place + t.scopes.places.count place =
    (deferrals events).count place + s.scopes.places.count place
  /-- Code only grows. -/
  grows : s.code.next ≤ t.code.next
  /-- A place is deferred when it is written, so later places are higher. -/
  ordered : (deferrals events).Pairwise (· < ·)
  above : ∀ place ∈ deferrals events, s.code.next ≤ place ∧ place < t.code.next

/-- Every successful run of the computation keeps the books. -/
def Balanced (x : Gen α) : Prop :=
  ∀ ⦃s a t⦄, x.Yields s a t → Entry (x s).events s t

/-! ### Ways to build computations -/

theorem Entry.trans {es fs : List Event} {s t u : Session} (h : Entry es s t) (h' : Entry fs t u) :
    Entry (es ++ fs) s u where
  balance := by
    intro place
    have h₁ := h.balance place
    have h₂ := h'.balance place
    simp only [patches, deferrals, List.filterMap_append, List.count_append] at h₁ h₂ ⊢
    omega
  grows := Nat.le_trans h.grows h'.grows
  ordered := by
    simp only [deferrals, List.filterMap_append]
    refine List.pairwise_append.mpr ⟨h.ordered, h'.ordered, ?_⟩
    intro place hplace other hother
    exact Nat.lt_of_lt_of_le (h.above place hplace).2 (h'.above other hother).1
  above := by
    intro place hplace
    simp only [deferrals, List.filterMap_append, List.mem_append] at hplace
    rcases hplace with hplace | hplace
    · have := h.above place hplace
      exact ⟨this.1, Nat.lt_of_lt_of_le this.2 h'.grows⟩
    · have := h'.above place hplace
      exact ⟨Nat.le_trans h.grows this.1, this.2⟩

/-- The log of one computation after the other, if the first succeeds. -/
theorem events_bind {x : Gen α} {f : α → Gen β} {s t : Session} {a : α} (h : x.Yields s a t) :
    ((x >>= f) s).events = (x s).events ++ (f a t).events := by
  obtain ⟨hresult, rfl⟩ := h
  rw [bind_apply, hresult]

theorem Balanced.bind {x : Gen α} {f : α → Gen β} (hx : Balanced x) (hf : ∀ a, Balanced (f a)) :
    Balanced (x >>= f) := by
  intro s b u h
  obtain ⟨a, t, hfirst, hsecond⟩ := yields_bind.mp h
  rw [events_bind hfirst]
  exact (hx hfirst).trans (hf a hsecond)

/-- A step that neither defers nor patches anything. -/
theorem Entry.quiet {events : List Event} {s t : Session} (hpatches : patches events = [])
    (hdeferrals : deferrals events = []) (hplaces : t.scopes.places = s.scopes.places)
    (hnext : s.code.next ≤ t.code.next) : Entry events s t where
  balance := by
    intro place
    rw [hpatches, hdeferrals, hplaces]
  grows := hnext
  ordered := by
    rw [hdeferrals]
    exact List.Pairwise.nil
  above := by
    intro place hplace
    rw [hdeferrals] at hplace
    cases hplace

theorem balanced_pure (a : α) : Balanced (Pure.pure a) := by
  rintro s b t ⟨-, rfl⟩
  exact .quiet rfl rfl rfl (Nat.le_refl _)

theorem balanced_fail (e : Fault) : Balanced (fail e : Gen α) := by
  rintro s a t h
  exact absurd h yields_fail

theorem balanced_ask (f : Session → α) : Balanced (ask f) := by
  rintro s a t ⟨-, rfl⟩
  exact .quiet rfl rfl rfl (Nat.le_refl _)

theorem balanced_ofExcept (f : Session → Except Fault α) : Balanced (ofExcept f) := by
  rintro s a t ⟨-, rfl⟩
  exact .quiet rfl rfl rfl (Nat.le_refl _)

theorem balanced_log {e : Event} (hdeferred : e.deferred? = none) (hpatched : e.patched? = none) :
    Balanced (log e) := by
  rintro s a t ⟨-, rfl⟩
  refine .quiet ?_ ?_ rfl (Nat.le_refl _)
  · exact List.filterMap_cons_none hpatched
  · exact List.filterMap_cons_none hdeferred

/-- A computation whose log is empty, which leaves the pending calls alone. -/
theorem balanced_of_silent {x : Gen α} (hsilent : ∀ s, (x s).events = [])
    (hx : ∀ ⦃s a t⦄, x.Yields s a t →
      t.scopes.places = s.scopes.places ∧ s.code.next ≤ t.code.next) : Balanced x := by
  intro s a t h
  rw [hsilent s]
  exact .quiet rfl rfl (hx h).1 (hx h).2

/-! ### Actions -/

theorem balanced_emit (w : Word) : Balanced (emit w) := by
  apply balanced_of_silent (fun _ => rfl)
  intro s a t h
  obtain ⟨-, rfl⟩ := yields_emit.mp h
  exact ⟨rfl, by simp⟩

theorem balanced_emitAll (ws : List Word) : Balanced (emitAll ws) := by
  induction ws with
  | nil => exact balanced_pure ()
  | cons w rest ih => exact (balanced_emit w).bind fun _ => ih

theorem events_patch (a : Address) (w : Word) (s : Session) : (patch a w s).events = [] := by
  unfold patch
  split <;> rfl

theorem balanced_patch (a : Address) (w : Word) : Balanced (patch a w) := by
  apply balanced_of_silent (events_patch a w)
  intro s b t h
  obtain ⟨-, rfl⟩ := yields_patch.mp h
  exact ⟨rfl, by simp⟩

theorem balanced_pushScope (silent : Bool) : Balanced (pushScope silent) := by
  have hpush : Balanced (update fun s => { s with scopes := s.scopes.push }) := by
    apply balanced_of_silent (fun _ => rfl)
    intro s a t h
    obtain rfl := yields_update.mp h
    exact ⟨rfl, Nat.le_refl _⟩
  refine hpush.bind fun _ => (balanced_ask _).bind fun _ => (balanced_log rfl rfl).bind fun _ => ?_
  cases silent with
  | true => exact balanced_pure ()
  | false => exact balanced_emitAll _

theorem balanced_registerLabel (name : String) (kind : LabelKind)
    (signature : Option Signature) : Balanced (registerLabel name kind signature) := by
  intro s a t h
  obtain ⟨sc, hreg, rfl⟩ := yields_registerLabel.mp h
  have hevents : (registerLabel name kind signature s).events =
      [.registerLabel name a sc.depth] := by
    unfold registerLabel
    rw [hreg]
  rw [hevents]
  refine .quiet rfl rfl ?_ (Nat.le_refl _)
  simp only [Scopes.places, Scopes.frames, Session.scopes_setScopes, List.flatMap_cons,
    Scopes.pending_of_register hreg, Scopes.outer_of_register hreg]

theorem balanced_enterFunction (type : TypeName) : Balanced (enterFunction type) := by
  apply balanced_of_silent (fun _ => rfl)
  intro s a t h
  obtain rfl := yields_enterFunction.mp h
  exact ⟨rfl, Nat.le_refl _⟩

theorem balanced_exitFunction : Balanced exitFunction := by
  apply balanced_of_silent (fun _ => rfl)
  intro s a t h
  obtain rfl := yields_exitFunction.mp h
  exact ⟨rfl, Nat.le_refl _⟩

/-! ### Settling calls -/

/-- What settling calls does to the ledger: they come from outside of the open scopes. -/
structure Settlement (calls : List PendingCall) (events : List Event) (s t : Session) : Prop where
  balance : ∀ place, (patches events).count place + t.scopes.places.count place =
    (calls.map (·.patchAt)).count place + s.scopes.places.count place
  quiet : deferrals events = []
  next : t.code.next = s.code.next

/-- Calls that were taken out of the open scopes, and settled. -/
theorem Settlement.entry {calls : List PendingCall} {events : List Event} {r s t : Session}
    (h : Settlement calls events s t) (hnext : s.code.next = r.code.next)
    (htaken : ∀ place, r.scopes.places.count place =
      (calls.map (·.patchAt)).count place + s.scopes.places.count place) : Entry events r t where
  balance := by
    intro place
    rw [h.balance, h.quiet, htaken]
    simp
  grows := Nat.le_of_eq (hnext.symm.trans h.next.symm)
  ordered := by
    rw [h.quiet]
    exact List.Pairwise.nil
  above := by
    intro place hplace
    rw [h.quiet] at hplace
    cases hplace

theorem Settlement.cons {call : PendingCall} {calls : List PendingCall} {es fs : List Event}
    {r s t : Session} (h : Settlement [call] es r s) (h' : Settlement calls fs s t) :
    Settlement (call :: calls) (es ++ fs) r t where
  balance := by
    intro place
    have h₁ := h.balance place
    have h₂ := h'.balance place
    simp only [patches, List.filterMap_append, List.count_append, List.map_cons, List.map_nil,
      List.count_cons, List.count_nil] at h₁ h₂ ⊢
    omega
  quiet := by
    have h₁ := h.quiet
    have h₂ := h'.quiet
    unfold deferrals at h₁ h₂ ⊢
    rw [List.filterMap_append, h₁, h₂, List.nil_append]
  next := h'.next.trans h.next

/-- A frame that knows a call patches it, one that does not leaves it alone. -/
theorem events_settle {frame : Frame} {call : PendingCall} {b : Bool} {s t : Session}
    (h : (settle frame call).Yields s b t) :
    deferrals (settle frame call s).events = [] ∧
      patches (settle frame call s).events = (if b then [call.patchAt] else []) ∧
      t.scopes = s.scopes ∧ t.code.next = s.code.next := by
  rcases yields_settle.mp h with ⟨hnone, rfl, rfl⟩ | ⟨label, hlabel, hkind, rfl, hlt, rfl⟩
  · have hevents : (settle frame call t).events = [] := by
      unfold settle
      rw [hnone]
      rfl
    rw [hevents]
    exact ⟨rfl, rfl, rfl, rfl⟩
  · have hlog := yields_log (e := .patchCall call.name call.patchAt label.address) (a := ())
      (s := s) (t := s) |>.mpr rfl
    have hpatch := yields_patch (a := ()) |>.mpr ⟨hlt, Eq.refl (s.replace call.patchAt
      (.addr label.address))⟩
    have hevents : (settle frame call s).events =
        [.patchCall call.name call.patchAt label.address] := by
      unfold settle
      simp only [hlabel, hkind]
      rw [events_bind hlog, events_bind hpatch, events_patch]
      rfl
    rw [hevents]
    exact ⟨rfl, rfl, rfl, by simp⟩

theorem settlement_settleInto {frame : Frame} {calls : List PendingCall} {s t : Session}
    (h : (settleInto frame calls).Yields s () t) :
    Settlement calls (settleInto frame calls s).events s t := by
  induction calls generalizing s with
  | nil =>
    obtain ⟨-, rfl⟩ := yields_pure.mp h
    exact ⟨fun _ => rfl, rfl, rfl⟩
  | cons call rest ih =>
    unfold settleInto at h ⊢
    obtain ⟨done, mid, hsettle, h⟩ := yields_bind.mp h
    rw [events_bind hsettle]
    obtain ⟨hquiet, hpatches, hscopes, hnext⟩ := events_settle hsettle
    cases done with
    | true =>
      refine .cons ⟨?_, hquiet, hnext⟩ (ih h)
      intro place
      rw [hpatches, hscopes]
      rfl
    | false =>
      simp only [Bool.false_eq_true, if_false] at h ⊢
      obtain ⟨_, next, hdefer, h⟩ := yields_bind.mp h
      rw [events_bind hdefer]
      obtain rfl := yields_update.mp hdefer
      have hsilent (f : Session → Session) : (update f mid).events = [] := rfl
      rw [hsilent, List.nil_append]
      have hfirst : Settlement [call] (settle frame call s).events s
          { mid with scopes := mid.scopes.defer call } := by
        refine ⟨?_, hquiet, hnext⟩
        intro place
        rw [hpatches, Scopes.count_places_defer, hscopes]
        simp
      exact hfirst.cons (ih h)

theorem balanced_popScope (silent : Bool) : Balanced (popScope silent) := by
  intro r a u h
  unfold popScope at h ⊢
  obtain ⟨frame, s, htake, h⟩ := yields_bind.mp h
  obtain ⟨_, t, hsettle, h⟩ := yields_bind.mp h
  have hrest : Balanced (do
      log (.popScope (← ask (·.scopes.depth)) silent)
      unless silent do
        emitAll [.op .exitScope]) := by
    refine (balanced_ask _).bind fun _ => (balanced_log rfl rfl).bind fun _ => ?_
    cases silent with
    | true => exact balanced_pure ()
    | false => exact balanced_emitAll _
  have hevents : (takeFrame r).events = [] := by
    unfold takeFrame
    split <;> rfl
  rw [events_bind htake, events_bind hsettle, hevents, List.nil_append]
  refine Entry.trans ?_ (hrest h)
  obtain ⟨next, rest, houter, rfl, rfl⟩ := yields_takeFrame.mp htake
  refine (settlement_settleInto hsettle).entry rfl ?_
  intro place
  simp [Scopes.places, Scopes.frames, houter]

/-- The place of a placeholder is written when it is deferred. -/
theorem balanced_forward (name : String) : Balanced (emitTarget name none) := by
  intro s a t h
  obtain ⟨hallowed, rfl⟩ := yields_emitTarget_none.mp h
  have hevents : (emitTarget name none s).events = [.forwardCall name s.code.next] := by
    simp [emitTarget, bind_apply, ask, hallowed, emit, log, update]
  rw [hevents]
  refine ⟨?_, by simp, by simp [deferrals, Event.deferred?], ?_⟩
  · intro place
    have hpatches : patches [.forwardCall name s.code.next] = [] := rfl
    rw [Session.scopes_setScopes, Scopes.count_places_defer, hpatches]
    simp [deferrals, Event.deferred?]
  · intro place hplace
    simp only [deferrals, Event.deferred?, List.filterMap_cons, List.filterMap_nil,
      List.mem_singleton] at hplace
    subst hplace
    simp

/-! ### Trees -/

theorem compositional_balanced : Compositional Balanced where
  pure := balanced_pure
  bind := Balanced.bind
  fail := balanced_fail
  ask := balanced_ask
  ofExcept := balanced_ofExcept
  log := fun _ _ => balanced_log rfl rfl
  emit := balanced_emit
  patch := balanced_patch
  pushScope := balanced_pushScope
  popScope := balanced_popScope
  registerLabel := balanced_registerLabel
  enterFunction := balanced_enterFunction
  exitFunction := balanced_exitFunction
  forward := balanced_forward

/-- **Every tree keeps the books.** -/
theorem balanced_generate (t : Tree) (u : Usage) : Balanced (t.generate u) :=
  compositional_balanced.generate t u

end Gen

end SceneCode
