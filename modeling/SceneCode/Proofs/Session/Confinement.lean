import SceneCode.Proofs.Appending
import SceneCode.Proofs.Session.Requests

/-!
# What generation leaves alone

Generating a tree only adds to a session, whether or not it succeeds: words go behind the code that
is there, labels and waiting calls go into the innermost scope or into scopes that were opened on
the way, and function definitions in progress stay in progress.  A tree that has its code has also
closed its scopes and ended its functions: `generation_only_adds`.

The words that are replaced on the way are targets of jumps and calls.  What bounds them is the
address where the generation starts.  So a computation is `Confined a` if it does all this without
touching a word in front of `a`, and the two ends of a scope, of a jump and of a function definition
are confined if what stands between them is.
-/

namespace SceneCode

/-! ### Sessions that keep what they had -/

/-- The frame `g` is `f` with labels, slots and pending calls added.  The places of the calls are
    not in front of `a`. -/
structure Frame.Grows (a : Address) (f g : Frame) : Prop where
  labels : f.Extends g
  slots : f.slots ≤ g.slots
  pending : ∃ calls, g.pending = f.pending ++ calls ∧ ∀ call ∈ calls, a ≤ call.patchAt

namespace Frame.Grows

variable {a : Address} {f g h : Frame}

theorem refl (a : Address) (f : Frame) : f.Grows a f where
  labels := .refl f
  slots := Nat.le_refl _
  pending := ⟨[], (List.append_nil _).symm, nofun⟩

theorem trans (hfg : f.Grows a g) (hgh : g.Grows a h) : f.Grows a h where
  labels := hfg.labels.trans hgh.labels
  slots := Nat.le_trans hfg.slots hgh.slots
  pending := by
    obtain ⟨calls, hcalls, habove⟩ := hfg.pending
    obtain ⟨more, hmore, habove'⟩ := hgh.pending
    refine ⟨calls ++ more, by rw [hmore, hcalls, List.append_assoc], ?_⟩
    intro call hcall
    rcases List.mem_append.mp hcall with hcall | hcall
    · exact habove call hcall
    · exact habove' call hcall

theorem of_register {name : String} {kind : LabelKind} {signature : Option Signature}
    {pc b : Address} (hregister : f.register name kind signature pc = .ok (b, g)) :
    f.Grows a g where
  labels := extends_of_register hregister
  slots := by
    rw [(registered_of_register hregister).slots]
    exact Nat.le_add_right ..
  pending := by
    refine ⟨[], ?_, nofun⟩
    rw [(registered_of_register hregister).pending, List.append_nil]

theorem defer {call : PendingCall} (hcall : a ≤ call.patchAt) (f : Frame) :
    f.Grows a (f.defer call) where
  labels := .refl f
  slots := Nat.le_refl _
  pending := by
    refine ⟨[call], rfl, ?_⟩
    intro other hother
    rw [List.mem_singleton.mp hother]
    exact hcall

/-- All calls that wait in a frame which was empty have been added to it. -/
theorem above (hgrows : Frame.Grows a {} g) : ∀ call ∈ g.pending, a ≤ call.patchAt := by
  obtain ⟨calls, hcalls, habove⟩ := hgrows.pending
  intro call hcall
  rw [hcalls] at hcall
  exact habove call hcall

end Frame.Grows

/-- The session `t` has everything that `s` has, but for words from `a` on.  Scopes may have been
    opened and functions may have been begun since. -/
structure Session.Spares (a : Address) (s t : Session) : Prop where
  code : t.code.toList.take a = s.code.toList.take a
  next : s.code.next ≤ t.code.next
  scopes : ∃ opened frame, t.scopes.frames = opened ++ frame :: s.scopes.outer ∧
    s.scopes.current.Grows a frame
  functions : s.functions.types <:+ t.functions.types

/-- The session `t` has everything that `s` has, but for words from `a` on, and the same scopes are
    open and the same functions in progress. -/
structure Session.Stays (a : Address) (s t : Session) : Prop where
  code : t.code.toList.take a = s.code.toList.take a
  next : s.code.next ≤ t.code.next
  outer : t.scopes.outer = s.scopes.outer
  current : s.scopes.current.Grows a t.scopes.current
  functions : t.functions = s.functions

namespace Session.Stays

variable {a : Address} {s t u : Session}

theorem refl (a : Address) (s : Session) : s.Stays a s :=
  ⟨rfl, Nat.le_refl _, rfl, .refl a _, rfl⟩

theorem trans (hst : s.Stays a t) (htu : t.Stays a u) : s.Stays a u where
  code := htu.code.trans hst.code
  next := Nat.le_trans hst.next htu.next
  outer := htu.outer.trans hst.outer
  current := hst.current.trans htu.current
  functions := htu.functions.trans hst.functions

theorem before (hst : s.Stays a t) (htu : t.Spares a u) : s.Spares a u where
  code := htu.code.trans hst.code
  next := Nat.le_trans hst.next htu.next
  scopes := by
    obtain ⟨opened, frame, hframes, hgrows⟩ := htu.scopes
    rw [hst.outer] at hframes
    exact ⟨opened, frame, hframes, hst.current.trans hgrows⟩
  functions := by
    have hfunctions := htu.functions
    rwa [hst.functions] at hfunctions

theorem spares (hst : s.Stays a t) : s.Spares a t where
  code := hst.code
  next := hst.next
  scopes := ⟨[], t.scopes.current, by rw [← hst.outer]; rfl, hst.current⟩
  functions := by simp only [hst.functions, List.suffix_refl]

theorem write (hs : a ≤ s.code.next) (ws : List Word) : s.Stays a (s.write ws) where
  code := by
    rw [toList_write]
    exact List.take_append_of_le_length (by rwa [Code.length_toList])
  next := by
    rw [next_write]
    exact Nat.le_add_right ..
  outer := rfl
  current := .refl a _
  functions := rfl

theorem replace {b : Nat} (hb : a ≤ b) (s : Session) (w : Word) : s.Stays a (s.replace b w) where
  code := by
    rw [toList_replace]
    exact List.take_set_of_le hb
  next := Nat.le_of_eq (next_replace s b w).symm
  outer := rfl
  current := .refl a _
  functions := rfl

end Session.Stays

/-! ### Confined computations -/

namespace Gen

variable {α β : Type} {a : Address} {r s t : Session}

/-- Started in `s`, the computation keeps what the session `r` had.  If it succeeds, no other scopes
    are open than in `r`. -/
structure Keeps (a : Address) (r : Session) (x : Gen α) (s : Session) : Prop where
  ok : ∀ v t, x.Yields s v t → r.Stays a t
  error : ∀ e, (x s).result = .error e → r.Spares a (x s).session

theorem Keeps.spares {x : Gen α} (h : x.Keeps a r s) : r.Spares a (x s).session := by
  cases hresult : (x s).result with
  | ok v => exact (h.ok v _ ⟨hresult, rfl⟩).spares
  | error e => exact h.error e hresult

theorem keeps_bind {x : Gen α} {f : α → Gen β}
    (herror : ∀ e, (x s).result = .error e → r.Spares a (x s).session)
    (hok : ∀ v t, x.Yields s v t → (f v).Keeps a r t) : (x >>= f).Keeps a r s where
  ok := by
    intro w u hyields
    obtain ⟨v, t, hfirst, hsecond⟩ := yields_bind.mp hyields
    exact (hok v t hfirst).ok w u hsecond
  error := by
    intro e hresult
    rw [bind_apply] at hresult ⊢
    cases hfirst : (x s).result with
    | error e' => exact herror e' hfirst
    | ok v =>
      rw [hfirst] at hresult
      exact (hok v _ ⟨hfirst, rfl⟩).error e hresult

/-- Behind a step that succeeds. -/
theorem Keeps.after {x : Gen α} {f : α → Gen β} {v : α} (hx : x.Yields s v t)
    (hf : (f v).Keeps a r t) : (x >>= f).Keeps a r s := by
  apply keeps_bind
  · intro e hresult
    rw [hx.1] at hresult
    cases hresult
  · intro w u hyields
    cases hx.1.symm.trans hyields.1
    rw [← hyields.2, hx.2]
    exact hf

/-- The computation leaves alone the words in front of `a`, the frames around the innermost scope
    and what the innermost one has.  If it succeeds, it has closed what it opened. -/
def Confined (a : Address) (x : Gen α) : Prop :=
  ∀ s : Session, a ≤ s.code.next → x.Keeps a s s

theorem Confined.keeps {x : Gen α} (hx : Confined a x) (hr : a ≤ r.code.next)
    (hrs : r.Stays a s) : x.Keeps a r s := by
  have hkeeps := hx s (Nat.le_trans hr hrs.next)
  constructor
  · intro v t hyields
    exact hrs.trans (hkeeps.ok v t hyields)
  · intro e hresult
    exact hrs.before (hkeeps.error e hresult)

theorem Confined.bind {x : Gen α} {f : α → Gen β} (hx : Confined a x)
    (hf : ∀ v, Confined a (f v)) : Confined a (x >>= f) := by
  intro s hs
  apply keeps_bind
  · exact (hx s hs).error
  · intro v t hyields
    exact (hf v).keeps hs ((hx s hs).ok v t hyields)

/-- A step that opens and closes nothing, also where it fails. -/
theorem confined_of_stays {x : Gen α}
    (hx : ∀ s : Session, a ≤ s.code.next → s.Stays a (x s).session) : Confined a x := by
  intro s hs
  constructor
  · rintro v t ⟨-, rfl⟩
    exact hx s hs
  · intro e _
    exact (hx s hs).spares

theorem confined_of_unchanged {x : Gen α} (hx : ∀ s, (x s).session = s) : Confined a x := by
  apply confined_of_stays
  intro s _
  rw [hx s]
  exact .refl a s

theorem confined_pure (v : α) : Confined a (Pure.pure v : Gen α) :=
  confined_of_unchanged fun _ => rfl

theorem confined_fail (e : Fault) : Confined a (fail e : Gen α) :=
  confined_of_unchanged fun _ => rfl

theorem confined_ask (f : Session → α) : Confined a (ask f) :=
  confined_of_unchanged fun _ => rfl

theorem confined_log (e : Event) : Confined a (log e) :=
  confined_of_unchanged fun _ => rfl

/-- The address of a new word is not in front of `a`. -/
theorem confined_emit_bind (w : Word) {f : Address → Gen α} (hf : ∀ b, a ≤ b → Confined a (f b)) :
    Confined a (emit w >>= f) := by
  intro s hs
  have hemit : (emit w).Yields s s.code.next (s.write [w]) := yields_emit.mpr ⟨rfl, rfl⟩
  exact .after hemit ((hf s.code.next hs).keeps hs (.write hs [w]))

theorem confined_emit (w : Word) : Confined a (emit w) := by
  rw [← bind_pure (emit w)]
  exact confined_emit_bind w fun b _ => confined_pure b

theorem confined_emitAll (ws : List Word) : Confined a (emitAll ws) := by
  induction ws with
  | nil => exact confined_pure ()
  | cons w rest ih => exact (confined_emit w).bind fun _ => ih

theorem confined_patch {b : Address} (hb : a ≤ b) (w : Word) : Confined a (patch b w) := by
  intro s hs
  constructor
  · intro v t hyields
    obtain ⟨-, rfl⟩ := yields_patch.mp hyields
    exact .replace hb s w
  · intro e hresult
    have hsame : (patch b w s).session = s := by
      unfold patch at hresult ⊢
      split at hresult
      · cases hresult
      · simp_all
    rw [hsame]
    exact (Session.Stays.refl a s).spares

theorem confined_jump (op : Opcode) {f : Address → Gen α}
    (hf : ∀ hole, Confined a (land hole) → Confined a (f hole)) :
    Confined a (emitJump op >>= f) := by
  unfold emitJump
  rw [bind_assoc]
  refine (confined_emit _).bind fun _ => confined_emit_bind _ fun hole hhole => hf hole ?_
  exact (confined_ask _).bind fun _ => confined_patch hhole _

theorem confined_registerLabel (name : String) (kind : LabelKind)
    (signature : Option Signature) : Confined a (registerLabel name kind signature) := by
  apply confined_of_stays
  intro s _
  unfold registerLabel
  split
  · rename_i b scopes hregister
    obtain ⟨hframe, houter⟩ := Scopes.frame_of_register hregister
    exact ⟨rfl, Nat.le_refl _, houter, .of_register hframe, rfl⟩
  · exact .refl a s

theorem confined_defer {call : PendingCall} (hcall : a ≤ call.patchAt) :
    Confined a (update fun s => { s with scopes := s.scopes.defer call }) := by
  apply confined_of_stays
  intro s _
  exact ⟨rfl, Nat.le_refl _, rfl, .defer hcall _, rfl⟩

theorem confined_forward (name : String) : Confined a (emitTarget name none) := by
  refine (confined_ask _).bind fun allowed => ?_
  by_cases hallowed : allowed = true
  · rw [if_pos hallowed]
    exact confined_emit_bind _ fun place hplace => (confined_log _).bind fun _ =>
      confined_defer hplace
  · rw [if_neg hallowed]
    exact confined_fail _

/-! ### Scopes and functions in progress -/

theorem confined_settle (frame : Frame) {call : PendingCall} (hcall : a ≤ call.patchAt) :
    Confined a (settle frame call) := by
  unfold settle
  split
  · split
    · exact (confined_log _).bind fun _ => (confined_patch hcall _).bind fun _ => confined_pure _
    · exact confined_fail _
  · exact confined_pure _

theorem confined_settleInto (frame : Frame) {calls : List PendingCall}
    (hcalls : ∀ call ∈ calls, a ≤ call.patchAt) : Confined a (settleInto frame calls) := by
  induction calls with
  | nil => exact confined_pure ()
  | cons call rest ih =>
    have hcall := hcalls call (List.mem_cons_self ..)
    have hrest := ih fun other hother => hcalls other (List.mem_cons_of_mem _ hother)
    refine (confined_settle frame hcall).bind fun settled => ?_
    cases settled with
    | true => exact hrest
    | false => exact (confined_defer hcall).bind fun _ => hrest

/-- The scope that is closed was opened around the frames of `r`, and only places from `a` on wait
    in it. -/
theorem keeps_popScope (silent : Bool) (hr : a ≤ r.code.next)
    (houter : s.scopes.outer = r.scopes.frames)
    (habove : ∀ call ∈ s.scopes.current.pending, a ≤ call.patchAt)
    (hrs : r.Stays a (s.setScopes r.scopes)) : (popScope silent).Keeps a r s := by
  have htake : takeFrame.Yields s s.scopes.current (s.setScopes r.scopes) :=
    yields_takeFrame.mpr ⟨_, _, houter, rfl, rfl⟩
  refine .after htake (Confined.keeps ?_ hr hrs)
  refine (confined_settleInto _ habove).bind fun _ => (confined_ask _).bind fun _ =>
    (confined_log _).bind fun _ => ?_
  cases silent with
  | true => exact confined_pure ()
  | false => exact confined_emitAll _

theorem confined_scope (silent : Bool) {x : Gen Unit} (hx : Confined a x) :
    Confined a (do pushScope silent; x; popScope silent) := by
  intro r hr
  have hpush : (pushScope silent).Yields r () _ := yields_pushScope.mpr rfl
  have hopen : a ≤ (r.setScopes r.scopes.push).code.next := hr
  have hkeeps := hx.keeps hopen (.write hopen (enterWords silent))
  refine .after hpush (keeps_bind ?_ ?_)
  · -- the scope is still open, and so are all scopes inside it
    intro e hresult
    have hspares := hkeeps.error e hresult
    obtain ⟨opened, frame, hframes, -⟩ := hspares.scopes
    refine ⟨hspares.code, hspares.next, ⟨opened ++ [frame], r.scopes.current, ?_, .refl a _⟩,
      hspares.functions⟩
    rw [hframes, List.append_assoc]
    rfl
  · intro _ t hyields
    have hstays := hkeeps.ok _ t hyields
    exact keeps_popScope silent hr hstays.outer hstays.current.above
      ⟨hstays.code, hstays.next, rfl, .refl a _, hstays.functions⟩

theorem confined_definition (type : TypeName) {x : Gen Unit} (hx : Confined a x) :
    Confined a (do enterFunction type; x; exitFunction) := by
  intro r hr
  have henter : (enterFunction type).Yields r () _ := yields_enterFunction.mpr rfl
  have hkeeps := hx { r with functions := r.functions.enter type } hr
  refine .after henter (keeps_bind ?_ ?_)
  · -- the function is still in progress, above those of `r`
    intro e hresult
    have hspares := hkeeps.error e hresult
    exact ⟨hspares.code, hspares.next, hspares.scopes,
      (List.suffix_cons _ _).trans hspares.functions⟩
  · intro _ t hyields
    have hstays := hkeeps.ok _ t hyields
    have hexit : t.functions.exit.2 = r.functions := by
      rw [hstays.functions]
      rfl
    constructor
    · intro _ u hlast
      obtain rfl := yields_exitFunction.mp hlast
      exact ⟨hstays.code, hstays.next, hstays.outer, hstays.current, hexit⟩
    · intro e hresult
      cases hresult

/-! ### Trees -/

theorem structured_confined (a : Address) : Structured (Confined a) where
  pure := confined_pure
  bind := Confined.bind
  fail := confined_fail
  ask := confined_ask
  ofExcept := fun _ => confined_of_unchanged fun _ => rfl
  log := fun _ _ => confined_log _
  emit := confined_emit
  registerLabel := confined_registerLabel
  forward := confined_forward
  jump := confined_jump
  scope := confined_scope
  definition := confined_definition

end Gen

theorem keeps_generate (tree : Tree) (usage : Usage) (s : Session) :
    (tree.generate usage).Keeps s.code.next s s :=
  (Gen.structured_confined s.code.next).generate tree usage s (Nat.le_refl _)

theorem Session.Spares.isPrefix_code {s t : Session} (h : s.Spares s.code.next t) :
    s.code.toList <+: t.code.toList := by
  have hcode := h.code
  rw [← Code.length_toList, List.take_length] at hcode
  exact List.prefix_iff_eq_take.mpr hcode.symm

theorem Session.Spares.depth_le {a : Address} {s t : Session} (h : s.Spares a t) :
    s.scopes.depth ≤ t.scopes.depth := by
  obtain ⟨opened, frame, hframes, -⟩ := h.scopes
  have hlength := congrArg List.length hframes
  simp only [Scopes.frames, List.length_cons, List.length_append] at hlength
  simp only [Scopes.depth]
  omega

/-- **Generation only adds to a session**, whether or not it succeeds.  The words that were there
    stay, and so do the frames around the innermost scope.  The innermost scope keeps its labels,
    gives no slot back, and gets calls only for words that were written since.  A tree that has its
    code leaves the same scopes open and the same functions in progress. -/
theorem generation_only_adds (s : Session) (tree : Tree) (usage : Usage) :
    let t := (tree.generate usage s).session
    s.code.toList <+: t.code.toList ∧ s.code.next ≤ t.code.next ∧
      (∃ opened frame, t.scopes.frames = opened ++ frame :: s.scopes.outer ∧
        (∀ name label, s.scopes.current.get? name = some label →
          frame.get? name = some label) ∧
        s.scopes.current.slots ≤ frame.slots ∧
        ∃ calls, frame.pending = s.scopes.current.pending ++ calls ∧
          ∀ call ∈ calls, s.code.next ≤ call.patchAt) ∧
      s.functions.types <:+ t.functions.types ∧
      s.scopes.depth ≤ t.scopes.depth ∧
      ((tree.generate usage s).result = .ok () →
        t.scopes.depth = s.scopes.depth ∧ t.functions = s.functions) := by
  intro t
  have hkeeps := keeps_generate tree usage s
  have hspares := hkeeps.spares
  obtain ⟨opened, frame, hframes, hgrows⟩ := hspares.scopes
  refine ⟨hspares.isPrefix_code, hspares.next, ⟨opened, frame, hframes, hgrows.labels,
    hgrows.slots, hgrows.pending⟩, hspares.functions, hspares.depth_le, ?_⟩
  intro hresult
  have hstays := hkeeps.ok () t ⟨hresult, rfl⟩
  exact ⟨congrArg List.length hstays.outer, hstays.functions⟩

/-- A session in which a call waits. -/
def Session.calling : Session where
  code := ⟨#[.op .call, .addr 0, .int 0, .op .pop]⟩
  scopes := ⟨{ pending := [⟨"f", 1⟩] }, []⟩

/-- A function in a block, with another call that waits. -/
def Tree.calling (rest : List Tree) : Tree :=
  .block (.function "g" [] .void (.seq (.call "f" [] :: rest)))

/-- A name that is not there makes generation fail inside of the function, where two more scopes are
    open.  Without it both are closed again. -/
theorem generation_only_adds_calling :
    ((Tree.calling [.ident "x"]).generate .discard .calling).result = .error (.unresolved "x") ∧
      Session.calling.code.toList <+:
        ((Tree.calling [.ident "x"]).generate .discard .calling).session.code.toList ∧
      ((Tree.calling [.ident "x"]).generate .discard .calling).session.scopes.depth = 2 ∧
      ((Tree.calling []).generate .discard .calling).result = .ok () ∧
      ((Tree.calling []).generate .discard .calling).session.scopes.depth = 0 := by
  obtain ⟨hcode, -⟩ := generation_only_adds .calling (.calling [.ident "x"]) .discard
  obtain ⟨-, -, -, -, -, hdone⟩ := generation_only_adds .calling (.calling []) .discard
  have hresult : ((Tree.calling []).generate .discard .calling).result = .ok () := rfl
  exact ⟨rfl, hcode, rfl, hresult, (hdone hresult).1⟩

end SceneCode
