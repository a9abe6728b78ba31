import SceneCode.Proofs.Session.Composition
import SceneCode.Proofs.Session.Success

/-!
# What can be asked of a session

A session takes requests one after the other, in any order.  A request that fails leaves behind what
it did before, and the next one starts there.  So a property holds in every session that requests
lead to if it holds at the start and every request keeps it, also where the request fails
(`Session.Reachable.holds`).

For the generation of a tree it is enough that the actions keep the property
(`Gen.Preserves.compositional`).
-/

namespace SceneCode

/-- Something that can be asked of a session. -/
inductive Request where
  | emit (w : Word)
  | patch (a : Address) (w : Word)
  | pushScope (silent : Bool)
  | popScope (silent : Bool)
  | registerLabel (name : String) (kind : LabelKind) (signature : Option Signature)
  | enterFunction (type : TypeName)
  | exitFunction
  | generate (tree : Tree) (usage : Usage)
  | compile (tree : Tree)
  | reset

/-- The session that a request leaves behind, whether or not it succeeds. -/
def Request.after (s : Session) : Request → Session
  | .emit w => (Gen.emit w s).session
  | .patch a w => (Gen.patch a w s).session
  | .pushScope silent => (Gen.pushScope silent s).session
  | .popScope silent => (Gen.popScope silent s).session
  | .registerLabel name kind signature => (Gen.registerLabel name kind signature s).session
  | .enterFunction type => (Gen.enterFunction type s).session
  | .exitFunction => (Gen.exitFunction s).session
  | .generate tree usage => (tree.generate usage s).session
  | .compile tree => (Gen.compile tree s).session
  | .reset => (Gen.reset s).session

/-- The sessions that requests lead to, from a new session with the given options. -/
inductive Session.Reachable (config : Config) : Session → Prop where
  | new : Reachable config { config }
  | after {s : Session} (h : Reachable config s) (r : Request) : Reachable config (r.after s)

theorem Session.Reachable.afterAll {config : Config} {s : Session} (h : Reachable config s)
    (rs : List Request) : Reachable config (rs.foldl Request.after s) := by
  induction rs generalizing s with
  | nil => exact h
  | cons r rest ih => exact ih (h.after r)

/-- **What holds at the start and is kept by every request holds in every reachable session.** -/
theorem Session.Reachable.holds {P : Session → Prop} {config : Config} {s : Session}
    (h : Reachable config s) (hnew : P { config })
    (hkeeps : ∀ (s : Session) (r : Request), P s → P (r.after s)) : P s := by
  induction h with
  | new => exact hnew
  | after _ r ih => exact hkeeps _ r ih

namespace Gen

variable {α β : Type} {P : Session → Prop}

/-- What one computation after the other leaves behind: what the first does if it fails, else what
    the second does. -/
theorem session_bind {x : Gen α} {f : α → Gen β} {s : Session}
    (herror : ∀ e, (x s).result = .error e → P (x s).session)
    (hok : ∀ a t, x.Yields s a t → P (f a t).session) : P ((x >>= f) s).session := by
  rw [bind_apply]
  cases hresult : (x s).result with
  | error e => exact herror e hresult
  | ok a => exact hok a _ ⟨hresult, rfl⟩

/-- The computation keeps a property of the session, also if it fails. -/
def Preserves (P : Session → Prop) (x : Gen α) : Prop :=
  ∀ s, P s → P (x s).session

namespace Preserves

theorem bind {x : Gen α} {f : α → Gen β} (hx : Preserves P x) (hf : ∀ a, Preserves P (f a)) :
    Preserves P (x >>= f) := by
  intro s hs
  apply session_bind
  · intro e _
    exact hx s hs
  · rintro a t ⟨-, rfl⟩
    exact hf a _ (hx s hs)

theorem pure (a : α) : Preserves P (Pure.pure a : Gen α) :=
  fun _ hs => hs

theorem fail (e : Fault) : Preserves P (fail e : Gen α) :=
  fun _ hs => hs

theorem ask (f : Session → α) : Preserves P (ask f) :=
  fun _ hs => hs

theorem ofExcept (f : Session → Except Fault α) : Preserves P (ofExcept f) :=
  fun _ hs => hs

theorem log (e : Event) : Preserves P (log e) :=
  fun _ hs => hs

theorem emitAll (hemit : ∀ w, Preserves P (emit w)) (ws : List Word) :
    Preserves P (emitAll ws) := by
  induction ws with
  | nil => exact .pure ()
  | cons w rest ih => exact (hemit w).bind fun _ => ih

theorem settle (hpatch : ∀ a w, Preserves P (patch a w)) (frame : Frame) (call : PendingCall) :
    Preserves P (settle frame call) := by
  unfold Gen.settle
  split
  · split
    · exact (log _).bind fun _ => (hpatch _ _).bind fun _ => .pure _
    · exact .fail _
  · exact .pure _

theorem settleAll (hpatch : ∀ a w, Preserves P (patch a w)) (calls : List PendingCall) :
    Preserves P (settleAll calls) := by
  induction calls with
  | nil => exact .pure ()
  | cons call rest ih =>
    refine (ask _).bind fun frame => (settle hpatch frame call).bind fun settled => ?_
    cases settled with
    | true => exact ih
    | false => exact (fail _).bind fun _ => ih

theorem entryPoint (name : String) : Preserves P (entryPoint name) := by
  refine (ask _).bind fun r => ?_
  split
  · exact .pure _
  · split
    · exact (log _).bind fun _ => .pure _
    · exact (log _).bind fun _ => .pure _

/-- What is done when the tree of a program has its code. -/
theorem completion (hpatch : ∀ a w, Preserves P (patch a w)) (hemit : ∀ w, Preserves P (emit w))
    (htake : Preserves P takeCode) (calls : List PendingCall) :
    Preserves P (do
      Gen.settleAll calls
      if ← Gen.ask (·.config.emitHalt) then
        Gen.emitAll [.op .halt]
      let init ← Gen.entryPoint "init"
      let render ← Gen.entryPoint "render"
      Gen.log (.compiled (← here) init render)
      return Program.mk (← takeCode) init render) := by
  have hrest := (entryPoint (P := P) "init").bind fun init =>
    (entryPoint "render").bind fun render => (ask (·.code.next)).bind fun words =>
      (log (.compiled words init render)).bind fun _ => htake.bind fun code =>
        .pure (Program.mk code init render)
  refine (settleAll hpatch calls).bind fun _ => (ask _).bind fun halts => ?_
  cases halts with
  | true => exact (emitAll hemit _).bind fun _ => hrest
  | false => exact hrest

/-- Actions that keep a property. -/
theorem compositional (emit : ∀ w, Preserves P (emit w)) (patch : ∀ a w, Preserves P (patch a w))
    (pushScope : ∀ silent, Preserves P (pushScope silent))
    (popScope : ∀ silent, Preserves P (popScope silent))
    (registerLabel : ∀ name kind signature, Preserves P (registerLabel name kind signature))
    (enterFunction : ∀ type, Preserves P (enterFunction type))
    (exitFunction : Preserves P exitFunction)
    (forward : ∀ name, Preserves P (emitTarget name none)) : Compositional (Preserves P) where
  pure := pure
  bind := bind
  fail := fail
  ask := ask
  ofExcept := ofExcept
  log := fun _ _ => log _
  emit := emit
  patch := patch
  pushScope := pushScope
  popScope := popScope
  registerLabel := registerLabel
  enterFunction := enterFunction
  exitFunction := exitFunction
  forward := forward

end Preserves

end Gen

end SceneCode
