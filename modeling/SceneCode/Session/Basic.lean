import SceneCode.Machine.Code
import SceneCode.ReturnTypes
import SceneCode.Scopes.Basic
import SceneCode.Session.Event

/-!
# Sessions

A session is the state of one code generator: the code so far, the open scopes and the function
definitions in progress, under fixed options.  A computation of type `Gen α` runs in a session.
It may fail, and a failure keeps what was done before it: the session that a failed computation
leaves behind is where the next one starts.
-/

namespace SceneCode

/-- The options of a session. -/
structure Config where
  /-- Whether a function may be called before it is defined. -/
  forwardCalls : Bool := true
  /-- Whether the program ends with a halt. -/
  emitHalt : Bool := false
deriving DecidableEq, Repr

/-- The state of a code generator. -/
structure Session where
  config : Config := {}
  code : Code := {}
  scopes : Scopes := {}
  functions : ReturnTypes := {}
deriving DecidableEq, Repr

/-- What a computation leaves behind: its log, its result, and the session. -/
structure Outcome (α : Type) where
  events : List Event
  result : Except Fault α
  session : Session

/-- A computation in a session. -/
def Gen (α : Type) := Session → Outcome α

namespace Gen

/-- The computation that does nothing. -/
def pure {α : Type} (a : α) : Gen α :=
  fun s => ⟨[], .ok a, s⟩

/-- One computation after the other.  If the first fails, the second does not run. -/
def bind {α β : Type} (x : Gen α) (f : α → Gen β) : Gen β := fun s =>
  let first := x s
  match first.result with
  | .ok a =>
    let second := f a first.session
    ⟨first.events ++ second.events, second.result, second.session⟩
  | .error e => ⟨first.events, .error e, first.session⟩

instance : Monad Gen where
  pure := Gen.pure
  bind := Gen.bind

@[simp] theorem pure_apply {α : Type} (a : α) (s : Session) :
    (Pure.pure a : Gen α) s = ⟨[], .ok a, s⟩ := rfl

theorem bind_apply {α β : Type} (x : Gen α) (f : α → Gen β) (s : Session) :
    (x >>= f) s =
      match (x s).result with
      | .ok a => ⟨(x s).events ++ (f a (x s).session).events, (f a (x s).session).result,
          (f a (x s).session).session⟩
      | .error e => ⟨(x s).events, .error e, (x s).session⟩ := rfl

instance : LawfulMonad Gen := LawfulMonad.mk' Gen
  (by
    intro α x
    funext s
    simp only [Functor.map, Gen.bind, Gen.pure, Function.comp]
    cases h : (x s).result <;> simp [← h])
  (by
    intro α β a f
    funext s
    simp [bind_apply])
  (by
    intro α β γ x f g
    funext s
    simp only [bind_apply]
    cases h : (x s).result with
    | error e => rfl
    | ok a =>
      simp only
      cases h2 : (f a (x s).session).result with
      | error e => rfl
      | ok b => simp [List.append_assoc])

def fail {α : Type} (e : Fault) : Gen α :=
  fun s => ⟨[], .error e, s⟩

/-- Enter something into the log. -/
def log (e : Event) : Gen Unit :=
  fun s => ⟨[e], .ok (), s⟩

/-- Something about the session. -/
def ask {α : Type} (f : Session → α) : Gen α :=
  fun s => ⟨[], .ok (f s), s⟩

def update (f : Session → Session) : Gen Unit :=
  fun s => ⟨[], .ok (), f s⟩

/-- The result of something that may fail and changes nothing. -/
def ofExcept {α : Type} (f : Session → Except Fault α) : Gen α :=
  fun s => ⟨[], f s, s⟩

end Gen

end SceneCode
