import SceneCode.Session.Compile

/-!
# Computations that succeed

`x.Yields s a t` says that the computation `x`, started in the session `s`, succeeds with the
result `a` and leaves the session `t` behind.  Every action of a session is characterised once by
such a statement, always in both directions, and a computation built from actions is taken apart
with `yields_bind`.  After this file nobody unfolds an action.
-/

namespace SceneCode

/-! ### Sessions with other code -/

namespace Session

def write (s : Session) (ws : List Word) : Session :=
  { s with code := ⟨s.code.words ++ ws.toArray⟩ }

def replace (s : Session) (a : Address) (w : Word) : Session :=
  { s with code := ⟨s.code.words.setIfInBounds a w⟩ }

def setScopes (s : Session) (scopes : Scopes) : Session :=
  { s with scopes }

@[simp] theorem scopes_setScopes (s : Session) (scopes : Scopes) :
    (s.setScopes scopes).scopes = scopes := rfl

@[simp] theorem code_setScopes (s : Session) (scopes : Scopes) :
    (s.setScopes scopes).code = s.code := rfl

@[simp] theorem functions_setScopes (s : Session) (scopes : Scopes) :
    (s.setScopes scopes).functions = s.functions := rfl

@[simp] theorem config_setScopes (s : Session) (scopes : Scopes) :
    (s.setScopes scopes).config = s.config := rfl

@[simp] theorem toList_write (s : Session) (ws : List Word) :
    (s.write ws).code.toList = s.code.toList ++ ws := by
  simp [write, Code.toList]

@[simp] theorem toList_replace (s : Session) (a : Nat) (w : Word) :
    (s.replace a w).code.toList = s.code.toList.set a w := by
  simp [replace, Code.toList]

@[simp] theorem next_write (s : Session) (ws : List Word) :
    (s.write ws).code.next = s.code.next + ws.length := by
  simp [write, Code.next]

@[simp] theorem next_replace (s : Session) (a : Nat) (w : Word) :
    (s.replace a w).code.next = s.code.next := by
  simp [replace, Code.next]

@[simp] theorem scopes_write (s : Session) (ws : List Word) :
    (s.write ws).scopes = s.scopes := rfl

@[simp] theorem scopes_replace (s : Session) (a : Nat) (w : Word) :
    (s.replace a w).scopes = s.scopes := rfl

@[simp] theorem functions_write (s : Session) (ws : List Word) :
    (s.write ws).functions = s.functions := rfl

@[simp] theorem functions_replace (s : Session) (a : Nat) (w : Word) :
    (s.replace a w).functions = s.functions := rfl

@[simp] theorem config_write (s : Session) (ws : List Word) :
    (s.write ws).config = s.config := rfl

@[simp] theorem config_replace (s : Session) (a : Nat) (w : Word) :
    (s.replace a w).config = s.config := rfl

@[simp] theorem write_nil (s : Session) : s.write [] = s := by
  simp [write]

@[simp] theorem write_write (s : Session) (ws vs : List Word) :
    (s.write ws).write vs = s.write (ws ++ vs) := by
  simp [write]

end Session

namespace Gen

variable {α β : Type}

/-- The computation succeeds in `s` with the result `a` and leaves `t` behind. -/
def Yields (x : Gen α) (s : Session) (a : α) (t : Session) : Prop :=
  (x s).result = .ok a ∧ (x s).session = t

/-! ### Ways to build computations -/

theorem yields_bind {x : Gen α} {f : α → Gen β} {s u : Session} {b : β} :
    (x >>= f).Yields s b u ↔ ∃ a t, x.Yields s a t ∧ (f a).Yields t b u := by
  simp only [Yields, bind_apply]
  rcases hx : (x s).result with e | a
  · simp
  · constructor
    · intro h
      exact ⟨a, _, ⟨rfl, rfl⟩, h⟩
    · rintro ⟨a', t, ⟨ha, rfl⟩, h⟩
      cases ha
      exact h

@[simp] theorem yields_pure {a b : α} {s t : Session} :
    (Pure.pure a : Gen α).Yields s b t ↔ b = a ∧ t = s := by
  simp [Yields, eq_comm]

@[simp] theorem yields_fail {e : Fault} {a : α} {s t : Session} :
    ¬ (fail e : Gen α).Yields s a t := by
  simp [Yields, fail]

@[simp] theorem yields_log {e : Event} {a : Unit} {s t : Session} :
    (log e).Yields s a t ↔ t = s := by
  simp [Yields, log, eq_comm]

@[simp] theorem yields_ask {f : Session → α} {a : α} {s t : Session} :
    (ask f).Yields s a t ↔ a = f s ∧ t = s := by
  simp [Yields, ask, eq_comm]

@[simp] theorem yields_update {f : Session → Session} {a : Unit} {s t : Session} :
    (update f).Yields s a t ↔ t = f s := by
  simp [Yields, update, eq_comm]

@[simp] theorem yields_ofExcept {f : Session → Except Fault α} {a : α} {s t : Session} :
    (ofExcept f).Yields s a t ↔ f s = .ok a ∧ t = s := by
  simp [Yields, ofExcept, eq_comm]

/-- A computation behind a log entry. -/
@[simp] theorem yields_node {kind : Kind} {x : Gen Unit} {a : Unit} {s t : Session} :
    (node kind x).Yields s a t ↔ x.Yields s a t := by
  simp [node, yields_bind, and_assoc]

/-! ### Code -/

@[simp] theorem yields_emit {w : Word} {a : Address} {s t : Session} :
    (emit w).Yields s a t ↔ a = s.code.next ∧ t = s.write [w] := by
  simp [Yields, emit, Session.write, Code.emit, eq_comm]

@[simp] theorem yields_emitAll {ws : List Word} {a : Unit} {s t : Session} :
    (emitAll ws).Yields s a t ↔ t = s.write ws := by
  induction ws generalizing s with
  | nil => simp [emitAll]
  | cons w rest ih => simp [emitAll, yields_bind, ih, and_assoc]

@[simp] theorem yields_here {a : Address} {s t : Session} :
    here.Yields s a t ↔ a = s.code.next ∧ t = s := by
  simp [here]

@[simp] theorem yields_patch {p : Nat} {w : Word} {a : Unit} {s t : Session} :
    (patch p w).Yields s a t ↔ p < s.code.next ∧ t = s.replace p w := by
  unfold Yields patch Code.patch
  by_cases h : p < s.code.words.size
  · simp [h, Code.next, Session.replace, Array.setIfInBounds, eq_comm]
  · simp [h, Code.next]

@[simp] theorem yields_emitJump {op : Opcode} {a : Address} {s t : Session} :
    (emitJump op).Yields s a t ↔
      a = s.code.next + 1 ∧ t = s.write [.op op, Code.placeholder] := by
  simp [emitJump, yields_bind, and_assoc]

@[simp] theorem yields_land {hole : Nat} {a : Unit} {s t : Session} :
    (land hole).Yields s a t ↔
      hole < s.code.next ∧ t = s.replace hole (.addr s.code.next) := by
  simp [land, yields_bind, and_assoc]

/-! ### Scopes and labels -/

/-- The word that opens a scope, unless the machine is not told. -/
def enterWords (silent : Bool) : List Word :=
  if silent then [] else [.op .enterScope]

/-- The word that closes a scope, unless the machine is not told. -/
def exitWords (silent : Bool) : List Word :=
  if silent then [] else [.op .exitScope]

@[simp] theorem yields_pushScope {silent : Bool} {a : Unit} {s t : Session} :
    (pushScope silent).Yields s a t ↔
      t = (s.setScopes s.scopes.push).write (enterWords silent) := by
  cases silent <;>
    simp [pushScope, yields_bind, and_assoc, Session.setScopes, enterWords]

/-- Only a scope that has another one around it can be closed. -/
theorem yields_takeFrame {frame : Frame} {s t : Session} :
    takeFrame.Yields s frame t ↔
      ∃ next rest, s.scopes.outer = next :: rest ∧ frame = s.scopes.current ∧
        t = s.setScopes ⟨next, rest⟩ := by
  unfold Yields takeFrame Scopes.pop
  rcases hout : s.scopes.outer with _ | ⟨next, rest⟩
  · simp
  · constructor
    · rintro ⟨hframe, rfl⟩
      exact ⟨next, rest, rfl, (Except.ok.inj hframe).symm, rfl⟩
    · rintro ⟨_, _, hcons, rfl, rfl⟩
      cases hcons
      exact ⟨rfl, rfl⟩

theorem yields_registerLabel {name : String} {kind : LabelKind} {signature : Option Signature}
    {a : Address} {s t : Session} :
    (registerLabel name kind signature).Yields s a t ↔
      ∃ scopes, s.scopes.register name kind signature s.code.next = .ok (a, scopes) ∧
        t = s.setScopes scopes := by
  unfold Yields registerLabel
  rcases hreg : s.scopes.register name kind signature s.code.next with e | ⟨b, scopes⟩
  · simp
  · constructor
    · rintro ⟨ha, rfl⟩
      cases ha
      exact ⟨scopes, rfl, rfl⟩
    · rintro ⟨_, hok, rfl⟩
      cases hok
      exact ⟨rfl, rfl⟩

/-- A call is settled by a frame that has its name for a function, and only then written to. -/
theorem yields_settle {frame : Frame} {call : PendingCall} {b : Bool} {s t : Session} :
    (settle frame call).Yields s b t ↔
      (frame.get? call.name = none ∧ b = false ∧ t = s) ∨
      (∃ label, frame.get? call.name = some label ∧ label.kind = .function ∧ b = true ∧
        call.patchAt < s.code.next ∧ t = s.replace call.patchAt (.addr label.address)) := by
  unfold settle
  rcases hget : frame.get? call.name with _ | ⟨address, kind, signature⟩
  · simp
  · cases kind with
    | function =>
      simp only [yields_bind, yields_log, yields_patch, yields_pure, reduceCtorEq, false_and,
        false_or, Option.some.injEq]
      constructor
      · rintro ⟨_, _, rfl, _, _, ⟨hlt, rfl⟩, rfl, rfl⟩
        exact ⟨_, rfl, rfl, rfl, hlt, rfl⟩
      · rintro ⟨_, rfl, _, rfl, hlt, rfl⟩
        exact ⟨(), s, rfl, (), _, ⟨hlt, rfl⟩, rfl, rfl⟩
    | «variable» type => simp

end Gen

/-! ### Names -/

namespace Scopes

/-- The depth and the slot of the variable that a name stands for. -/
def locate? (sc : Scopes) (name : String) : Option (Nat × Nat) :=
  match sc.find? name with
  | some ⟨⟨slot, .variable _, _⟩, depth⟩ => some (depth, slot)
  | _ => none

def function? (sc : Scopes) (name : String) : Option Address :=
  match sc.find? name with
  | some ⟨⟨address, .function, _⟩, _⟩ => some address
  | _ => none

end Scopes

namespace Gen

@[simp] theorem yields_variableAddress {name : String} {a : Nat × Nat} {s t : Session} :
    (variableAddress name).Yields s a t ↔ s.scopes.locate? name = some a ∧ t = s := by
  simp only [variableAddress, yields_bind, yields_ofExcept, and_assoc, Scopes.lookup,
    Scopes.locate?]
  rcases hfind : s.scopes.find? name with _ | ⟨⟨slot, kind, signature⟩, depth⟩
  · simp
  · cases kind <;> simp [eq_comm]

@[simp] theorem yields_loadVariable {name : String} {a : Unit} {s t : Session} :
    (loadVariable name).Yields s a t ↔
      ∃ depth slot, s.scopes.locate? name = some (depth, slot) ∧
        t = s.write [.op .load, .int depth, .int slot] := by
  simp [loadVariable, yields_bind, and_assoc]

/-- The words that pop a value into a variable. -/
def storeWords (usage : Usage) (depth slot : Nat) : List Word :=
  (if usage = .value then [.op .dup] else []) ++ [.op .store, .int depth, .int slot]

@[simp] theorem yields_storeVariable {name : String} {usage : Usage} {a : Unit} {s t : Session} :
    (storeVariable name usage).Yields s a t ↔
      ∃ depth slot, s.scopes.locate? name = some (depth, slot) ∧
        t = s.write (storeWords usage depth slot) := by
  cases usage <;> simp [storeVariable, yields_bind, and_assoc, storeWords]

/-- The words that drop a value that nobody uses. -/
def finishWords : Usage → List Word
  | .value => []
  | .discard => [.op .pop]

@[simp] theorem yields_finish {usage : Usage} {a : Unit} {s t : Session} :
    (finish usage).Yields s a t ↔ t = s.write (finishWords usage) := by
  cases usage <;> simp [finish, finishWords]

/-- A call finds the address of its function, or no open scope has the name. -/
theorem yields_callTarget {name : String} {target : Option Address} {s t : Session} :
    (callTarget name).Yields s target t ↔
      t = s ∧ ((target = none ∧ s.scopes.find? name = none) ∨
        (∃ a, target = some a ∧ s.scopes.function? name = some a)) := by
  simp only [callTarget, yields_bind, yields_ask, and_assoc, Scopes.function?]
  rcases hfind : s.scopes.find? name with _ | ⟨⟨address, kind, signature⟩, depth⟩
  · simp [and_comm]
  · cases kind <;> simp [and_comm, eq_comm]

theorem yields_emitTarget_some {name : String} {address : Address} {a : Unit} {s t : Session} :
    (emitTarget name (some address)).Yields s a t ↔ t = s.write [.addr address] := by
  simp [emitTarget]

theorem yields_emitTarget_none {name : String} {a : Unit} {s t : Session} :
    (emitTarget name none).Yields s a t ↔
      s.config.forwardCalls = true ∧
        t = (s.write [Code.placeholder]).setScopes (s.scopes.defer ⟨name, s.code.next⟩) := by
  simp only [emitTarget, yields_bind, yields_ask, and_assoc]
  rcases hconf : s.config.forwardCalls with _ | _
  · simp
  · simp [yields_bind, and_assoc, Session.setScopes]

@[simp] theorem yields_enterFunction {type : TypeName} {a : Unit} {s t : Session} :
    (enterFunction type).Yields s a t ↔ t = { s with functions := s.functions.enter type } := by
  simp [enterFunction]

@[simp] theorem yields_exitFunction {a : Unit} {s t : Session} :
    exitFunction.Yields s a t ↔ t = { s with functions := s.functions.exit.2 } := by
  simp [exitFunction]

@[simp] theorem yields_currentFunctionType {type : TypeName} {s t : Session} :
    currentFunctionType.Yields s type t ↔ s.functions.types.head? = some type ∧ t = s := by
  simp only [currentFunctionType, yields_ofExcept, ReturnTypes.current]
  rcases htypes : s.functions.types with _ | ⟨top, rest⟩
  · simp
  · simp

end Gen

end SceneCode
