import SceneCode.Session.Basic

/-!
# Actions of a session

The steps that code generation is made of: writing and replacing words, opening and closing
scopes, giving names their labels, beginning and ending function definitions.
-/

namespace SceneCode.Gen

/-! ### Code -/

def emit (w : Word) : Gen Address :=
  fun s => ⟨[], .ok s.code.next, { s with code := s.code.emit w }⟩

/-- Write words one after the other. -/
def emitAll : List Word → Gen Unit
  | [] => return ()
  | w :: rest => do
    let _ ← emit w
    emitAll rest

/-- The address of the next word. -/
def here : Gen Address :=
  ask fun s => s.code.next

/-- Replace a word that was written before. -/
def patch (a : Address) (w : Word) : Gen Unit := fun s =>
  match s.code.patch a w with
  | .ok code => ⟨[], .ok (), { s with code }⟩
  | .error e => ⟨[], .error e, s⟩

/-- Write a jump whose target is not known yet, and tell the address of its placeholder. -/
def emitJump (op : Opcode) : Gen Address := do
  let _ ← emit (.op op)
  emit Code.placeholder

/-- Let a jump lead to the next word. -/
def land (hole : Address) : Gen Unit := do
  patch hole (.addr (← here))

/-! ### Scopes and labels -/

/-- Open a scope.  The machine is told so unless `silent`: the frame of a function's body is made
    by the call. -/
def pushScope (silent : Bool) : Gen Unit := do
  update fun s => { s with scopes := s.scopes.push }
  log (.pushScope (← ask (·.scopes.depth)) silent)
  unless silent do
    emitAll [.op .enterScope]

/-- Give a call its target if the frame knows its function.  Otherwise tell that it is still
    pending. -/
def settle (frame : Frame) (call : PendingCall) : Gen Bool :=
  match frame.get? call.name with
  | some label =>
    match label.kind with
    | .function => do
      log (.patchCall call.name call.patchAt label.address)
      patch call.patchAt (.addr label.address)
      return true
    | .variable _ => fail (.notA .function call.name)
  | none => return false

/-- Settle the calls of a scope that has been closed.  Those that are still pending wait in the
    scope around it. -/
def settleInto (frame : Frame) : List PendingCall → Gen Unit
  | [] => return ()
  | call :: rest => do
    unless ← settle frame call do
      update fun s => { s with scopes := s.scopes.defer call }
    settleInto frame rest

def takeFrame : Gen Frame := fun s =>
  match s.scopes.pop with
  | .ok (frame, scopes) => ⟨[], .ok frame, { s with scopes }⟩
  | .error e => ⟨[], .error e, s⟩

/-- Close the innermost scope.  The machine is told so unless `silent`. -/
def popScope (silent : Bool) : Gen Unit := do
  let frame ← takeFrame
  settleInto frame frame.pending
  log (.popScope (← ask (·.scopes.depth)) silent)
  unless silent do
    emitAll [.op .exitScope]

def registerLabel (name : String) (kind : LabelKind) (signature : Option Signature) :
    Gen Address := fun s =>
  match s.scopes.register name kind signature s.code.next with
  | .ok (address, scopes) =>
    ⟨[.registerLabel name address scopes.depth], .ok address, { s with scopes }⟩
  | .error e => ⟨[], .error e, s⟩

/-! ### Functions in progress -/

/-- Begin a function definition. -/
def enterFunction (type : TypeName) : Gen Unit :=
  update fun s => { s with functions := s.functions.enter type }

/-- End the innermost function definition. -/
def exitFunction : Gen Unit :=
  update fun s => { s with functions := s.functions.exit.2 }

/-- The return type of the innermost function definition. -/
def currentFunctionType : Gen TypeName :=
  ofExcept (·.functions.current)

end SceneCode.Gen
