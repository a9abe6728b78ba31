import SceneCode.Json.Reader
import SceneCode.Machine.Program
import SceneCode.Session.Generate
import SceneCode.Tree.Decode

/-!
# Whole programs

Compiling a program starts from an empty session, generates the tree, gives the remaining calls
their targets, and looks for the two entry points among the labels of the whole program.  A
program that is complete takes its code out of the session.
-/

namespace SceneCode

namespace Gen

/-- Forget everything but the options. -/
def reset : Gen Unit :=
  update fun s => { config := s.config }

def takeRootPending : Gen (List PendingCall) := fun s =>
  let (pending, scopes) := s.scopes.takeRootPending
  ⟨[], .ok pending, { s with scopes }⟩

/-- Settle the calls of a finished program.  A function that is still unknown does not exist. -/
def settleAll : List PendingCall → Gen Unit
  | [] => return ()
  | call :: rest => do
    unless ← settle (← ask (·.scopes.current)) call do
      fail (.unresolved call.name)
    settleAll rest

def entryPoint (name : String) : Gen (Option Address) := do
  match ← ask (·.scopes.find? name) with
  | none => return none
  | some r => match r.label.kind with
    | .function =>
      log (.entryPoint name r.label.address)
      return some r.label.address
    | .variable _ =>
      log (.entryPointNotFunction name)
      return none

def takeCode : Gen (List Word) := fun s =>
  ⟨[], .ok s.code.toList, { s with code := {} }⟩

def compile (tree : Tree) : Gen Program := do
  reset
  tree.generate .discard
  settleAll (← takeRootPending)
  if ← ask (·.config.emitHalt) then
    emitAll [.op .halt]
  let init ← entryPoint "init"
  let render ← entryPoint "render"
  log (.compiled (← here) init render)
  return ⟨← takeCode, init, render⟩

end Gen

/-- The program that a tree compiles to. -/
def Tree.compile (config : Config) (tree : Tree) : Except Fault Program :=
  (Gen.compile tree { config }).result

/-- Why a text does not compile to a program. -/
inductive CompileError where
  /-- The text is not JSON. -/
  | json (e : Json.ReadError)
  /-- The JSON is not a tree. -/
  | decode (e : DecodeError)
  /-- The tree has no code. -/
  | generate (e : Fault)

/-- How deeply containers may be nested in the text of a tree. -/
def Tree.nestingLimit : Nat := 127

def Tree.read (text : String) : Except CompileError Tree :=
  match Json.read (some nestingLimit) text with
  | .error e => .error (.json e)
  | .ok v => (Tree.decode v).mapError .decode

def Program.ofText (config : Config) (text : String) : Except CompileError Program := do
  let tree ← Tree.read text
  (tree.compile config).mapError .generate

end SceneCode
