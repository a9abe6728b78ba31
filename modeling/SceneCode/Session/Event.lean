import SceneCode.Text.Quoted
import SceneCode.Tree.Kind
import SceneCode.Machine.Word

/-!
# The log of a session

What a session reports while it generates code, in the order in which it happens.  Nothing in the
generated code depends on the log.
-/

namespace SceneCode

/-- One entry of the log. -/
inductive Event where
  /-- A node is generated `depth` scopes deep. -/
  | generate (kind : Kind) (depth : Nat)
  /-- A scope was opened, without an operation for it if `silent`. -/
  | pushScope (depth : Nat) (silent : Bool)
  /-- A scope was closed, without an operation for it if `silent`. -/
  | popScope (depth : Nat) (silent : Bool)
  /-- A name got its label. -/
  | registerLabel (name : String) (address : Address) (depth : Nat)
  /-- A call was written whose function is not known yet. -/
  | forwardCall (name : String) (patchAt : Address)
  /-- A call got its target. -/
  | patchCall (name : String) (patchAt target : Address)
  /-- An entry point was found. -/
  | entryPoint (name : String) (address : Address)
  /-- The name of an entry point belongs to a variable. -/
  | entryPointNotFunction (name : String)
  /-- A program is complete. -/
  | compiled (words : Nat) (init render : Option Address)
deriving DecidableEq, Repr

namespace Event

def optionText : Option Address → String
  | some a => "Some(" ++ Text.decimal a ++ ")"
  | none => "None"

/-- How much of the log somebody wants to see. -/
inductive Level where
  | debug
  | trace
deriving DecidableEq, Repr

def Level.text : Level → String
  | .debug => "DEBUG"
  | .trace => "TRACE"

/-- Changes of scopes and labels are details; everything else is shown to whoever asks. -/
def level : Event → Level
  | .pushScope _ _ | .popScope _ _ | .registerLabel _ _ _ => .trace
  | _ => .debug

/-- What an entry says. -/
def message : Event → String
  | .generate kind depth =>
    "generate kind=" ++ Text.quoted kind.spelling ++ " depth=" ++ Text.decimal depth
  | .pushScope depth silent =>
    "push scope depth=" ++ Text.decimal depth ++ " suppress_runtime_op=" ++ Json.boolText silent
  | .popScope depth silent =>
    "pop scope depth=" ++ Text.decimal depth ++ " suppress_runtime_op=" ++ Json.boolText silent
  | .registerLabel name address depth =>
    "register label name=" ++ Text.quoted name ++ " address=" ++ Text.decimal address ++
      " depth=" ++ Text.decimal depth
  | .forwardCall name patchAt =>
    "forward call name=" ++ Text.quoted name ++ " patch_at=" ++ Text.decimal patchAt
  | .patchCall name patchAt target =>
    "patch forward call name=" ++ name ++ " at=" ++ Text.decimal patchAt ++
      " target=" ++ Text.decimal target
  | .entryPoint name address =>
    "entry point name=" ++ Text.quoted name ++ " address=" ++ Text.decimal address
  | .entryPointNotFunction name =>
    "entry point name is not a function name=" ++ Text.quoted name
  | .compiled words init render =>
    "compiled program words=" ++ Text.decimal words ++ " init_address=" ++ optionText init ++
      " render_address=" ++ optionText render

/-- The line of the log for an entry. -/
def text (e : Event) : String :=
  e.level.text ++ " " ++ e.message

end Event

end SceneCode
