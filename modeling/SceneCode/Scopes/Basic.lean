import SceneCode.Scopes.Frame

/-!
# Open scopes

The frames of the open scopes, innermost first.  The outermost frame, that of the whole program,
is always there: the type has an innermost frame and a list of frames around it, so closing the
outermost one is an error rather than an empty stack.

A name is looked up from the innermost frame outwards.  The number of frames passed on the way is
what the machine needs to find a variable at run time.
-/

namespace SceneCode

/-- The frames of the open scopes. -/
structure Scopes where
  /-- The frame of the innermost scope. -/
  current : Frame := {}
  /-- The frames around it, innermost first. -/
  outer : List Frame := []
deriving DecidableEq, Repr

/-- A label and where it was found. -/
structure Resolved where
  label : Label
  /-- The number of frames between the use and the frame of the label. -/
  depth : Nat
deriving DecidableEq, Repr

namespace Scopes

/-- Only the scope of the whole program. -/
def fresh : Scopes := {}

/-- All frames, innermost first. -/
def frames (s : Scopes) : List Frame :=
  s.current :: s.outer

/-- The number of scopes inside the outermost one. -/
def depth (s : Scopes) : Nat :=
  s.outer.length

def push (s : Scopes) : Scopes :=
  ⟨{}, s.frames⟩

/-- Close the innermost scope and hand its frame back. -/
def pop (s : Scopes) : Except Fault (Frame × Scopes) :=
  match s.outer with
  | [] => .error .scopeUnderflow
  | next :: rest => .ok (s.current, ⟨next, rest⟩)

def register (s : Scopes) (name : String) (kind : LabelKind) (signature : Option Signature)
    (pc : Address) : Except Fault (Address × Scopes) := do
  let (address, current) ← s.current.register name kind signature pc
  return (address, { s with current })

/-- The first frame that has the name, counted from `depth`. -/
def findIn (name : String) : List Frame → Nat → Option Resolved
  | [], _ => none
  | f :: rest, depth =>
    match f.get? name with
    | some label => some ⟨label, depth⟩
    | none => findIn name rest (depth + 1)

/-- The innermost label of a name. -/
def find? (s : Scopes) (name : String) : Option Resolved :=
  findIn name s.frames 0

/-- The innermost label of a name that must have one. -/
def lookup (s : Scopes) (name : String) : Except Fault Resolved :=
  match s.find? name with
  | some r => .ok r
  | none => .error (.unresolved name)

/-- Keep a call in the innermost scope until its function is known. -/
def defer (s : Scopes) (call : PendingCall) : Scopes :=
  { s with current := s.current.defer call }

def takeRootPending (s : Scopes) : List PendingCall × Scopes :=
  match s.outer.getLast? with
  | none => (s.current.pending, { s with current := s.current.settled })
  | some root => (root.pending, { s with outer := s.outer.dropLast ++ [root.settled] })

end Scopes

end SceneCode
