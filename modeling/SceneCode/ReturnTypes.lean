import SceneCode.Fault
import SceneCode.Tree.Basic

/-!
# Functions in progress

The return types of the function definitions around the current place, innermost first.  They are
kept apart from the scopes: a block inside a function does not hide the function's type, but an
inner function does.
-/

namespace SceneCode

/-- The return types of the function definitions in progress. -/
structure ReturnTypes where
  /-- The types, innermost first. -/
  types : List TypeName := []
deriving DecidableEq, Repr

namespace ReturnTypes

/-- No function in progress. -/
def none : ReturnTypes := {}

/-- Begin a function definition. -/
def enter (r : ReturnTypes) (type : TypeName) : ReturnTypes :=
  ⟨type :: r.types⟩

/-- End the innermost function definition, if there is one, and tell its type. -/
def exit (r : ReturnTypes) : Option TypeName × ReturnTypes :=
  (r.types.head?, ⟨r.types.tail⟩)

/-- The return type of the innermost function definition. -/
def current (r : ReturnTypes) : Except Fault TypeName :=
  match r.types with
  | [] => .error .noFunction
  | type :: _ => .ok type

/-- The number of function definitions in progress. -/
def depth (r : ReturnTypes) : Nat :=
  r.types.length

end ReturnTypes

end SceneCode
