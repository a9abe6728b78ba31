import SceneCode.Fault
import SceneCode.Machine.Word
import SceneCode.Tree.Basic

/-!
# Labels and frames

A label is what a name stands for: a function, with the address of its first word, or a variable,
with its slot in a data frame.  A frame holds the labels of one scope.  Functions and variables
share the names of a frame, but only variables take slots.  A frame also keeps the calls written
in it whose function is not known yet.
-/

namespace SceneCode

/-- What a label names. -/
inductive LabelKind where
  | function
  | variable (type : TypeName)
deriving DecidableEq, Repr

def LabelKind.isFunction : LabelKind → Bool
  | .function => true
  | .variable _ => false

/-- The declared parameters and return type of a function. -/
structure Signature where
  params : List Param
  returns : TypeName
deriving DecidableEq, Repr

/-- What a name stands for. -/
structure Label where
  /-- The first word of a function, or the slot of a variable. -/
  address : Address
  kind : LabelKind
  signature : Option Signature
deriving DecidableEq, Repr

/-- A call whose target is still a placeholder. -/
structure PendingCall where
  name : String
  /-- The address of the placeholder. -/
  patchAt : Address
deriving DecidableEq, Repr

/-- The labels, the slots and the pending calls of one scope. -/
structure Frame where
  /-- The labels by name, last one first. -/
  labels : List (String × Label) := []
  /-- How many slots have been given out. -/
  slots : Nat := 0
  /-- The pending calls in the order in which they were written. -/
  pending : List PendingCall := []
deriving DecidableEq, Repr

namespace Frame

def get? (f : Frame) (name : String) : Option Label :=
  f.labels.lookup name

/-- Whatever is kept of the labels is found under their names. -/
theorem lookup_map_labels {β : Type} (f : Frame) (g : Label → β) (name : String) :
    (f.labels.map fun (name, label) => (name, g label)).lookup name = (f.get? name).map g := by
  unfold get?
  induction f.labels with
  | nil => rfl
  | cons entry rest ih =>
    rw [List.map_cons, List.lookup_cons, List.lookup_cons]
    cases name == entry.1 with
    | true => rfl
    | false => exact ih

/-- The same frame without its pending calls. -/
def settled (f : Frame) : Frame :=
  { f with pending := [] }

/-- Keep a call until its function is known. -/
def defer (f : Frame) (call : PendingCall) : Frame :=
  { f with pending := f.pending ++ [call] }

/-- Give a new name its label.  A function gets the address `pc`; a variable gets the next slot.
    The result is the address of the label. -/
def register (f : Frame) (name : String) (kind : LabelKind) (signature : Option Signature)
    (pc : Address) : Except Fault (Address × Frame) :=
  match f.get? name with
  | some _ => .error (.redefinition name)
  | none => match kind with
    | .function => .ok (pc, { f with labels := (name, ⟨pc, kind, signature⟩) :: f.labels })
    | .variable _ =>
      .ok (f.slots, { f with
        labels := (name, ⟨f.slots, kind, signature⟩) :: f.labels
        slots := f.slots + 1 })

/-- A new label is found under its name, and every other name keeps its label. -/
theorem get?_of_register {f g : Frame} {name : String} {kind : LabelKind}
    {signature : Option Signature} {pc a : Address}
    (h : f.register name kind signature pc = .ok (a, g)) (other : String) :
    g.get? other = if other = name then some ⟨a, kind, signature⟩ else f.get? other := by
  unfold register at h
  split at h
  · cases h
  · split at h
    all_goals
      cases h
      simp only [get?, List.lookup_cons]
      split
      · simp_all
      · simp_all

end Frame

end SceneCode
