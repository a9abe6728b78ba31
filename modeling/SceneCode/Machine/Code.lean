import SceneCode.Fault
import SceneCode.Machine.Word

/-!
# Code under construction

Words are only ever added at the end; a word that is already there can be replaced, which is how
a jump gets a target that was not known when the jump was written.  The length never shrinks
except by starting over.
-/

namespace SceneCode

/-- The words written so far. -/
structure Code where
  words : Array Word := #[]
deriving DecidableEq, Repr

namespace Code

/-- No words. -/
def empty : Code := {}

def next (c : Code) : Address :=
  c.words.size

/-- Add a word, which gets the address `next`. -/
def emit (c : Code) (w : Word) : Code :=
  ⟨c.words.push w⟩

/-- What stands for a target that is not known yet. -/
def placeholder : Word := .addr 0

/-- Replace the word at an address.  It must have been written before. -/
def patch (c : Code) (a : Address) (w : Word) : Except Fault Code :=
  if h : a < c.words.size then .ok ⟨c.words.set a w⟩ else .error (.patchOutOfRange a c.next)

def get? (c : Code) (a : Address) : Option Word :=
  c.words[a]?

/-- All words in order. -/
def toList (c : Code) : List Word :=
  c.words.toList

@[simp] theorem toList_empty : empty.toList = [] := rfl

@[simp] theorem length_toList (c : Code) : c.toList.length = c.next := by
  simp [toList, next]

@[simp] theorem toList_emit (c : Code) (w : Word) : (c.emit w).toList = c.toList ++ [w] := by
  simp [toList, emit]

@[simp] theorem next_emit (c : Code) (w : Word) : (c.emit w).next = c.next + 1 := by
  simp [next, emit]

/-- Replacing a word succeeds exactly below `next`, and touches nothing else. -/
theorem patch_eq_ok_iff {c d : Code} {a : Address} {w : Word} :
    c.patch a w = .ok d ↔ a < c.next ∧ d.toList = c.toList.set a w := by
  unfold patch next toList
  split
  · rename_i h
    simp only [Except.ok.injEq, h, true_and]
    constructor
    · rintro rfl
      simp
    · intro hd
      cases d
      simp only [Code.mk.injEq]
      apply Array.toList_inj.1
      simpa using hd.symm
  · rename_i h
    simp [h]

end Code

end SceneCode
