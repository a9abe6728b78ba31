/-!
# Reading text from its start

A `Reading` takes characters from the start of a text and makes something of them, or refuses the
text.  The parts of a grammar are readings; `do` puts one after the other.
-/

namespace SceneCode.Toml

/-- What a text starts with, and what is left of it. -/
abbrev Reading (α : Type) := StateT (List Char) Option α

namespace Reading

def refuse {α : Type} : Reading α :=
  fun _ => none

/-- The next character, which stays where it is. -/
def peek : Reading (Option Char) :=
  fun cs => some (cs.head?, cs)

/-- Take a character of some kind. -/
def one (isOne : Char → Bool) : Reading Char
  | c :: rest => if isOne c then some (c, rest) else none
  | [] => none

/-- Take the given text. -/
def exactly : List Char → Reading Unit
  | [] => return ()
  | c :: rest => do
    let _ ← one (· = c)
    exactly rest

/-- Take characters of some kind as long as there are any. -/
def takeWhile (isOne : Char → Bool) : Reading (List Char) :=
  fun cs => some (cs.takeWhile isOne, cs.dropWhile isOne)

/-- Take something if it is there; otherwise take nothing. -/
def optional {α : Type} (r : Reading α) : Reading (Option α) := fun cs =>
  match r cs with
  | some (a, rest) => some (some a, rest)
  | none => some (none, cs)

/-- Take the first of two things if it is there, otherwise the second. -/
def either {α : Type} (first second : Reading α) : Reading α := fun cs =>
  match first cs with
  | some result => some result
  | none => second cs

/-- Take something up to `n` times, as long as it is there. -/
def upTo {α : Type} : Nat → Reading α → Reading (List α)
  | 0, _ => return []
  | n + 1, r => do
    match ← optional r with
    | none => return []
    | some a => return a :: (← upTo n r)

/-- Take something that has at least one character as often as it is there. -/
def many {α : Type} (r : Reading α) : Reading (List α) := do
  upTo (← get).length r

/-- Take something exactly `n` times. -/
def times {α : Type} : Nat → Reading α → Reading (List α)
  | 0, _ => return []
  | n + 1, r => do return (← r) :: (← times n r)

/-- Take things with a mark between each two of them. -/
def separated {α : Type} (mark : Char) (r : Reading α) : Reading (List α) := do
  let first ← r
  let others ← many do
    exactly [mark]
    r
  return first :: others

/-- Whether the whole text has been taken. -/
def atEnd : Reading Bool := do
  return (← get).isEmpty

def blanks : Reading Unit := do
  let _ ← takeWhile fun c => c = ' ' || c = '\t'

def lineBreak : Reading Unit :=
  either (exactly ['\n']) (exactly ['\r', '\n'])

/-- The characters of comments and of texts: all but control characters, the tab excepted. -/
def isPlain (c : Char) : Bool :=
  c = '\t' || (0x20 ≤ c.toNat && c.toNat ≠ 0x7f)

end Reading

end SceneCode.Toml
