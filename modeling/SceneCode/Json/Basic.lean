import SceneCode.Binary64.Basic

/-!
# JSON values

A `Json` is a value of the data format, apart from its text.  A number is either an integer that
fits a 64-bit word, signed or unsigned, or a finite double: both bounds are part of the type, so
whoever holds a number need not check them again.  The fields of an object are kept in the order
of their names, each name once.
-/

namespace SceneCode

/-- The integers that fit a 64-bit word, signed or unsigned. -/
abbrev Json.InRange (n : Int) : Prop :=
  -0x8000000000000000 ≤ n ∧ n < 0x10000000000000000

/-- A JSON number. -/
inductive Json.Number where
  /-- A number written without fraction and exponent that fits a 64-bit word. -/
  | int (n : Int) (inRange : Json.InRange n)
  /-- Any other number. -/
  | float (x : Binary64) (finite : x.isFinite = true)
deriving DecidableEq

/-- A JSON value. -/
inductive Json where
  | null
  | bool (b : Bool)
  | num (n : Json.Number)
  | str (s : String)
  | arr (items : List Json)
  | obj (fields : List (String × Json))

namespace Json

/-- The integer `n` as a number, if it fits a 64-bit word. -/
def Number.ofInt? (n : Int) : Option Number :=
  if h : InRange n then some (.int n h) else none

/-- The double `x` as a number, if it is finite. -/
def Number.ofBinary64? (x : Binary64) : Option Number :=
  if h : x.isFinite = true then some (.float x h) else none

/-- The double nearest to a number. -/
def Number.toBinary64 : Number → Binary64
  | .int n _ => Binary64.ofInt n
  | .float x _ => x

/-- Put a field among others that are in the order of their names.  A field of the same name is
    replaced. -/
def insertField (name : String) (value : Json) : List (String × Json) → List (String × Json)
  | [] => [(name, value)]
  | (n, v) :: rest =>
    if name < n then (name, value) :: (n, v) :: rest
    else if name = n then (name, value) :: rest
    else (n, v) :: insertField name value rest

/-- The object with the given fields, a later field winning over an earlier one of its name. -/
def ofFields (fields : List (String × Json)) : Json :=
  .obj (fields.foldl (fun done f => insertField f.1 f.2 done) [])

/-- The value of a field of an object; nothing for any other value. -/
def field? (v : Json) (name : String) : Option Json :=
  match v with
  | .obj fields => fields.lookup name
  | _ => none

/-- A natural number below `2 ^ 64`; nothing for any other value. -/
def nat? : Json → Option Nat
  | .num (.int n _) => if 0 ≤ n then some n.toNat else none
  | _ => none

/-- An integer in the range of signed 64-bit words; nothing for any other value. -/
def int64? : Json → Option Int
  | .num (.int n _) => if n < 0x8000000000000000 then some n else none
  | _ => none

/-- The double nearest to a number; nothing for any other value. -/
def binary64? : Json → Option Binary64
  | .num n => some n.toBinary64
  | _ => none

/-- A truth value. -/
def bool? : Json → Option Bool
  | .bool b => some b
  | _ => none

/-- A text. -/
def str? : Json → Option String
  | .str s => some s
  | _ => none

def arr? : Json → Option (List Json)
  | .arr items => some items
  | _ => none

end Json

end SceneCode
