import SceneCode.Binary64.Layout
import SceneCode.Json.Basic
import SceneCode.Json.Text

/-!
# Writing JSON values

The compact text of a value: no blanks, the fields of an object in the order in which they are
held, doubles with the fewest digits that read back.
-/

namespace SceneCode.Json

/-- Doubles in JSON are positional from `0.00001` up to sixteen digits before the point, and a
    positive exponent has a plus sign.  JSON has no word for a number that is not finite. -/
def floatLayout : Binary64.Layout where
  leastPlain := -5
  greatestPlain := 15
  exponentSign := "+"
  tie := .toEven
  nan := "null"
  infinity := "null"
  negativeInfinity := "null"

def Number.text : Number → String
  | .int n _ => Text.signedDecimal n
  | .float x _ => floatLayout.render x

/-- The text of a truth value. -/
def boolText (b : Bool) : String :=
  if b then "true" else "false"

mutual

/-- The compact text of a value. -/
def compact : Json → String
  | .null => "null"
  | .bool b => boolText b
  | .num n => n.text
  | .str s => JsonText.quote s
  | .arr items => JsonText.array .compact 0 (compactItems items)
  | .obj fields => JsonText.object .compact 0 (compactFields fields)

def compactItems : List Json → List String
  | [] => []
  | v :: rest => v.compact :: compactItems rest

def compactFields : List (String × Json) → List (String × String)
  | [] => []
  | (name, v) :: rest => (name, v.compact) :: compactFields rest

end

end SceneCode.Json
