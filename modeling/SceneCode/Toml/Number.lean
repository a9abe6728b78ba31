import SceneCode.Binary64.Basic
import SceneCode.Text.Decimal
import SceneCode.Toml.Reading

/-!
# Numbers in settings files

Integers are decimal with an optional sign and no leading zeros, or hexadecimal, octal or binary
behind `0x`, `0o` or `0b`; they fit a signed 64-bit word.  A number with a fraction or an exponent
must not be beyond the finite doubles, unless it is negative.  A single underscore may stand
between two digits.
-/

namespace SceneCode.Toml.Reading

def digitIn? (base : Nat) (c : Char) : Option Nat :=
  (Text.hexDigitValue? c).filter (· < base)

def digit (base : Nat) : Reading Nat := do
  let c ← one fun c => (digitIn? base c).isSome
  return (digitIn? base c).getD 0

def digits (base : Nat) : Reading (List Nat) := do
  let first ← digit base
  let others ← many do
    let _ ← optional (exactly ['_'])
    digit base
  return first :: others

def ofDigits (base : Nat) (ds : List Nat) : Nat :=
  ds.foldl (fun n d => n * base + d) 0

/-- Take a sign, and tell whether it is a minus. -/
def sign : Reading Bool := do
  return (← optional (one fun c => c = '+' || c = '-')) = some '-'

/-- Take decimal digits without leading zeros. -/
def whole : Reading (List Nat) := do
  if (← peek) = some '0' then return [← digit 10] else digits 10

/-- Take the digits after a point. -/
def fraction : Reading (List Nat) := do
  exactly ['.']
  digits 10

def exponent : Reading Int := do
  let _ ← one fun c => c = 'e' || c = 'E'
  let negative ← sign
  let n := ofDigits 10 (← digits 10)
  return if negative then -n else n

/-- Whether the double nearest to a decimal, digits times a power of ten, is finite. -/
def isFiniteDecimal (ds : List Nat) (power : Int) : Bool :=
  let n := ofDigits 10 ds
  if n = 0 then true
  else if 0 ≤ power then
    power ≤ 308 && (Binary64.ofRatio false (n * Nat.pow 10 power.toNat) 1).isFinite
  else if ds.length ≤ power.natAbs then true
  else (Binary64.ofRatio false n (Nat.pow 10 power.natAbs)).isFinite

/-- Whether an integer fits a signed 64-bit word. -/
def fitsWord (n : Int) : Bool :=
  -0x8000000000000000 ≤ n && n < 0x8000000000000000

/-- Take a decimal number. -/
def decimal : Reading Unit := do
  let negative ← sign
  let ds ← whole
  let places ← optional fraction
  let power ← optional exponent
  if places.isNone ∧ power.isNone then
    let n : Int := ofDigits 10 ds
    unless fitsWord (if negative then -n else n) do refuse
  else
    let places := places.getD []
    unless negative || isFiniteDecimal (ds ++ places) (power.getD 0 - places.length) do refuse

/-- Take an integer in another base. -/
def based (letter : Char) (base : Nat) : Reading Unit := do
  exactly ['0', letter]
  unless fitsWord (ofDigits base (← digits base)) do refuse

/-- Take one of the numbers that are words. -/
def special : Reading Unit := do
  let _ ← sign
  either (exactly ['i', 'n', 'f']) (exactly ['n', 'a', 'n'])

def number : Reading Unit :=
  either (based 'x' 16) (either (based 'o' 8) (either (based 'b' 2) (either special decimal)))

end SceneCode.Toml.Reading
