import SceneCode.Binary64.Basic

/-!
# The fewest digits that read back

A finite double stands for every real number that rounds to it.  Its shortest decimal is the one
with the fewest digits inside that interval, and among those the one nearest to the double.  The
search walks the decimal grids from coarse to fine.  On each grid only the two neighbours of the
exact value can be the answer, because the interval surrounds the value: if any point of the grid
lies inside, one of the two neighbours does.
-/

namespace SceneCode.Binary64

/-- The decimal number `digits · 10 ^ exponent`. -/
structure Decimal where
  digits : Nat
  exponent : Int
deriving DecidableEq, Repr

/-- Which neighbour is taken when both are equally near. -/
inductive TieRule where
  /-- The one whose last digit is even. -/
  | toEven
  /-- The greater one. -/
  | upward
deriving DecidableEq, Repr

/-- A positive real number `value / unit` together with the interval of reals that round to the
    same double.  All three numbers are over the same denominator. -/
structure Rounding where
  value : Nat
  low : Nat
  high : Nat
  unit : Nat
  /-- Whether the two ends of the interval belong to it. -/
  closed : Bool

/-- The interval of a finite double that is not zero, in quarters of its last place.  The gap
    below a power of two is half as wide as the gap above it, and the ends belong to the double
    when its significand is even. -/
def rounding (x : Binary64) : Rounding :=
  let below := if x.fraction = 0 ∧ 1 < x.exponentField then 1 else 2
  { value := (4 * x.significand) <<< x.scale
    low := (4 * x.significand - below) <<< x.scale
    high := (4 * x.significand + 2) <<< x.scale
    unit := 4 <<< 1074
    closed := x.significand % 2 == 0 }

namespace Rounding

/-- Both sides of the comparison of `digits · 10 ^ exponent` with a number over `unit`. -/
def gridPoint (r : Rounding) (exponent : Int) (digits : Nat) : Nat :=
  digits * Nat.pow 10 exponent.toNat * r.unit

/-- A number over `unit`, brought to the denominator of `gridPoint`. -/
def onGrid (exponent : Int) (n : Nat) : Nat :=
  n * Nat.pow 10 (-exponent).toNat

/-- Whether `digits · 10 ^ exponent` rounds to the double. -/
def contains (r : Rounding) (exponent : Int) (digits : Nat) : Bool :=
  let point := r.gridPoint exponent digits
  let low := onGrid exponent r.low
  let high := onGrid exponent r.high
  if r.closed then low ≤ point && point ≤ high else low < point && point < high

/-- The greatest `e` with `10 ^ e ≤ value / unit`. -/
def floorLog10 (r : Rounding) : Int :=
  if r.unit ≤ r.value then ((Nat.toDigits 10 (r.value / r.unit)).length : Int) - 1
  else -((Nat.toDigits 10 ((r.unit - 1) / r.value)).length : Int)

/-- The neighbour of the value on the grid of `10 ^ exponent` that rounds to the double, the
    nearer one if both do. -/
def neighbour? (r : Rounding) (tie : TieRule) (exponent : Int) : Option Nat :=
  let step := r.gridPoint exponent 1
  let value := onGrid exponent r.value
  let down := value / step
  let up := down + 1
  let rest := 2 * (value % step)
  match r.contains exponent down, r.contains exponent up with
  | false, false => none
  | true, false => some down
  | false, true => some up
  | true, true =>
    if rest < step then some down
    else if step < rest then some up
    else match tie with
      | .toEven => some (down + down % 2)
      | .upward => some up

/-- Search from the grid of `10 ^ exponent` towards finer ones, for at most `grids` grids. -/
def search (r : Rounding) (tie : TieRule) : Nat → Int → Decimal
  | 0, exponent => ⟨onGrid exponent r.value / r.gridPoint exponent 1, exponent⟩
  | grids + 1, exponent =>
    match r.neighbour? tie exponent with
    | some digits => ⟨digits, exponent⟩
    | none => search r tie grids (exponent - 1)

end Rounding

/-- The same number without zeros at the end of its digits. -/
def Decimal.trim (d : Decimal) : Decimal :=
  if d.digits ≠ 0 ∧ d.digits % 10 = 0 then
    Decimal.trim ⟨d.digits / 10, d.exponent + 1⟩
  else d
termination_by d.digits
decreasing_by omega

/-- The shortest decimal that rounds to the magnitude of `x`, a finite number that is not zero.
    Seventeen digits always suffice. -/
def shortest (tie : TieRule) (x : Binary64) : Decimal :=
  let r := x.rounding
  (r.search tie 17 r.floorLog10).trim

end SceneCode.Binary64
