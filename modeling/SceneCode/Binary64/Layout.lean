import SceneCode.Binary64.Shortest
import SceneCode.Text.Decimal

/-!
# Written forms of a double

The digits of a written double are always the shortest ones.  What a format decides for itself is
a `Layout`: which decimal exponents are written positionally, whether a positive exponent has a
sign, which way a tie goes, and how the numbers that are not finite are spelled.
-/

namespace SceneCode.Binary64

/-- The decisions of one written form. -/
structure Layout where
  /-- The least decimal exponent that is written positionally. -/
  leastPlain : Int
  /-- The greatest decimal exponent that is written positionally. -/
  greatestPlain : Int
  /-- What stands before a positive exponent. -/
  exponentSign : String
  /-- Which of two equally near shortest decimals is written. -/
  tie : TieRule
  /-- The word for a NaN. -/
  nan : String
  /-- The word for positive infinity. -/
  infinity : String
  /-- The word for negative infinity. -/
  negativeInfinity : String

namespace Layout

/-- Digits with a point after the digit of weight `10 ^ 0`.  There is a digit on each side of the
    point, a zero if the number has none there. -/
def plain (digits : List Char) (exponent : Int) : List Char :=
  if exponent < 0 then
    '0' :: '.' :: List.replicate (-exponent - 1).toNat '0' ++ digits
  else
    let whole := exponent.toNat + 1
    let tail := digits.drop whole
    List.rightpad whole '0' (digits.take whole) ++ '.' :: (if tail.isEmpty then ['0'] else tail)

/-- One digit, the others after a point if there are any, and the exponent. -/
def scientific (sign : String) (digits : List Char) (exponent : Int) : List Char :=
  let tail := digits.drop 1
  let point := if tail.isEmpty then [] else '.' :: tail
  let mark := if exponent < 0 then "-" else sign
  digits.take 1 ++ point ++ 'e' :: mark.toList ++ Nat.toDigits 10 exponent.natAbs

/-- The written form of a positive decimal number. -/
def magnitude (f : Layout) (d : Decimal) : List Char :=
  let digits := Nat.toDigits 10 d.digits
  let exponent := d.exponent + digits.length - 1
  if f.leastPlain ≤ exponent ∧ exponent ≤ f.greatestPlain then plain digits exponent
  else scientific f.exponentSign digits exponent

/-- The written form of a double. -/
def render (f : Layout) (x : Binary64) : String :=
  if x.isFinite then
    let body := if x.isZero then ['0', '.', '0'] else f.magnitude (x.shortest f.tie)
    String.ofList (if x.isNegative then '-' :: body else body)
  else if x.isNaN then f.nan
  else if x.isNegative then f.negativeInfinity
  else f.infinity

end Layout

end SceneCode.Binary64
