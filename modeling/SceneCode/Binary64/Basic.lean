/-!
# Double precision numbers as words

A `Binary64` is a 64-bit word read as a double precision number: one sign bit, eleven exponent
bits, fifty-two fraction bits.  Arithmetic is exact first and rounded once: an operation forms
the exact quotient of two natural numbers and `ofRatio` takes the nearest double, a half going
to the even neighbour.  Nothing here depends on the floating point unit of the machine, so every
value can be computed and compared inside a proof.
-/

namespace SceneCode

/-- A double precision number, given by its bits.  Two numbers are equal when their bits are, so
    the two zeros differ and a NaN equals itself. -/
structure Binary64 where
  bits : UInt64
deriving DecidableEq, Repr

namespace Binary64

/-! ### Fields of the word -/

abbrev signBit : Nat := 0x8000000000000000

/-- The weight of the lowest exponent bit, which is also the weight that a normal number's
    significand has above its fraction. -/
abbrev hiddenBit : Nat := 0x10000000000000

/-- Whether the sign bit is set. -/
def isNegative (x : Binary64) : Bool :=
  decide (signBit ≤ x.bits.toNat)

/-- The eleven exponent bits. -/
def exponentField (x : Binary64) : Nat :=
  x.bits.toNat / hiddenBit % 2048

/-- The fifty-two fraction bits. -/
def fraction (x : Binary64) : Nat :=
  x.bits.toNat % hiddenBit

/-- Neither an infinity nor a NaN. -/
def isFinite (x : Binary64) : Bool :=
  x.exponentField != 2047

/-- An exponent of all ones with a fraction that is not zero. -/
def isNaN (x : Binary64) : Bool :=
  x.exponentField == 2047 && x.fraction != 0

def isZero (x : Binary64) : Bool :=
  x.exponentField == 0 && x.fraction == 0

/-- The whole significand: the fraction, below the hidden bit of a normal number. -/
def significand (x : Binary64) : Nat :=
  if x.exponentField = 0 then x.fraction else hiddenBit + x.fraction

/-- The power of two that the significand is scaled by, moved up by 1074 so that the least one,
    that of the subnormal numbers, is zero. -/
def scale (x : Binary64) : Nat :=
  x.exponentField - 1

/-- The magnitude of a finite number as an exact quotient: `significand · 2 ^ scale / 2 ^ 1074`. -/
def magnitude (x : Binary64) : Nat × Nat :=
  (x.significand <<< x.scale, 1 <<< 1074)

/-! ### Special values -/

/-- The bits of positive infinity, and the first magnitude that is not finite. -/
abbrev infinityBits : Nat := 0x7ff0000000000000

/-- The number with the given sign and the given sixty-three magnitude bits. -/
def ofMagnitudeBits (negative : Bool) (magnitude : Nat) : Binary64 :=
  ⟨UInt64.ofNat (if negative then signBit + magnitude else magnitude)⟩

def zero (negative : Bool) : Binary64 :=
  ofMagnitudeBits negative 0

def infinity (negative : Bool) : Binary64 :=
  ofMagnitudeBits negative infinityBits

/-- The quiet NaN. -/
def nan : Binary64 :=
  ⟨0x7ff8000000000000⟩

/-- The same number with the other sign. -/
def negate (x : Binary64) : Binary64 :=
  ⟨x.bits ^^^ 0x8000000000000000⟩

/-! ### Rounding -/

/-- The whole number nearest to `num / den`, a half going to the even one. -/
def roundHalfEven (num den : Nat) : Nat :=
  let down := num / den
  let rest := 2 * (num % den)
  if rest < den then down
  else if den < rest then down + 1
  else down + down % 2

/-- The greatest `k` with `2 ^ k ≤ num / den`, for positive `num` and `den`. -/
def floorLog2 (num den : Nat) : Int :=
  let guess : Int := (num.log2 : Int) - (den.log2 : Int)
  if den <<< guess.toNat ≤ num <<< (-guess).toNat then guess else guess - 1

/-- The sixty-three magnitude bits of the double nearest to `num / den`.  The unit in the last
    place is `2 ^ (scale - 1074)`; a significand that rounds up to `2 ^ 53` carries into the
    exponent by itself, and everything beyond the finite numbers is infinity. -/
def roundedBits (num den : Nat) : Nat :=
  if num = 0 then 0
  else
    let scale := (floorLog2 num den - 52 + 1074).toNat
    let significand := roundHalfEven (num <<< 1074) (den <<< scale)
    min (scale * hiddenBit + significand) infinityBits

/-- The double nearest to the quotient of `num` by `den`, with the given sign. -/
def ofRatio (negative : Bool) (num den : Nat) : Binary64 :=
  ofMagnitudeBits negative (roundedBits num den)

/-- The double nearest to an integer. -/
def ofInt (n : Int) : Binary64 :=
  ofRatio (decide (n < 0)) n.natAbs 1

/-- The rounded product of two finite numbers. -/
def mul (x y : Binary64) : Binary64 :=
  ofRatio (x.isNegative != y.isNegative)
    (x.magnitude.1 * y.magnitude.1) (x.magnitude.2 * y.magnitude.2)

/-- The rounded quotient of two finite numbers, the second of which is not zero. -/
def div (x y : Binary64) : Binary64 :=
  ofRatio (x.isNegative != y.isNegative)
    (x.magnitude.1 * y.magnitude.2) (x.magnitude.2 * y.magnitude.1)

def powerOfTen (k : Nat) : Binary64 :=
  ofRatio false (Nat.pow 10 k) 1

end Binary64

end SceneCode
