import SceneCode.Json.Basic
import SceneCode.Text.Decimal

/-!
# Numbers in JSON text

A numeral is read one character at a time.  Its digits are collected in a significand of at most
64 bits: once the next digit does not fit, further digits before the point only raise the decimal
exponent, and further digits after it are passed over.

The value of a numeral with a point or an exponent is computed in double arithmetic, the
significand times or divided by a power of ten that is itself rounded, so it may differ in its
last bits from the double nearest to the written number.  A numeral whose value is beyond the
finite doubles is refused.
-/

namespace SceneCode.Json

/-- Why a text is not a value. -/
inductive ReadError where
  /-- The text ended before the value was complete. -/
  | unfinished
  /-- No value continues the way the text does. -/
  | malformed
deriving DecidableEq, Repr

/-- The signed decimal `± significand · 10 ^ exponent` that has been read so far. -/
structure Scaled where
  negative : Bool
  significand : Nat
  exponent : Int := 0
deriving DecidableEq, Repr

namespace Scaled

/-- The greatest power of ten that is a finite double. -/
def greatestPower : Nat := 308

/-- The double that a positive significand times a power of ten comes to, or nothing when that is
    beyond the finite doubles.  An exponent below the powers at hand is approached in steps of the
    greatest one, until nothing but zero is left. -/
def scale? (x : Binary64) (exponent : Int) : Option Binary64 :=
  if 0 ≤ exponent then
    if exponent ≤ greatestPower then
      let product := x.mul (.powerOfTen exponent.toNat)
      if product.isFinite then some product else none
    else if x.isZero then some x
    else none
  else if -exponent ≤ greatestPower then some (x.div (.powerOfTen (-exponent).toNat))
  else if x.isZero then some x
  else scale? (x.div (.powerOfTen greatestPower)) (exponent + greatestPower)
termination_by exponent.natAbs
decreasing_by simp only [greatestPower] at *; omega

/-- The value of a decimal as a double. -/
def toBinary64? (d : Scaled) : Option Binary64 :=
  (scale? (Binary64.ofInt d.significand) d.exponent).map fun x =>
    if d.negative then x.negate else x

/-- The value of a decimal as a number that is not an integer. -/
def toFloat? (d : Scaled) : Option Number :=
  d.toBinary64?.bind Number.ofBinary64?

/-- The significand with one digit more, if it still fits 64 bits. -/
def withDigit? (d : Scaled) (digit : Nat) : Option Scaled :=
  let significand := d.significand * 10 + digit
  if significand < 0x10000000000000000 then some { d with significand } else none

end Scaled

/-- How far the reading of a numeral has come. -/
inductive Numeral where
  /-- After a minus sign. -/
  | minus
  /-- After a leading zero. -/
  | zero (negative : Bool)
  /-- Among the digits before the point. -/
  | whole (d : Scaled)
  /-- Among the digits before the point, past those that fit the significand. -/
  | longWhole (d : Scaled)
  /-- Right after the point. -/
  | point (d : Scaled)
  /-- Among the digits after the point. -/
  | fraction (d : Scaled)
  /-- Among the digits after the point, past those that fit the significand. -/
  | longFraction (d : Scaled)
  /-- Right after the exponent mark. -/
  | mark (d : Scaled)
  /-- Right after the sign of the exponent. -/
  | sign (d : Scaled) (down : Bool)
  /-- Among the digits of the exponent. -/
  | power (d : Scaled) (down : Bool) (written : Nat)
deriving DecidableEq, Repr

namespace Numeral

/-- What one character does to a numeral. -/
inductive Step where
  /-- The numeral goes on. -/
  | more (n : Numeral)
  /-- The character does not belong to the numeral, which is complete. -/
  | ends
  /-- The numeral is neither complete nor continued. -/
  | refused

/-- Begin a numeral with its first character, if one begins so. -/
def start? (negative : Bool) (c : Char) : Option Numeral :=
  match Text.digitValue? c with
  | some 0 => some (.zero negative)
  | some digit => some (.whole { negative, significand := digit })
  | none => none

/-- The point or the exponent mark after the digits before the point. -/
def afterWhole (d : Scaled) (c : Char) : Step :=
  if c = '.' then .more (.point d)
  else if c = 'e' ∨ c = 'E' then .more (.mark d)
  else .ends

/-- The exponent mark after the digits after the point. -/
def afterFraction (d : Scaled) (c : Char) : Step :=
  if c = 'e' ∨ c = 'E' then .more (.mark d) else .ends

/-- A digit after the point. -/
def fractionDigit (d : Scaled) (digit : Nat) : Step :=
  match d.withDigit? digit with
  | some longer => .more (.fraction { longer with exponent := d.exponent - 1 })
  | none => .more (.longFraction d)

def step (n : Numeral) (c : Char) : Step :=
  match n, Text.digitValue? c with
  | .minus, _ => match start? true c with
    | some n => .more n
    | none => .refused
  | .zero _, some _ => .refused
  | .zero negative, none => afterWhole { negative, significand := 0 } c
  | .whole d, some digit => match d.withDigit? digit with
    | some longer => .more (.whole longer)
    | none => .more (.longWhole { d with exponent := 1 })
  | .whole d, none => afterWhole d c
  | .longWhole d, some _ => .more (.longWhole { d with exponent := d.exponent + 1 })
  | .longWhole d, none => afterWhole d c
  | .point d, some digit => fractionDigit d digit
  | .point _, none => .refused
  | .fraction d, some digit => fractionDigit d digit
  | .fraction d, none => afterFraction d c
  | .longFraction d, some _ => .more (.longFraction d)
  | .longFraction d, none => afterFraction d c
  | .mark d, some digit => .more (.power d false digit)
  | .mark d, none =>
    if c = '+' then .more (.sign d false)
    else if c = '-' then .more (.sign d true)
    else .refused
  | .sign d down, some digit => .more (.power d down digit)
  | .sign _ _, none => .refused
  | .power d down written, some digit => .more (.power d down (written * 10 + digit))
  | .power _ _ _, none => .ends

/-- The number that a decimal without point and exponent stands for.  The negative zero and the
    negative numbers that do not fit a signed 64-bit word are doubles. -/
def wholeNumber? (d : Scaled) : Option Number :=
  let n : Int := if d.negative then -(d.significand : Int) else d.significand
  if d.negative ∧ (d.significand = 0 ∨ 0x8000000000000000 < d.significand) then d.toFloat?
  else Number.ofInt? n

/-- The number that a numeral stands for when nothing more follows. -/
def value (n : Numeral) : Except ReadError Number :=
  let complete (v : Option Number) := match v with
    | some v => .ok v
    | none => .error .malformed
  match n with
  | .zero negative => complete (wholeNumber? { negative, significand := 0 })
  | .whole d => complete (wholeNumber? d)
  | .longWhole d | .fraction d | .longFraction d => complete d.toFloat?
  | .power d down written =>
    let shift : Int := if down then -written else written
    complete { d with exponent := d.exponent + shift : Scaled }.toFloat?
  | .minus | .point _ | .mark _ | .sign _ _ => .error .unfinished

end Numeral

end SceneCode.Json
