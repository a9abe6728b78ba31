/-!
# Digits of natural numbers

Numbers are written in base ten, in base ten with a sign, in base ten padded to a width, and in
base sixteen padded to a width.  Digits are read in both bases.
-/

namespace SceneCode.Text

/-- The decimal digits of a natural number, without leading zeros. -/
def decimal (n : Nat) : String :=
  String.ofList (Nat.toDigits 10 n)

/-- The decimal digits of an integer, after a minus sign when it is negative. -/
def signedDecimal (n : Int) : String :=
  if n < 0 then "-" ++ decimal n.natAbs else decimal n.natAbs

/-- The decimal digits of a natural number, filled with zeros on the left up to `width`
    characters.  A number with more digits keeps them all. -/
def paddedDecimal (width n : Nat) : String :=
  String.ofList (List.leftpad width '0' (Nat.toDigits 10 n))

/-- The hexadecimal digits of a natural number, in small letters, filled with zeros on the left up
    to `width` characters. -/
def paddedHex (width n : Nat) : String :=
  String.ofList (List.leftpad width '0' (Nat.toDigits 16 n))

def digitValue? (c : Char) : Option Nat :=
  if c.isDigit then some (c.toNat - '0'.toNat) else none

/-- The value of a hexadecimal digit character, in either case. -/
def hexDigitValue? (c : Char) : Option Nat :=
  if c.isDigit then some (c.toNat - '0'.toNat)
  else if 'a' ≤ c ∧ c ≤ 'f' then some (c.toNat - 'a'.toNat + 10)
  else if 'A' ≤ c ∧ c ≤ 'F' then some (c.toNat - 'A'.toNat + 10)
  else none

end SceneCode.Text
