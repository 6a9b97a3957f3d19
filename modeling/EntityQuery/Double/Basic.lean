import EntityQuery.Power

/-!
# Double precision numbers by their bits

A `Double` is the 64-bit pattern of an IEEE 754 binary64 number: a sign bit, eleven exponent bits
and fifty-two fraction bits. Keeping the pattern makes every question about it a question about
natural numbers. A finite magnitude is `mantissa * 2 ^ (exponent - 1074)`.
-/

namespace EntityQuery

structure Double where
  bits : UInt64
  deriving DecidableEq, Inhabited

namespace Double

def negative (d : Double) : Bool := twoPow 63 ≤ d.bits.toNat

/-- The bits without the sign. -/
def magnitude (d : Double) : Nat := d.bits.toNat % twoPow 63

def fieldExponent (d : Double) : Nat := d.magnitude / twoPow 52

def fraction (d : Double) : Nat := d.magnitude % twoPow 52

def isNaN (d : Double) : Bool := d.fieldExponent == 2047 && d.fraction != 0

def isInfinite (d : Double) : Bool := d.fieldExponent == 2047 && d.fraction == 0

def isZero (d : Double) : Bool := d.magnitude == 0

/-- Numeric equality: no number equals NaN, and the two zeros are equal. -/
def eqv (a b : Double) : Bool :=
  !a.isNaN && !b.isNaN && (a.bits == b.bits || (a.isZero && b.isZero))

def mantissa (d : Double) : Nat :=
  if d.fieldExponent = 0 then d.fraction else twoPow 52 + d.fraction

/-- Counted from `-1074`, the exponent of the least positive number. -/
def exponent (d : Double) : Nat := d.fieldExponent - 1

def ofMagnitude (negative : Bool) (magnitude : Nat) : Double :=
  ⟨UInt64.ofNat (if negative then twoPow 63 + magnitude else magnitude)⟩

def infinity (negative : Bool) : Double := ofMagnitude negative (2047 * twoPow 52)

def nan : Double := ofMagnitude false (2047 * twoPow 52 + twoPow 51)

/-- A finite magnitude as a quotient of natural numbers. -/
def ratio (d : Double) : Nat × Nat :=
  (d.mantissa * twoPow d.exponent, twoPow 1074)

end Double

end EntityQuery
