import EntityQuery.Double.Basic

/-!
# Rounding to double precision

`ofRatio` rounds a quotient of natural numbers to the nearest double, a tie going to the even
mantissa. Products, quotients and decimal numerals are rounded through it, from exact values.
-/

namespace EntityQuery.Double

/-- The integer nearest to `num / den`, an exact half going to the even one. -/
def nearest (num den : Nat) : Nat :=
  let q := num / den
  let r := num % den
  if 2 * r < den then q
  else if den < 2 * r then q + 1
  else if q % 2 = 0 then q else q + 1

/-- The magnitude bits nearest to `num / den`. The step `e` (counted from `-1074`) is chosen so that
the mantissa has fifty-three bits, or is the least step; a mantissa that rounds up to `2 ^ 53`
carries into the exponent field. -/
def roundRatio (num den : Nat) : Nat :=
  if num = 0 then 0
  else
    let guess := num.log2 + 1074 - den.log2 - 53
    let e := if num * twoPow 1074 < twoPow 53 * (den * twoPow guess) then guess else guess + 1
    e * twoPow 52 + nearest (num * twoPow 1074) (den * twoPow e)

/-- The nearest double, or an infinity when the magnitude is too large. -/
def ofRatio (negative : Bool) (num den : Nat) : Double :=
  let m := roundRatio num den
  if 2047 * twoPow 52 ≤ m then infinity negative else ofMagnitude negative m

def ofNat (n : Nat) : Double := ofRatio false n 1

/-- The rounded product of two finite magnitudes. -/
def mul (a b : Double) : Double :=
  ofRatio false (a.ratio.1 * b.ratio.1) (a.ratio.2 * b.ratio.2)

/-- The rounded quotient of two finite magnitudes. -/
def div (a b : Double) : Double :=
  ofRatio false (a.ratio.1 * b.ratio.2) (a.ratio.2 * b.ratio.1)

/-- The double nearest to `digits * 10 ^ (up - down)`. Numerals beyond the range of the format are
cut off before the power is formed: `digits` has at most `width` digits. -/
def ofDecimal (negative : Bool) (digits width up down : Nat) : Double :=
  if digits = 0 then ofMagnitude negative 0
  else if 400 + down < up then infinity negative
  else if width + up + 400 < down then ofMagnitude negative 0
  else ofRatio negative (digits * tenPow (up - down)) (tenPow (down - up))

end EntityQuery.Double
