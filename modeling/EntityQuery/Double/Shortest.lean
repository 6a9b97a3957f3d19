import EntityQuery.Double.Basic

/-!
# The fewest digits that read back

The reals that round to a given double form an interval around it. `shortest` is the decimal
`digits * 10 ^ power` inside the interval with the fewest digits; of several the one nearest to the
double, and of two equally near ones the even one. All comparisons are exact, on magnitudes scaled
to natural numbers.

`Layout` holds what a text format decides: where positional notation ends and how an exponent is
written.
-/

namespace EntityQuery.Double

/-- A positive number and the ends of its rounding interval, above one common denominator. -/
structure Interval where
  low : Nat
  value : Nat
  high : Nat
  den : Nat
  /-- The ends themselves round to the number. -/
  closed : Bool

/-- The interval of a positive finite double, in quarters of its step. Below a power of two the
neighbour is half as far away. -/
def interval (d : Double) : Interval :=
  let m := d.mantissa
  let scale := twoPow d.exponent
  let below := if d.fraction = 0 && 1 < d.fieldExponent then 1 else 2
  { low := (4 * m - below) * scale
    value := 4 * m * scale
    high := (4 * m + 2) * scale
    den := 4 * twoPow 1074
    closed := m % 2 = 0 }

/-- Whether `num / den` lies in the interval. -/
def Interval.holds (i : Interval) (num den : Nat) : Bool :=
  let left := i.low * den
  let right := i.high * den
  let point := num * i.den
  if i.closed then left ≤ point && point ≤ right else left < point && point < right

/-- The multiples of `unit / den` on both sides of the value that lie in the interval; the nearer
one, or the even one when they are equally near. -/
def Interval.onGrid? (i : Interval) (unit den : Nat) : Option Nat :=
  let floor := i.value * den / (i.den * unit)
  let below := i.holds (floor * unit) den
  let above := i.holds ((floor + 1) * unit) den
  let rest := i.value * den - floor * unit * i.den
  let gap := (floor + 1) * unit * i.den - i.value * den
  if below && above then
    if rest < gap then some floor
    else if gap < rest then some (floor + 1)
    else if floor % 2 = 0 then some floor else some (floor + 1)
  else if below then some floor
  else if above then some (floor + 1)
  else none

/-- Tries the decimal grids from `10 ^ power` downwards, at most `tries` of them. -/
def Interval.search (i : Interval) : (tries : Nat) → (power : Int) → Nat × Int
  | 0, power => (0, power)
  | tries + 1, power =>
    let found :=
      if 0 ≤ power then i.onGrid? (tenPow power.toNat) 1 else i.onGrid? 1 (tenPow (-power).toNat)
    match found with
    | some digits => if digits = 0 then i.search tries (power - 1) else (digits, power)
    | none => i.search tries (power - 1)

/-- A power of ten above every double of the given exponent: the decimal logarithm of two is
below `0.30103`. -/
def startPower (d : Double) : Int :=
  ((d.mantissa.log2 + d.exponent : Int) - 1074) * 30103 / 100000 + 2

/-- Drops the zeros at the end of a numeral, counting them into the power. -/
def stripZeros : (fuel : Nat) → Nat × Int → Nat × Int
  | 0, r => r
  | fuel + 1, (digits, power) =>
    if digits ≠ 0 ∧ digits % 10 = 0 then stripZeros fuel (digits / 10, power + 1)
    else (digits, power)

/-- The shortest decimal of a positive finite double. -/
def shortest (d : Double) : Nat × Int :=
  stripZeros 20 (d.interval.search 24 d.startPower)

/-- What a text format of doubles decides. -/
structure Layout where
  /-- Least and greatest power of the first digit that is written positionally. -/
  leastPower : Int
  greatestPower : Int
  /-- The sign of a positive exponent. -/
  plus : String

/-- Exponents from `-5` to `15` are positional, and a positive exponent has no sign. -/
def plain : Layout := ⟨-5, 15, ""⟩

/-- As `plain`, with a sign before a positive exponent. -/
def signed : Layout := ⟨-5, 15, "+"⟩

/-- Writes `digits * 10 ^ power`; positional text always has a fraction. -/
def Layout.decimal (l : Layout) (digits : Nat) (power : Int) : String :=
  let ds := Nat.toDigits 10 digits
  let n : Int := ds.length
  let first := n + power - 1
  if l.leastPower ≤ first ∧ first ≤ l.greatestPower then
    if 0 ≤ power then
      String.ofList (ds ++ List.replicate power.toNat '0' ++ ['.', '0'])
    else if 0 ≤ first then
      let whole := (first + 1).toNat
      String.ofList (ds.take whole ++ '.' :: ds.drop whole)
    else
      String.ofList ('0' :: '.' :: (List.replicate (-first - 1).toNat '0' ++ ds))
  else
    let tail :=
      match ds with
      | [] | [_] => ds
      | d :: more => d :: '.' :: more
    let mark := if first < 0 then "e-" else "e" ++ l.plus
    String.ofList tail ++ mark ++ toString first.natAbs

/-- The text of a finite double. -/
def Layout.finite (l : Layout) (d : Double) : String :=
  let body :=
    if d.isZero then "0.0"
    else
      let (digits, power) := d.shortest
      l.decimal digits power
  if d.negative then "-" ++ body else body

/-- The text of any double. -/
def text (d : Double) : String :=
  if d.isNaN then "NaN"
  else if d.isInfinite then if d.negative then "-inf" else "inf"
  else plain.finite d

end EntityQuery.Double
