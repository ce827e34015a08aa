import RevisedSimplex.Decimal.Binary

/-!
# Shortest decimals

The doubles cut the positive numbers into intervals, each of which rounds to one double.
`RoundingInterval.shortest` finds the decimal of fewest digits in the interval of a double, and of
those the one nearest to the double, upwards from the middle.  If a point of a decimal grid lies
in an interval then so does one of the two neighbours of the double on that grid, so only these
are looked at.
-/

namespace RevisedSimplex

/-- The number `digits * 10 ^ exponent`. -/
structure Decimal where
  digits : Nat
  exponent : Int
deriving DecidableEq

/-- The numerator of `base ^ exponent`. -/
def powerAbove (base : Nat) (exponent : Int) : Nat :=
  Nat.pow base exponent.toNat

/-- The denominator of `base ^ exponent`. -/
def powerBelow (base : Nat) (exponent : Int) : Nat :=
  Nat.pow base (-exponent).toNat

/-- Whether `x * 2 ^ e ≤ y * 10 ^ k`, in natural numbers. -/
def atMostDecimal (x : Nat) (e : Int) (y : Nat) (k : Int) : Bool :=
  decide (x * powerAbove 2 e * powerBelow 10 k ≤ y * powerAbove 10 k * powerBelow 2 e)

/-- Whether `y * 10 ^ k ≤ x * 2 ^ e`, in natural numbers. -/
def atLeastDecimal (x : Nat) (e : Int) (y : Nat) (k : Int) : Bool :=
  decide (y * powerAbove 10 k * powerBelow 2 e ≤ x * powerAbove 2 e * powerBelow 10 k)

/-- The integer part of `x * 2 ^ e / 10 ^ k`. -/
def decimalFloor (x : Nat) (e k : Int) : Nat :=
  x * powerAbove 2 e * powerBelow 10 k / (powerAbove 10 k * powerBelow 2 e)

/-- The number of decimal digits of a natural number. -/
def digitCount (n : Nat) : Nat :=
  (Nat.toDigits 10 n).length

/-- The exponent `k` with `10 ^ k ≤ x * 2 ^ e < 10 ^ (k + 1)`, for a positive `x`. -/
def decimalExponent (x : Nat) (e : Int) : Int :=
  let above := x * powerAbove 2 e
  let below := powerBelow 2 e
  if below ≤ above then (digitCount (above / below) : Int) - 1
  else -(digitCount ((below - 1) / above) : Int)

/-- The numbers from `low * 2 ^ scale` to `high * 2 ^ scale` round to `value * 2 ^ scale`, the
ends among them if the interval is `closed`. -/
structure RoundingInterval where
  low : Nat
  value : Nat
  high : Nat
  scale : Int
  closed : Bool

namespace RoundingInterval

/-- The numbers that round to `mantissa * 2 ^ exponent`.  The ends go to the even mantissa, and
below a power of two the doubles lie twice as close. -/
def of (mantissa : Nat) (exponent : Int) : RoundingInterval where
  low :=
    if mantissa = BinaryNumber.normalMantissa ∧ exponent ≠ BinaryNumber.leastExponent then
      4 * mantissa - 1
    else 4 * mantissa - 2
  value := 4 * mantissa
  high := 4 * mantissa + 2
  scale := exponent - 2
  closed := mantissa % 2 == 0

/-- Whether `digits * 10 ^ exponent` lies in the interval. -/
def contains (interval : RoundingInterval) (digits : Nat) (exponent : Int) : Bool :=
  if interval.closed then
    atMostDecimal interval.low interval.scale digits exponent
      && atLeastDecimal interval.high interval.scale digits exponent
  else
    !atLeastDecimal interval.low interval.scale digits exponent
      && !atMostDecimal interval.high interval.scale digits exponent

/-- The multiple of `10 ^ exponent` in the interval that is nearest to its value, the larger one
of two. -/
def nearest? (interval : RoundingInterval) (exponent : Int) : Option Decimal :=
  let below := decimalFloor interval.value interval.scale exponent
  let above := below + 1
  if interval.contains below exponent then
    if interval.contains above exponent
        && atLeastDecimal (2 * interval.value) interval.scale (below + above) exponent then
      some ⟨above, exponent⟩
    else some ⟨below, exponent⟩
  else if interval.contains above exponent then some ⟨above, exponent⟩
  else none

/-- The decimal of fewest digits in the interval.  Seventeen digits are always enough. -/
def shortest (interval : RoundingInterval) : Decimal :=
  let leading := decimalExponent interval.value interval.scale
  let last := leading - 16
  ((List.range 17).findSome? fun (digits : Nat) => interval.nearest? (leading - digits)).getD
    ⟨decimalFloor interval.value interval.scale last, last⟩

end RoundingInterval

/-- The decimal with its trailing zeros moved into the exponent, given as many steps as it has
digits. -/
def Decimal.normalize (number : Decimal) : Decimal :=
  strip (digitCount number.digits) number
where
  /-- Moves at most `steps` trailing zeros. -/
  strip : Nat → Decimal → Decimal
    | 0, number => number
    | steps + 1, number =>
        if number.digits ≠ 0 ∧ number.digits % 10 = 0 then
          strip steps ⟨number.digits / 10, number.exponent + 1⟩
        else number

/-- The shortest decimal that rounds to the positive number `mantissa * 2 ^ exponent`. -/
def Decimal.shortest (mantissa : Nat) (exponent : Int) : Decimal :=
  (RoundingInterval.of mantissa exponent).shortest.normalize

end RevisedSimplex
