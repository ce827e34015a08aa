/-!
# Binary numbers

A finite double is a sign together with a natural number `mantissa * 2 ^ exponent`.
`BinaryNumber.ofFloat` reads this form off the bits of a double, and sets infinite and undefined
doubles apart.  All decimal texts are computed from it in exact arithmetic.
-/

namespace RevisedSimplex

/-- What a double stands for. -/
inductive BinaryNumber where
  /-- No number at all. -/
  | undefined
  /-- Beyond all numbers, on the negative side if `negative` holds. -/
  | infinite (negative : Bool)
  /-- The number `mantissa * 2 ^ exponent`, negated if `negative` holds. -/
  | finite (negative : Bool) (mantissa : Nat) (exponent : Int)
deriving DecidableEq

namespace BinaryNumber

/-- The mantissa of a normal double is at least this. -/
def normalMantissa : Nat := Nat.pow 2 52

/-- The exponent of the smallest doubles. -/
def leastExponent : Int := -1074

/-- The number with the given sign, exponent field and fraction field. -/
def ofFields (negative : Bool) (exponentField fraction : Nat) : BinaryNumber :=
  if exponentField = 2047 then
    if fraction = 0 then infinite negative else undefined
  else if exponentField = 0 then
    finite negative fraction leastExponent
  else
    finite negative (normalMantissa + fraction) (leastExponent + (exponentField - 1))

/-- The number a double stands for. -/
def ofFloat (x : Float) : BinaryNumber :=
  let bits := x.toBits.toNat
  ofFields (decide (Nat.pow 2 63 ≤ bits)) (bits / normalMantissa % 2048) (bits % normalMantissa)

end BinaryNumber

end RevisedSimplex
