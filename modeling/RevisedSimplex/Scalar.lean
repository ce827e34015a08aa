/-!
# Scalars

`Scalar F` collects what the simplex method asks of its numbers: the four operations, an order
that can be decided, an equality test, and the few facts that a machine number adds, namely
whether it is finite, whether it is undefined, and the machine epsilon.  `Float` and `Float32`
are scalars.  `magnitude`, `larger`, `smaller` and `signOf` are derived from these, in the form
that passes over an undefined operand when the other one is a number.
-/

namespace RevisedSimplex

/-- The numbers the method computes with. -/
class Scalar (F : Type) where
  [toAdd : Add F]
  [toSub : Sub F]
  [toMul : Mul F]
  [toDiv : Div F]
  [toNeg : Neg F]
  [toZero : Zero F]
  [toOne : One F]
  [toLT : LT F]
  [toLE : LE F]
  [toBEq : BEq F]
  /-- The strict order is decidable. -/
  [ltDecidable : DecidableLT F]
  /-- The order is decidable. -/
  [leDecidable : DecidableLE F]
  /-- Zero is not undefined. -/
  zero_le_zero : (0 : F) ≤ 0
  /-- Whether a number is neither infinite nor undefined. -/
  isFinite : F → Bool
  /-- Whether a number is undefined. -/
  isNaN : F → Bool
  /-- The distance from one to the next larger number. -/
  epsilon : F
  /-- The number nearest to a double. -/
  ofFloat : Float → F
  /-- The double nearest to a number, for reports. -/
  toFloat : F → Float

namespace Scalar

/-! ### Operations

Numbers that have operations of their own are read with these. -/

variable {F : Type} [Scalar F]

instance (priority := 100) : Add F := toAdd

instance (priority := 100) : Sub F := toSub

instance (priority := 100) : Mul F := toMul

instance (priority := 100) : Div F := toDiv

instance (priority := 100) : Neg F := toNeg

instance (priority := 100) : Zero F := toZero

instance (priority := 100) : One F := toOne

instance (priority := 100) : LT F := toLT

instance (priority := 100) : LE F := toLE

instance (priority := 100) : BEq F := toBEq

instance (priority := 100) : DecidableLT F := ltDecidable

instance (priority := 100) : DecidableLE F := leDecidable

/-- The absolute value. -/
def magnitude (x : F) : F :=
  if x < 0 then -x else x

/-- The larger of two numbers, the defined one if the other is undefined. -/
def larger (a b : F) : F :=
  if isNaN a then b
  else if isNaN b then a
  else if a < b then b else a

/-- The smaller of two numbers, the defined one if the other is undefined. -/
def smaller (a b : F) : F :=
  if isNaN a then b
  else if isNaN b then a
  else if b < a then b else a

/-- What a sum of no numbers is.  Machine numbers have it negative, so that adding to it changes no
number. -/
def emptySum : F :=
  -0

/-- Minus one for a negative number, one otherwise. -/
def signOf (x : F) : F :=
  if x < 0 then -1 else 1

end Scalar

/-! ### Machine numbers -/

instance : Scalar Float where
  toZero := ⟨0⟩
  toOne := ⟨1⟩
  zero_le_zero := by decide
  isFinite := Float.isFinite
  isNaN := Float.isNaN
  epsilon := 2.220446049250313e-16
  ofFloat := id
  toFloat := id

/-- The single precision number nearest to a double. -/
def nearestSingle (x : Float) : Float32 :=
  .ofModel <| .pack <|
    match x.toModel.unpack with
    | .finite sign mantissa exponent _ => .round .binary32 sign mantissa exponent
    | special => special

instance : Scalar Float32 where
  toZero := ⟨0⟩
  toOne := ⟨1⟩
  zero_le_zero := by decide
  isFinite := Float32.isFinite
  isNaN := Float32.isNaN
  epsilon := 1.1920929e-7
  ofFloat := nearestSingle
  toFloat := Float32.toFloat

end RevisedSimplex
