import RevisedSimplex.Bounds
import RevisedSimplex.Context

/-!
# Basic rows

A `BasicRow` is a basic variable with its position, its value and its bounds.  The ratio tests and
the test for feasibility look at nothing else: how much the value violates the bounds, how far it
can move until it reaches the bound ahead, and which step takes it back to a bound.
-/

namespace RevisedSimplex

/-- A basic variable with its value and its bounds. -/
structure BasicRow (F : Type) [Scalar F] where
  /-- The position of the variable. -/
  position : Nat
  /-- The variable. -/
  owner : Nat
  value : F
  bounds : Bounds F

namespace BasicRow

variable {F : Type} [Scalar F]

/-- The amount by which the value violates the bounds. -/
def violation (tolerances : Tolerances F) (row : BasicRow F) : F :=
  row.bounds.violation tolerances.primal row.value

/-- The step after which the value, decreasing at a rate, reaches the bound ahead of it, relaxed by
a multiple of the tolerance.  Small rates reach none. -/
def reach? (tolerances : Tolerances F) (harris rate : F) (row : BasicRow F) : Option F :=
  if Scalar.magnitude rate < tolerances.ratioPivot then none
  else row.bounds.reach? (tolerances.primal * harris) row.value rate

/-- The signed step that moves the value, decreasing at a rate, onto the relaxed bound that it
violates.  Small rates give no step. -/
def repairStep (tolerances : Tolerances F) (harris rate : F) (row : BasicRow F) : F :=
  if Scalar.magnitude rate < tolerances.ratioPivot then 0
  else row.bounds.repairStep tolerances.primal (tolerances.primal * harris) row.value rate

end BasicRow

end RevisedSimplex
