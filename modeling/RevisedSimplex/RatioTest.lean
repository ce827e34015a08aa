import RevisedSimplex.Pricing

/-!
# Ratio tests

A ratio test finds the other half of a pivot.  Both tests take two passes: the first one finds the
smallest step with the bounds, or the reduced costs, relaxed by a tolerance, and the second one
chooses the largest pivot among those that block within that step exactly.  A little infeasibility
is traded for pivots that are safe to divide by.

The primal test looks for the row that blocks the entering variable, and the dual test for the
variable that enters for the leaving row.
-/

namespace RevisedSimplex

variable {F : Type} [Scalar F]

/-- The smallest of some steps, where a missing step is infinite and an undefined one does not
count. -/
def smallestStep? (steps : List (Option F)) : Option F :=
  steps.foldl
    (fun bound step => match bound, step with
      | some a, some b => some (Scalar.smaller a b)
      | some a, none => some a
      | none, some b => if Scalar.isNaN b then none else some b
      | none, none => none)
    none

/-- The first element with the largest weight. -/
def heaviest? {α : Type} (weight : α → F) (elements : List α) : Option α :=
  elements.foldl
    (fun best x => match best with
      | some y => if weight y < weight x then some x else some y
      | none => some x)
    none

/-! ### The primal test -/

/-- A row with its entry of the pivot column. -/
structure PivotEntry (F : Type) [Scalar F] where
  row : BasicRow F
  alpha : F

/-- The step after which a row blocks, with its bounds relaxed by a multiple of the tolerance. -/
def PivotEntry.reach? (tolerances : Tolerances F) (harris direction : F) (entry : PivotEntry F) :
    Option F :=
  entry.row.reach? tolerances harris (direction * entry.alpha)

/-- The blocking row and the step length of an entering variable that moves in a direction. -/
def primalRatioTest? (tolerances : Tolerances F) (direction : F) (entries : List (PivotEntry F)) :
    Option (Nat × F) := do
  let large := entries.filter fun entry => tolerances.ratioPivot ≤ Scalar.magnitude entry.alpha
  let relaxed := large.map (PivotEntry.reach? tolerances tolerances.harris direction)
  let bound ← (smallestStep? relaxed).filter fun bound => Scalar.isFinite bound
  let blocking := large.filterMap fun entry =>
    ((entry.reach? tolerances 0 direction).filter fun step => step ≤ bound).map fun step =>
      (entry, step)
  let (entry, step) ← heaviest? (fun (entry, _) => Scalar.magnitude entry.alpha) blocking
  some (entry.row.position, step)

/-! ### The dual test -/

/-- A nonbasic variable with its reduced cost and its entry of the pivot row. -/
structure PivotRowEntry (F : Type) where
  /-- The variable. -/
  index : Nat
  /-- The side it rests at, none if it is free. -/
  side : Option Side
  reducedCost : F
  alpha : F

/-- A nonbasic variable that can move the leaving variable towards its bound. -/
structure Eligible (F : Type) where
  /-- The variable. -/
  index : Nat
  /-- The direction in which it moves. -/
  direction : F
  /-- The magnitude of its entry of the pivot row. -/
  magnitude : F
  /-- Its reduced cost in the direction of movement, not less than zero. -/
  cost : F

namespace PivotRowEntry

/-- The entries of some nonbasic variables, given row `0` and the leaving row of the inverse. -/
def list? (multipliers pivotRow : DenseVector F) (nonbasic : List (Nonbasic F)) :
    Option (List (PivotRowEntry F)) :=
  nonbasic.mapM fun x => do
    let reducedCost ← x.column.inner? multipliers
    let alpha ← x.column.inner? pivotRow
    some { index := x.index, side := x.side, reducedCost, alpha }

/-- Whether the reduced cost has the right sign for the side. -/
def isDualFeasible (dual : F) (entry : PivotRowEntry F) : Bool :=
  match entry.side with
  | some .lower => -dual ≤ entry.reducedCost
  | some .upper => entry.reducedCost ≤ dual
  | none => Scalar.magnitude entry.reducedCost ≤ dual

/-- The direction in which a variable leaves its bound.  A free one goes where it helps. -/
def direction (increase : Bool) (entry : PivotRowEntry F) : F :=
  match entry.side with
  | some side => side.direction
  | none => if increase then -(Scalar.signOf entry.alpha) else Scalar.signOf entry.alpha

/-- The variable as one that moves the leaving variable up, or else down. -/
def eligible? (ratioPivot : F) (increase : Bool) (entry : PivotRowEntry F) :
    Option (Eligible F) :=
  let direction := entry.direction increase
  let rate := -direction * entry.alpha
  let helps := if increase then decide (0 < rate) else decide (rate < 0)
  if Scalar.magnitude entry.alpha < ratioPivot || !helps then none
  else some
    { index := entry.index, direction
      magnitude := Scalar.magnitude entry.alpha
      cost := Scalar.larger (direction * entry.reducedCost) 0 }

end PivotRowEntry

/-- The eligible variables that keep all reduced costs within the tolerance. -/
def Eligible.withinRatio (tolerances : Tolerances F) (eligible : List (Eligible F)) :
    List (Eligible F) :=
  let relaxation := tolerances.dual * tolerances.harris
  let bound? := smallestStep? <| eligible.map fun x => some ((x.cost + relaxation) / x.magnitude)
  eligible.filter fun x =>
    let ratio := x.cost / x.magnitude
    match bound? with
    | some bound => decide (ratio ≤ bound)
    | none => !Scalar.isNaN ratio

/-- The entering variable of a dual iteration and its direction.  The reduced costs count only if
all of them have the right sign. -/
def dualRatioTest? (tolerances : Tolerances F) (increase : Bool)
    (entries : List (PivotRowEntry F)) : Option (Eligible F) :=
  let eligible := entries.filterMap (PivotRowEntry.eligible? tolerances.ratioPivot increase)
  let considered :=
    if entries.all (PivotRowEntry.isDualFeasible tolerances.dual) then
      Eligible.withinRatio tolerances eligible
    else eligible
  heaviest? Eligible.magnitude considered

end RevisedSimplex
