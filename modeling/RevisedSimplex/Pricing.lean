import RevisedSimplex.Iterate

/-!
# Pricing

In a primal iteration a `Candidate` is a nonbasic variable whose movement improves the objective,
and in a dual iteration a row is a candidate if its variable violates a bound.  A `PricingRule`
chooses among the candidates; it returns a place in the list it is given, and none for an empty
list.  Solvers are made with `dantzig` or `first`; `last` and `primalOnly` are stand-ins for tests.
-/

namespace RevisedSimplex

/-! ### Nonbasic variables -/

/-- A nonbasic variable with what is needed to let it enter. -/
structure Nonbasic (F : Type) where
  /-- The variable. -/
  index : Nat
  /-- The side it rests at, none if it is free. -/
  side : Option Side
  /-- Its column in the augmented system. -/
  column : SparseVector F

namespace Iterate

variable {F : Type} [Scalar F]

/-- A nonbasic variable, unless it is fixed. -/
def movableVariable? (tolerances : Tolerances F) (model : Model F) (iterate : Iterate F)
    (index : Nat) : Option (Option (Nonbasic F)) := do
  let bounds ← model.bounds? index
  if bounds.isFixed tolerances.primal then some none
  else
    let side ← iterate.restingSide? model index
    let column ← model.column? index
    some (some { index, side, column })

/-- The nonbasic variables that are not fixed, in increasing order. -/
def movable? (tolerances : Tolerances F) (model : Model F) (iterate : Iterate F) :
    Option (List (Nonbasic F)) := do
  let all ← iterate.basis.nonbasic.mapM (iterate.movableVariable? tolerances model)
  some (all.filterMap id)

end Iterate

/-! ### Candidates -/

/-- A nonbasic variable that improves the objective when it moves. -/
structure Candidate (F : Type) where
  /-- The variable. -/
  index : Nat
  /-- The change of the objective for a unit step upwards. -/
  reducedCost : F
  /-- The direction of improvement, plus or minus one. -/
  direction : F

namespace Candidate

variable {F : Type} [Scalar F]

/-- The direction in which a variable with a given reduced cost improves the objective. -/
def improvingDirection? (dual : F) (reducedCost : F) : Option Side → Option F
  | some .lower => if reducedCost < -dual then some Side.lower.direction else none
  | some .upper => if dual < reducedCost then some Side.upper.direction else none
  | none =>
      if dual < Scalar.magnitude reducedCost then some (-(Scalar.signOf reducedCost)) else none

/-- The candidates among some nonbasic variables, given row `0` of the inverse. -/
def list? (tolerances : Tolerances F) (multipliers : DenseVector F)
    (nonbasic : List (Nonbasic F)) : Option (List (Candidate F)) := do
  let priced ← nonbasic.mapM fun x => do
    let reducedCost ← x.column.inner? multipliers
    some (x, reducedCost)
  some <| priced.filterMap fun (x, reducedCost) =>
    (improvingDirection? tolerances.dual reducedCost x.side).map fun direction =>
      { index := x.index, reducedCost, direction }

end Candidate

/-! ### Rules -/

/-- A choice of one half of each pivot. -/
structure PricingRule (F : Type) where
  /-- Chooses the entering variable of a primal iteration. -/
  selectEntering : List (Candidate F) → Option Nat
  /-- Chooses the leaving row of a dual iteration among the rows and their violations. -/
  selectLeaving : List (Nat × F) → Option Nat

namespace PricingRule

variable {F : Type} [Scalar F]

/-- The place of the first largest value.  A value also replaces one that it cannot be compared
with. -/
def firstLargest? (values : List F) : Option Nat :=
  (values.zipIdx.foldl
    (fun best entry => match best with
      | some (value, place) => if entry.1 ≤ value then some (value, place) else some entry
      | none => some entry)
    none).map Prod.snd

/-- The first place of a list. -/
def firstPlace? {α : Type} : List α → Option Nat
  | [] => none
  | _ :: _ => some 0

/-- The last place of a list. -/
def lastPlace? {α : Type} : List α → Option Nat
  | [] => none
  | _ :: rest => some rest.length

/-- The largest reduced cost enters and the largest violation leaves. -/
def dantzig : PricingRule F where
  selectEntering candidates :=
    firstLargest? (candidates.map fun candidate => Scalar.magnitude candidate.reducedCost)
  selectLeaving violations := firstLargest? (violations.map Prod.snd)

/-- The first candidate enters and the first row leaves. -/
def first : PricingRule F where
  selectEntering := firstPlace?
  selectLeaving := firstPlace?

/-- The last candidate enters and the last row leaves.  A stand-in for tests, in which the order of
the candidates shows. -/
def last : PricingRule F where
  selectEntering := lastPlace?
  selectLeaving := lastPlace?

/-- The largest reduced cost enters, and no row is ever chosen to leave.  A stand-in for tests, with
which a solver never leaves an infeasible basis. -/
def primalOnly : PricingRule F where
  selectEntering := dantzig.selectEntering
  selectLeaving _ := none

end PricingRule

end RevisedSimplex
