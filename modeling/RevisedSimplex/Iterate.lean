import RevisedSimplex.BasicRow
import RevisedSimplex.Basis
import RevisedSimplex.Factorization

/-!
# Iterates

An `Iterate` is a point that the method has come to: a basis, the values of its basic variables,
and the solved column of the variable that may enter next.  Position `0` of the values holds minus
the objective of the minimization.  `recompute?` finds the values from scratch, `perform?` carries
out one iteration on them: a major pivot exchanges a basic variable, a bound flip moves the
entering variable to its other bound.

The values and columns are current only while the factorization represents the basis; a change
from outside makes the iterate stale until `refactorize?`.
-/

namespace RevisedSimplex

/-- A basis with the values of its variables. -/
structure Iterate (F : Type) where
  basis : Basis
  /-- The values of the basic variables by position. -/
  values : DenseVector F
  /-- The solved column of the last variable that was considered for entering. -/
  pivotColumn : DenseVector F
  /-- Whether the factorization represents the basis. -/
  current : Bool := false
  majorPivots : Nat := 0
  boundFlips : Nat := 0

namespace Iterate

variable {F R : Type} [Scalar F] [BasisFactorization R F]

/-! ### Reading -/

/-- A start from a basis, before its factorization. -/
def start (basis : Basis) : Iterate F :=
  { basis
    values := .zero (basis.nrRows + 1)
    pivotColumn := .zero (basis.nrRows + 1) }

/-- The number of iterations of both kinds. -/
def nrIterations (iterate : Iterate F) : Nat :=
  iterate.majorPivots + iterate.boundFlips

/-- The objective of the minimization. -/
def objective (iterate : Iterate F) : F :=
  -(iterate.values.headD 0)

/-- The basic variable at a position. -/
def row? (model : Model F) (iterate : Iterate F) (position : Nat) : Option (BasicRow F) := do
  let owner ← iterate.basis.variableAt? position
  let value ← iterate.values[position]?
  let bounds ← model.bounds? owner
  some { position, owner, value, bounds }

/-- The basic variables of the rows, the objective dummy excluded. -/
def rows? (model : Model F) (iterate : Iterate F) : Option (List (BasicRow F)) :=
  (List.range' 1 (iterate.values.length - 1)).mapM (iterate.row? model)

/-- The rows that violate their bounds, with the amounts. -/
def violations? (tolerances : Tolerances F) (model : Model F) (iterate : Iterate F) :
    Option (List (Nat × F)) := do
  let rows ← iterate.rows? model
  let amounts := rows.map fun row => (row.position, row.violation tolerances)
  some (amounts.filter fun amount => 0 < amount.2)

/-- Whether no row violates its bounds. -/
def isFeasible? (tolerances : Tolerances F) (model : Model F) (iterate : Iterate F) :
    Option Bool := do
  let rows ← iterate.rows? model
  some (rows.all fun row => row.violation tolerances == 0)

/-- The side that a variable rests at if it is nonbasic. -/
def restingSide? (model : Model F) (iterate : Iterate F) (v : Nat) : Option (Option Side) := do
  let bounds ← model.bounds? v
  let stored ← iterate.basis.side? v
  some (bounds.restingSide? stored)

/-- The value of a nonbasic variable. -/
def restingValue? (model : Model F) (iterate : Iterate F) (v : Nat) : Option F := do
  let bounds ← model.bounds? v
  let stored ← iterate.basis.side? v
  if iterate.basis.isNonbasic v then some (bounds.restingValue stored) else none

/-- The value of any variable. -/
def value? (model : Model F) (iterate : Iterate F) (v : Nat) : Option F :=
  match iterate.basis.positionOf? v with
  | some position => iterate.values[position]?
  | none => iterate.restingValue? model v

/-! ### Values from scratch -/

/-- The right hand side of the augmented system. -/
def augmentedRightHandSide? (model : Model F) (nrRows : Nat) : Option (DenseVector F) :=
  ((List.range' 1 nrRows).mapM model.rightHandSide?).map (0 :: ·)

/-- Moves a nonbasic variable at its value to the right hand side. -/
def moveToRight? (model : Model F) (iterate : Iterate F) (rightHandSide : DenseVector F)
    (v : Nat) : Option (DenseVector F) := do
  let value ← iterate.restingValue? model v
  if value == 0 then some rightHandSide
  else
    let column ← model.column? v
    column.foldlM
      (fun (vector : DenseVector F) entry => vector.modify? entry.1 (· - entry.2 * value))
      rightHandSide

/-- The values of the basic variables that solve the system for the current nonbasic values.
Those below the primal tolerance are zeroed. -/
def recompute? (context : Context F) (model : Model F) (factorization : R)
    (iterate : Iterate F) : Option (Iterate F) := do
  let start ← augmentedRightHandSide? model iterate.basis.nrRows
  let moved ← iterate.basis.nonbasic.foldlM (iterate.moveToRight? model) start
  let solved ← BasisFactorization.ftran? context factorization moved
  some { iterate with values := DenseVector.roundAbsolute context.tolerances.primal solved }

/-- Factorizes the basis, takes over what the factorization has made of it, and finds the values
from scratch. -/
def refactorize? (context : Context F) (model : Model F) (factorization : R)
    (iterate : Iterate F) : Option (Outcome (Iterate F × R) Factorization) := do
  let outcome ←
    BasisFactorization.factorize? context model iterate.basis.basic factorization
  let basis ← iterate.basis.applyPositions? outcome.result.positions model
  let iterate ← recompute? context model outcome.state { iterate with basis }
  some
    { result := outcome.result
      state := ({ iterate with current := true }, outcome.state)
      events := outcome.events }

/-- The iterate with another basis of the same size. -/
def setBasis? (basis : Basis) (iterate : Iterate F) : Option (Iterate F) :=
  if basis.nrRows + 1 = iterate.values.length then
    some { iterate with basis, current := false }
  else none

/-- The iterate with a basis that has to be factorized again. -/
def invalidate (iterate : Iterate F) : Iterate F :=
  { iterate with current := false }

/-! ### Entering -/

/-- The iterate with the solved column of a nonbasic variable as its pivot column. -/
def loadColumn? (context : Context F) (model : Model F) (factorization : R) (entering : Nat)
    (iterate : Iterate F) : Option (Iterate F) :=
  if iterate.basis.isNonbasic entering then do
    let column ← model.column? entering
    let dense ← column.toDense? iterate.pivotColumn.length
    let pivotColumn ← BasisFactorization.ftran? context factorization dense
    some { iterate with pivotColumn }
  else none

/-- The weight of a row in the balance of `isDegenerate?`: the rate at which a variable at a bound
moves further towards it. -/
def blockingRate (tolerance rate : F) (row : BasicRow F) : F :=
  if row.bounds.isAt .lower tolerance row.value then rate
  else if row.bounds.isAt .upper tolerance row.value then -rate
  else 0

/-- Whether the rows at a bound on balance move further into it when a variable with the given
column enters in a direction. -/
def isDegenerate? (tolerances : Tolerances F) (model : Model F) (column : DenseVector F)
    (direction : F) (iterate : Iterate F) : Option Bool := do
  let total ← (column.zipIdx.drop 1).foldlM
    (fun (total : F) entry =>
      if entry.1 == 0 then some total
      else do
        let row ← iterate.row? model entry.2
        some (total + blockingRate tolerances.primal (direction * entry.1) row))
    0
  some (decide (0 < total))

/-- Whether a step of the entering variable takes it to its other bound.  Without a leaving row it
does, and the dual method always exchanges.  Otherwise the other bound has to come before the
leaving row blocks. -/
def isBoundFlip? (tolerances : Tolerances F) (model : Model F) (leavingRow : Option Nat)
    (entering : Nat) (theta : F) (primal : Bool) : Option Bool :=
  match leavingRow, primal with
  | none, _ => some true
  | some _, false => some false
  | some _, true => do
      let bounds ← model.bounds? entering
      some (!bounds.isFixed tolerances.primal
        && bounds.range?.any fun range => range - Scalar.magnitude theta < -tolerances.primal)

/-! ### Iterations -/

/-- Moves the entering variable to its other bound, in the direction of the step. -/
def flip? (entering : Nat) (theta : F) (range : F) (iterate : Iterate F) : Option (Iterate F) := do
  let step := if theta < 0 then -range else range
  let values ← iterate.values.subtractMultiple? step iterate.pivotColumn
  let basis ← iterate.basis.flip? entering
  some { iterate with basis, values, boundFlips := iterate.boundFlips + 1 }

/-- Exchanges the variable of a row for the entering one after a step.  The leaving variable goes
to the bound it has come closest to. -/
def exchange? (tolerances : Tolerances F) (model : Model F) (row entering : Nat) (theta : F)
    (iterate : Iterate F) : Option (Iterate F) := do
  let resting ← iterate.restingValue? model entering
  let moved ← iterate.values.subtractMultiple? theta iterate.pivotColumn
  let leavingValue ← moved[row]?
  let (leaving, exchanged) ← iterate.basis.exchange? row entering
  let bounds ← model.bounds? leaving
  let basis ← exchanged.setSide? leaving (bounds.closestSide tolerances.primal leavingValue)
  let values ← moved.set? row (resting + theta)
  some { iterate with basis, values, majorPivots := iterate.majorPivots + 1 }

/-- The event of an iteration. -/
def iterationEvent (kind : IterationKind) (primal : Bool) (entering : Nat)
    (leavingRow : Option Nat) (theta : F) (after : Iterate F) : Event :=
  .iterated kind primal entering leavingRow (Scalar.toFloat theta) (Scalar.toFloat after.objective)

/-- Carries out an iteration with the current pivot column.  A major pivot has to be staged in the
factorization first. -/
def perform? (context : Context F) (model : Model F) (factorization : R)
    (leavingRow : Option Nat) (entering : Nat) (theta : F) (primal : Bool)
    (iterate : Iterate F) : Option (Outcome (Iterate F × R) (Except Error IterationKind)) :=
  if !iterate.current then none
  else do
    let event (kind : IterationKind) (after : Iterate F) :=
      iterationEvent kind primal entering leavingRow theta after
    if ← isBoundFlip? context.tolerances model leavingRow entering theta primal then
      let bounds ← model.bounds? entering
      match bounds.finiteRange? with
      | none =>
          some { result := .error (.unboundedFlip entering), state := (iterate, factorization) }
      | some range =>
          let after ← iterate.flip? entering theta range
          some
            { result := .ok .boundFlip
              state := (after, factorization)
              events := [event .boundFlip after] }
    else
      match leavingRow with
      | none => some { result := .error .noStagedColumn, state := (iterate, factorization) }
      | some row =>
          let finished ← BasisFactorization.finishUpdate? false factorization
          if finished.result then
            let after ← iterate.exchange? context.tolerances model row entering theta
            some
              { result := .ok .majorPivot
                state := (after, finished.state)
                events := finished.events ++ [event .majorPivot after] }
          else
            some
              { result := .error .noStagedColumn
                state := (iterate, finished.state)
                events := finished.events }

end Iterate

end RevisedSimplex
