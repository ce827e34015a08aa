import RevisedSimplex.Bounds
import RevisedSimplex.ColumnMatrix
import RevisedSimplex.Error

/-!
# Models

A `Model` is a linear program `A x + s = b` with `m` rows and `n` columns and with bounds on all
variables, the slacks `s` included.  Its augmented system has the objective as row `0`, and its
variables are numbered

* `0` for the objective dummy, the unit column of row `0`, which is free,
* `1` to `m` for the slacks, slack `i` being the unit column of row `i`,
* `m + 1` to `m + n` for the structural variables, with their costs in row `0`.

The costs are those of a minimization; those of a maximization are negated when the model is
made.  The relation of a row decides the first bounds of its slack, and the bounds of every
variable but the dummy can be changed.
-/

namespace RevisedSimplex

/-- How the left hand side of a row compares with the right hand side. -/
inductive Relation where
  | less
  | equal
  | greater
deriving DecidableEq, Repr

/-- Whether the objective is to be small or large. -/
inductive Goal where
  | minimize
  | maximize
deriving DecidableEq, Repr, Inhabited

/-- What the number of a variable refers to. -/
inductive VariableKind where
  /-- The objective dummy. -/
  | objective
  /-- The slack of a row, counted from zero. -/
  | slack (row : Nat)
  /-- The structural variable of a column, counted from zero. -/
  | structural (column : Nat)
deriving DecidableEq, Repr

/-- The bounds of the slack of a row. -/
def Relation.slackBounds {F : Type} [Scalar F] : Relation → Bounds F
  | less => .atLeast 0
  | equal => .between 0 0 Scalar.zero_le_zero
  | greater => .atMost 0

/-- The ends of the range of a slack that leaves a row a range of values. -/
def Relation.rangeEnds {F : Type} [Scalar F] (range : Endpoint F) :
    Relation → Endpoint F × Endpoint F
  | less | equal => (.value 0, range)
  | greater => (range.negate, .value 0)

/-- The costs of a minimization with the same solutions. -/
def Goal.minimizationCost {F : Type} [Neg F] (cost : DenseVector F) : Goal → DenseVector F
  | minimize => cost
  | maximize => cost.map fun value => -value

@[simp]
theorem Goal.length_minimizationCost {F : Type} [Neg F] (cost : DenseVector F) (goal : Goal) :
  (goal.minimizationCost cost).length = cost.length
  := by
  cases goal <;> simp [minimizationCost]

/-- A linear program. -/
structure Model (F : Type) [Scalar F] where
  /-- The constraint matrix. -/
  matrix : ColumnMatrix F
  /-- The costs of the minimization, one for each column. -/
  cost : DenseVector F
  /-- The right hand side, one value for each row. -/
  rightHandSide : DenseVector F
  /-- The relations of the rows. -/
  relations : List Relation
  /-- The goal that the model was stated with. -/
  goal : Goal
  /-- The bounds of the slacks and then of the structural variables. -/
  bounds : List (Bounds F)
  cost_length : cost.length = matrix.nrColumns
  rightHandSide_length : rightHandSide.length = matrix.nrRows
  relations_length : relations.length = matrix.nrRows
  bounds_length : bounds.length = matrix.nrRows + matrix.nrColumns

namespace Model

variable {F : Type} [Scalar F]

/-! ### Making a model -/

/-- The bounds of a variable with the given ends. -/
def boundsFor (index : Nat) (lower upper : Endpoint F) : Except Error (Bounds F) :=
  match Bounds.ofEndpoints? lower upper with
  | some bounds => .ok bounds
  | none => .error (.invalidBounds index lower.toFloat upper.toFloat)

/-- The bounds of consecutive variables with the given ends, or the error of the first variable
that has one. -/
def boundsFrom (first : Nat) : (ends : List (Endpoint F × Endpoint F)) →
    Except Error { bounds : List (Bounds F) // bounds.length = ends.length }
  | [] => .ok ⟨[], rfl⟩
  | (lower, upper) :: ends => do
      let head ← boundsFor first lower upper
      let ⟨tail, h⟩ ← boundsFrom (first + 1) ends
      .ok ⟨head :: tail, congrArg (· + 1) h⟩

/-- A model from its parts, or the first fault among the lengths and then among the bounds. -/
def ofParts (matrix : ColumnMatrix F) (cost rightHandSide : DenseVector F)
    (relations : List Relation) (goal : Goal) (ends : List (Endpoint F × Endpoint F)) :
    Except Error (Model F) :=
  if hc : cost.length = matrix.nrColumns then
    if hb : rightHandSide.length = matrix.nrRows then
      if hr : relations.length = matrix.nrRows then
        if he : ends.length = matrix.nrColumns then
          match boundsFrom (1 + matrix.nrRows) ends with
          | .ok ⟨structural, hs⟩ => .ok
              { matrix, rightHandSide, relations, goal
                cost := goal.minimizationCost cost
                bounds := relations.map Relation.slackBounds ++ structural
                cost_length := by simp [hc]
                rightHandSide_length := hb
                relations_length := hr
                bounds_length := by simp [hr, hs, he] }
          | .error e => .error e
        else .error (.dimensionMismatch .bounds matrix.nrColumns ends.length)
      else .error (.dimensionMismatch .constraintTypes matrix.nrRows relations.length)
    else .error (.dimensionMismatch .rightHandSide matrix.nrRows rightHandSide.length)
  else .error (.dimensionMismatch .cost matrix.nrColumns cost.length)

/-- A model in which the structural variables are nonnegative. -/
def nonnegative (matrix : ColumnMatrix F) (cost rightHandSide : DenseVector F)
    (relations : List Relation) (goal : Goal) : Except Error (Model F) :=
  ofParts matrix cost rightHandSide relations goal
    (List.replicate matrix.nrColumns (.value 0, .plusInfinity))

/-! ### Reading a model -/

/-- The number of rows. -/
def nrRows (model : Model F) : Nat :=
  model.matrix.nrRows

/-- The number of columns. -/
def nrColumns (model : Model F) : Nat :=
  model.matrix.nrColumns

/-- The number of variables, the objective dummy included. -/
def nrVariables (model : Model F) : Nat :=
  1 + model.nrRows + model.nrColumns

/-- What a variable is. -/
def kind? (model : Model F) (index : Nat) : Option VariableKind :=
  if index = 0 then some .objective
  else if index ≤ model.nrRows then some (.slack (index - 1))
  else if index < model.nrVariables then some (.structural (index - 1 - model.nrRows))
  else none

/-- The column of a variable in the augmented system. -/
def column? (model : Model F) (index : Nat) : Option (SparseVector F) := do
  match ← model.kind? index with
  | .objective => some [(0, 1)]
  | .slack row => some [(row + 1, 1)]
  | .structural column =>
      let cost ← model.cost[column]?
      let entries ← model.matrix.columns[column]?
      some ((if cost == 0 then [] else [(0, cost)]) ++ entries.shift 1)

/-- The column of a variable as a dense vector. -/
def denseColumn? (model : Model F) (index : Nat) : Option (DenseVector F) := do
  let column ← model.column? index
  column.toDense? (model.nrRows + 1)

/-- The number of nonzeros of a variable in the rows of the constraints, where a slack counts one. -/
def nonzeros? (model : Model F) (index : Nat) : Option Nat := do
  match ← model.kind? index with
  | .objective => some 0
  | .slack _ => some 1
  | .structural column => model.matrix.columns[column]?.map List.length

/-- The right hand side of a row, the first row being `1`. -/
def rightHandSide? (model : Model F) (row : Nat) : Option F :=
  if row = 0 then none else model.rightHandSide[row - 1]?

/-- The bounds of a variable. -/
def bounds? (model : Model F) (index : Nat) : Option (Bounds F) :=
  (Bounds.free :: model.bounds)[index]?

/-! ### Changing bounds -/

/-- The model with other bounds for one variable. -/
def setBounds (model : Model F) (index : Nat) (lower upper : Endpoint F) :
    Except Error (Model F) :=
  if index = 0 ∨ model.nrVariables ≤ index then
    .error (.variableOutOfRange index model.nrVariables)
  else do
    let bounds ← boundsFor index lower upper
    .ok
      { model with
        bounds := model.bounds.set (index - 1) bounds
        bounds_length := by simp [model.bounds_length] }

/-- One more than the largest number of a variable: numbers are words of 64 bits. -/
def indexLimit : Nat := Nat.pow 2 64

/-- The number of the slack of a row, counted from zero. -/
def slackIndex? (row : Nat) : Option Nat :=
  if row + 1 < indexLimit then some (row + 1) else none

/-- The model with a range of values for the left hand side of a row, counted from zero.  The
range extends from the right hand side to the side that the relation allows, and downwards from an
equation. -/
def setRowRange? (model : Model F) (row : Nat) (range : Endpoint F) :
    Option (Except Error (Model F)) := do
  let slack ← slackIndex? row
  match model.relations[row]? with
  | none => some (.error (.variableOutOfRange slack model.nrVariables))
  | some relation =>
      let ends := relation.rangeEnds range
      some (model.setBounds slack ends.1 ends.2)

/-- The same model, solved as the minimization that it stores. -/
def asMinimization (model : Model F) : Model F :=
  { model with goal := .minimize }

end Model

end RevisedSimplex
