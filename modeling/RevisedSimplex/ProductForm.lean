import RevisedSimplex.Factorization
import RevisedSimplex.Placement
import RevisedSimplex.RefactorizationClock

/-!
# The product form of the inverse

A `ProductForm` represents the inverse of a basis by an eta file.  `factorize?` starts a new file
from a placement of the basic variables; `prepareUpdate?` and `finishUpdate?` stage and commit one
more column for each change of the basis.  Solved vectors are rounded relative to their largest
entry.
-/

namespace RevisedSimplex

/-- The inverse of a basis as a product of elementary matrices. -/
structure ProductForm (F : Type) where
  /-- The number of rows; vectors have one entry more. -/
  nrRows : Nat
  file : EtaFile F := {}
  /-- The number of changes since the last factorization. -/
  pivots : Nat := 0
  /-- Whether the next change has to wait for a factorization. -/
  forced : Bool := false
  clock : RefactorizationClock := {}
  statistics : FactorizationStatistics := {}

namespace ProductForm

variable {F : Type} [Scalar F]

/-- The identity of a given size. -/
def identity (nrRows : Nat) : ProductForm F :=
  { nrRows }

/-- What is reported about a placement: its singular columns, and its size. -/
def placementEvents (nrRows : Nat) (placed : PlacedBasis F) : List Event :=
  placed.singular.map Event.singularColumn
    ++ [.factorized nrRows placed.nrCandidates placed.nrSingletons placed.file.factorColumns
        placed.file.nrNonzeros placed.singular.length]

/-- Factorizes a list of variables from scratch. -/
def factorize? (context : Context F) (model : Model F) (indices : List Nat)
    (form : ProductForm F) : Option (Outcome (ProductForm F) Factorization) :=
  if model.nrRows ≠ form.nrRows then none
  else do
    let placed ← PlacedBasis.of? context model indices
    some
      { result := ⟨placed.positions, placed.singular⟩
        state :=
          { nrRows := form.nrRows
            file := placed.file
            statistics :=
              { form.statistics with
                refactorizations := form.statistics.refactorizations + 1
                singularities := form.statistics.singularities + placed.singular.length } }
        events := placementEvents form.nrRows placed }

/-- Rounds a solved vector. -/
def rounded (context : Context F) (vector : DenseVector F) : DenseVector F :=
  DenseVector.roundRelative context.tolerances.drop vector

/-- The inverse times a column. -/
def ftran? (context : Context F) (form : ProductForm F) (vector : DenseVector F) :
    Option (DenseVector F) :=
  if vector.length = form.nrRows + 1 then (form.file.applyRight? vector).map (rounded context)
  else none

/-- A row times the inverse. -/
def btran? (context : Context F) (form : ProductForm F) (vector : DenseVector F) :
    Option (DenseVector F) :=
  if vector.length = form.nrRows + 1 then (form.file.applyLeft? vector).map (rounded context)
  else none

/-- Two rows times the inverse. -/
def btranDouble? (context : Context F) (form : ProductForm F) (first second : DenseVector F) :
    Option (DenseVector F × DenseVector F) :=
  if first.length = form.nrRows + 1 ∧ second.length = form.nrRows + 1 then
    (form.file.applyLeftDouble? first second).map fun (first, second) =>
      (rounded context first, rounded context second)
  else none

/-- Stages the solved column of an entering variable, unless its pivot is too small to divide
by.  Then nothing stays staged. -/
def prepareUpdate? (context : Context F) (row entering : Nat) (column : DenseVector F)
    (form : ProductForm F) : Option (Outcome (ProductForm F) (Except Error F)) :=
  if row = 0 ∨ form.nrRows < row ∨ column.length ≠ form.nrRows + 1 then none
  else do
    let staged ← EtaColumn.ofDense? column row entering
    let pivot := staged.pivot
    if Scalar.magnitude pivot < context.tolerances.pivot then
      let value := Scalar.toFloat pivot
      some
        { result := .error (.numericFailure row entering value)
          state := { form with file := form.file.discardStaged }
          events := [.pivotRefused row entering value] }
    else
      some { result := .ok pivot, state := { form with file := form.file.stage staged } }

/-- Commits the staged column, or its negation. -/
def finishUpdate? (flip : Bool) (form : ProductForm F) :
    Option (Outcome (ProductForm F) Bool) := do
  let (committed, file) ← form.file.commit? flip
  if committed then
    let (row, owner) ← file.pivot? (file.nrColumns - 1)
    some
      { result := true
        state :=
          { form with
            file
            pivots := form.pivots + 1
            statistics := { form.statistics with pivots := form.statistics.pivots + 1 } }
        events := [.updateCommitted row owner file.nrUpdates file.nrNonzeros] }
  else some { result := false, state := { form with file } }

/-- Whether to factorize from scratch before the next change. -/
def mustRefactorize (context : Context F) (elapsed : Nat) (form : ProductForm F) :
    Bool × ProductForm F :=
  if form.forced then (true, form)
  else
    let (answer, clock) := form.clock.shouldRefactorize context.policy form.pivots elapsed
    (answer, { form with clock })

instance : BasisFactorization (ProductForm F) F where
  factorize? := factorize?
  ftran? := ftran?
  btran? := btran?
  btranDouble? := btranDouble?
  prepareUpdate? := prepareUpdate?
  finishUpdate? := finishUpdate?
  mustRefactorize := mustRefactorize
  forceRefactorization form := { form with forced := true }
  nrPivots := pivots
  etaLength form := form.file.nrUpdates
  nrNonzeros form := form.file.nrNonzeros
  statistics := statistics

end ProductForm

end RevisedSimplex
