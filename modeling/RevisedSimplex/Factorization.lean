import RevisedSimplex.Context
import RevisedSimplex.Event
import RevisedSimplex.Model

/-!
# Factorizations

The method never forms the inverse of the basis.  A `BasisFactorization` represents it, solves
with it forwards (`ftran?`, the inverse times a column) and backwards (`btran?`, a row times the
inverse), and follows changes of the basis.  Vectors are indexed by position, and position `0`
holds the objective dummy, so that a forward solve of a column has its reduced cost in entry `0`.

`Vetoed` is a stand-in for tests: it refuses updates by a list of verdicts, whatever the pivot, and
so makes a solve go through the recovery from numeric failures.  No solver of the library uses it.
-/

namespace RevisedSimplex

/-- The outcome of factorizing a list of variables. -/
structure Factorization where
  /-- The variable at each position. -/
  positions : List Nat
  /-- The variables that were left out, in the order of their rejection. -/
  singular : List Nat

/-- Counters over the life of a factorization. -/
structure FactorizationStatistics where
  refactorizations : Nat := 0
  pivots : Nat := 0
  singularities : Nat := 0

/-- A representation of the inverse of a basis. -/
class BasisFactorization (R : Type) (F : outParam Type) [Scalar F] where
  /-- Factorizes a list of variables from scratch. -/
  factorize? : Context F → Model F → List Nat → R → Option (Outcome R Factorization)
  /-- The inverse times a column. -/
  ftran? : Context F → R → DenseVector F → Option (DenseVector F)
  /-- A row times the inverse. -/
  btran? : Context F → R → DenseVector F → Option (DenseVector F)
  /-- Two rows times the inverse. -/
  btranDouble? : Context F → R → DenseVector F → DenseVector F →
    Option (DenseVector F × DenseVector F)
  /-- Stages a change of basis by the leaving row, the entering variable and its solved column.
  The result is the pivot value, or an error if nothing was staged. -/
  prepareUpdate? : Context F → (row entering : Nat) → DenseVector F → R →
    Option (Outcome R (Except Error F))
  /-- Commits the staged change, and its negation if the flag is set.  The result says whether
  there was one. -/
  finishUpdate? : (flip : Bool) → R → Option (Outcome R Bool)
  /-- Whether to factorize from scratch before the next change, given the nanoseconds since the
  last factorization. -/
  mustRefactorize : Context F → (elapsed : Nat) → R → Bool × R
  /-- Makes `mustRefactorize` answer yes until the next factorization. -/
  forceRefactorization : R → R
  /-- The number of changes since the last factorization. -/
  nrPivots : R → Nat
  /-- The length of the part that stems from changes. -/
  etaLength : R → Nat
  /-- The number of stored entries. -/
  nrNonzeros : R → Nat
  /-- The counters. -/
  statistics : R → FactorizationStatistics

/-- A factorization that refuses the updates for which the next verdict is `true`, as a stand-in for
tests. -/
structure Vetoed (R : Type) where
  inner : R
  verdicts : List Bool

namespace Vetoed

variable {R F : Type} [Scalar F] [BasisFactorization R F]

/-- An outcome of the inner factorization as one of the vetoed factorization. -/
def wrap {Result : Type} (verdicts : List Bool) (outcome : Outcome R Result) :
    Outcome (Vetoed R) Result where
  result := outcome.result
  state := ⟨outcome.state, verdicts⟩
  events := outcome.events

/-- Stages a change of basis unless the next verdict refuses it. -/
def prepareUpdate? (context : Context F) (row entering : Nat) (column : DenseVector F)
    (vetoed : Vetoed R) : Option (Outcome (Vetoed R) (Except Error F)) :=
  let later := vetoed.verdicts.tail
  if vetoed.verdicts.head? == some true then do
    let pivot ← column[row]?
    some
      { result := .error (.numericFailure row entering (Scalar.toFloat pivot))
        state := ⟨vetoed.inner, later⟩ }
  else
    (BasisFactorization.prepareUpdate? context row entering column vetoed.inner).map (wrap later)

instance : BasisFactorization (Vetoed R) F where
  factorize? context model indices vetoed :=
    (BasisFactorization.factorize? context model indices vetoed.inner).map (wrap vetoed.verdicts)
  ftran? context vetoed := BasisFactorization.ftran? context vetoed.inner
  btran? context vetoed := BasisFactorization.btran? context vetoed.inner
  btranDouble? context vetoed := BasisFactorization.btranDouble? context vetoed.inner
  prepareUpdate? := prepareUpdate?
  finishUpdate? flip vetoed :=
    (BasisFactorization.finishUpdate? flip vetoed.inner).map (wrap vetoed.verdicts)
  mustRefactorize context elapsed vetoed :=
    let (answer, inner) := BasisFactorization.mustRefactorize context elapsed vetoed.inner
    (answer, { vetoed with inner })
  forceRefactorization vetoed :=
    { vetoed with inner := BasisFactorization.forceRefactorization vetoed.inner }
  nrPivots vetoed := BasisFactorization.nrPivots vetoed.inner
  etaLength vetoed := BasisFactorization.etaLength vetoed.inner
  nrNonzeros vetoed := BasisFactorization.nrNonzeros vetoed.inner
  statistics vetoed := BasisFactorization.statistics vetoed.inner

end Vetoed

end RevisedSimplex
