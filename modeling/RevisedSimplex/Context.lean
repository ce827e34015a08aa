import RevisedSimplex.Scalar
import RevisedSimplex.Settings

/-!
# Contexts

A `Context` holds the tolerances and rules of a solve in the numbers of that solve.
`Context.ofSettings` checks the settings and converts them; the pivot tolerance is a multiple of
the machine epsilon of these numbers.
-/

namespace RevisedSimplex

/-- The tolerances in the numbers of a solve. -/
structure Tolerances (F : Type) where
  /-- The violation of a bound that still counts as feasible. -/
  primal : F
  /-- The reduced cost of the wrong sign that still counts as optimal. -/
  dual : F
  /-- The magnitude below which a pivot is a numeric failure. -/
  pivot : F
  /-- The magnitude below which a value is passed over in ratio tests. -/
  ratioPivot : F
  /-- The magnitude below which a value is no pivot of a factorization. -/
  factorizationPivot : F
  /-- The fraction of the largest entry below which an entry of a solved vector is dropped. -/
  drop : F
  /-- The multiple of a tolerance by which the first pass of a ratio test relaxes. -/
  harris : F

/-- What the factorization and the iterations need to know of the settings. -/
structure Context (F : Type) where
  tolerances : Tolerances F
  policy : RefactorizationPolicy
  rowSelection : RowSelection F

namespace Context

variable {F : Type} [Scalar F]

/-- The settings in the numbers of a solve, unchecked. -/
def convert (settings : Settings) : Context F where
  tolerances :=
    { primal := Scalar.ofFloat settings.tolerances.primal
      dual := Scalar.ofFloat settings.tolerances.dual
      pivot := Scalar.ofFloat settings.tolerances.pivotEpsilonScale * Scalar.epsilon
      ratioPivot := Scalar.ofFloat settings.tolerances.ratioPivot
      factorizationPivot := Scalar.ofFloat settings.tolerances.factorizationPivot
      drop := Scalar.ofFloat settings.tolerances.drop
      harris := Scalar.ofFloat settings.tolerances.harrisScale }
  policy := settings.policy
  rowSelection := settings.rowSelection.map Scalar.ofFloat

/-- The settings in the numbers of a solve, or the first fault among them.

A value that is in range is never refused for want of a number to stand for it, since
`Scalar.ofFloat` always gives one.  A tolerance beyond the largest number becomes infinite. -/
def ofSettings (settings : Settings) : Except Error (Context F) :=
  match settings.fault? with
  | some fault => .error (.invalidSetting fault)
  | none => .ok (convert settings)

end Context

end RevisedSimplex
