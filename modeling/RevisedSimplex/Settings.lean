import RevisedSimplex.Error

/-!
# Settings

All numbers that can be tuned, as doubles, counts and nanoseconds, with their usual values as
defaults.  `Settings.fault?` finds the first of them that is out of range.
-/

namespace RevisedSimplex

/-- The tolerances as they are set. -/
structure ToleranceSettings where
  /-- The amount by which a basic variable may violate a bound and still be feasible. -/
  primal : Float := 5.01e-7
  /-- The amount by which a reduced cost may have the wrong sign at an optimum. -/
  dual : Float := 1e-6
  /-- The multiple of the machine epsilon below which a pivot value is a numeric failure. -/
  pivotEpsilonScale : Float := 1e5
  /-- The magnitude below which a value of the pivot column is passed over in ratio tests. -/
  ratioPivot : Float := 1e-9
  /-- The magnitude below which a value is no pivot of a factorization. -/
  factorizationPivot : Float := 1e-10
  /-- The fraction of the largest entry below which an entry of a solved vector is dropped. -/
  drop : Float := 1e-12
  /-- The multiple of the tolerances by which the first pass of a ratio test relaxes bounds. -/
  harrisScale : Float := 1

/-- When the basis is factorized from scratch. -/
structure RefactorizationPolicy where
  /-- The number of pivots after which it always is. -/
  pivotCap : Nat := 250
  /-- Whether the average time for a pivot is watched as well. -/
  timed : Bool := true
  /-- The factor by which the average may exceed its lowest value. -/
  growthFactor : Float := 1.5
  /-- The fraction of the cap during which the average is only recorded. -/
  warmUp : Float := 0.4
  /-- The nanoseconds that an average has to exceed. -/
  leastAverage : Nat := 1000

/-- How a row is chosen for a column that is no singleton. -/
inductive RowSelection (F : Type) where
  /-- The row with the largest magnitude. -/
  | largestMagnitude
  /-- The row with the fewest nonzeros among those whose magnitude is at least the fraction
  `threshold` of the largest one. -/
  | markowitz (threshold : F)

/-- The same rule for other numbers. -/
def RowSelection.map {F G : Type} (convert : F → G) : RowSelection F → RowSelection G
  | largestMagnitude => largestMagnitude
  | markowitz threshold => markowitz (convert threshold)

/-- What to do about singular columns. -/
inductive SingularPolicy where
  /-- Let slacks take their places and go on. -/
  | repair
  /-- Stop, and report the model as infeasible. -/
  | fail
deriving DecidableEq, Repr

/-- The settings of a solve. -/
structure Settings where
  tolerances : ToleranceSettings := {}
  policy : RefactorizationPolicy := {}
  rowSelection : RowSelection Float := .largestMagnitude
  singularPolicy : SingularPolicy := .repair
  /-- The number of other candidates tried when the chosen one looks degenerate. -/
  degeneracyRetries : Nat := 3
  /-- The time that a solve may take, in nanoseconds. -/
  timeLimit : Option Nat := none
  /-- The number of iterations that a solver may make. -/
  iterationLimit : Option Nat := none
  /-- The signal to stop, if there is one, by the value that it has at first. -/
  abort : Option Bool := none

/-- The tolerances with their names, in the order in which they are checked. -/
def ToleranceSettings.named (tolerances : ToleranceSettings) : List (ToleranceName × Float) :=
  [(.pivotEpsilonScale, tolerances.pivotEpsilonScale), (.primal, tolerances.primal),
    (.dual, tolerances.dual), (.ratioPivot, tolerances.ratioPivot),
    (.factorizationPivot, tolerances.factorizationPivot), (.drop, tolerances.drop),
    (.harrisScale, tolerances.harrisScale)]

/-- The first tolerance that is negative or not finite. -/
def ToleranceSettings.fault? (tolerances : ToleranceSettings) : Option SettingFault :=
  tolerances.named.findSome? fun (name, value) =>
    if !value.isFinite || value < 0 then some (.tolerance name value) else none

/-- The first number of a policy that is out of range. -/
def RefactorizationPolicy.fault? (policy : RefactorizationPolicy) : Option SettingFault :=
  if policy.pivotCap = 0 then some .pivotCap
  else if !(1 ≤ policy.growthFactor && policy.growthFactor.isFinite) then
    some (.growthFactor policy.growthFactor)
  else if !(0 ≤ policy.warmUp && policy.warmUp ≤ 1) then some (.warmUp policy.warmUp)
  else none

/-- The threshold of a rule if it is not in `(0, 1]`. -/
def RowSelection.fault? : RowSelection Float → Option SettingFault
  | .largestMagnitude => none
  | .markowitz threshold =>
      if 0 < threshold && threshold ≤ 1 then none else some (.markowitzThreshold threshold)

/-- The first setting that is out of range. -/
def Settings.fault? (settings : Settings) : Option SettingFault :=
  settings.tolerances.fault?.or (settings.policy.fault?.or settings.rowSelection.fault?)

end RevisedSimplex
