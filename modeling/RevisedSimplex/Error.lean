import RevisedSimplex.Decimal.Text

/-!
# Errors

An `Error` says why a call could not be carried out as asked.  How a solve that ran to its end
came out is a status and not an error.  `Error.message` gives the text of each of them.
-/

namespace RevisedSimplex

/-- What has the wrong size. -/
inductive Quantity where
  | cost
  | rightHandSide
  | constraintTypes
  | bounds
  | basicVariables
  | boundSides
  | basisRows
  | basisVariables
deriving DecidableEq, Repr

/-- The name of a quantity. -/
def Quantity.name : Quantity → String
  | cost => "cost"
  | rightHandSide => "right hand side"
  | constraintTypes => "constraint types"
  | bounds => "bounds"
  | basicVariables => "basic variables"
  | boundSides => "bound sides"
  | basisRows => "basis rows"
  | basisVariables => "basis variables"

/-- The tolerances of the method. -/
inductive ToleranceName where
  | pivotEpsilonScale
  | primal
  | dual
  | ratioPivot
  | factorizationPivot
  | drop
  | harrisScale
deriving DecidableEq, Repr

/-- The name of a tolerance. -/
def ToleranceName.name : ToleranceName → String
  | pivotEpsilonScale => "pivot_epsilon_scale"
  | primal => "primal"
  | dual => "dual"
  | ratioPivot => "ratio_pivot"
  | factorizationPivot => "factorization_pivot"
  | drop => "drop"
  | harrisScale => "harris_scale"

/-- Which setting is out of range, with its value. -/
inductive SettingFault where
  | tolerance (name : ToleranceName) (value : Float)
  | pivotCap
  | growthFactor (value : Float)
  | warmUp (value : Float)
  | markowitzThreshold (value : Float)

/-- The text of a fault of the settings. -/
def SettingFault.text : SettingFault → String
  | tolerance name value =>
      "tolerance " ++ name.name ++ " must be finite and nonnegative, got "
        ++ Decimal.positional value
  | pivotCap => "pivot_cap must be at least 1"
  | growthFactor value =>
      "growth_factor must be a finite value of at least 1, got " ++ Decimal.positional value
  | warmUp value => "warm_up must lie in [0, 1], got " ++ Decimal.positional value
  | markowitzThreshold value =>
      "Markowitz threshold must lie in (0, 1], got " ++ Decimal.positional value

/-- Why a call could not be carried out. -/
inductive Error where
  /-- The pivot value is too small to divide by. -/
  | numericFailure (row index : Nat) (value : Float)
  /-- A part does not have the size that the model asks for. -/
  | dimensionMismatch (what : Quantity) (expected actual : Nat)
  /-- The model has no such variable. -/
  | variableOutOfRange (index nrVariables : Nat)
  /-- The two bounds leave no value, or one of them is no bound. -/
  | invalidBounds (index : Nat) (lower upper : Float)
  /-- A basis lists a variable twice, or the objective dummy at all. -/
  | repeatedVariable (index : Nat)
  /-- A setting is out of range. -/
  | invalidSetting (fault : SettingFault)
  /-- No column was staged for the change of basis. -/
  | noStagedColumn
  /-- A variable without two finite bounds has no other bound to go to. -/
  | unboundedFlip (index : Nat)

/-- The text of an error. -/
def Error.message : Error → String
  | numericFailure row index value =>
      "pivot value " ++ Decimal.scientific value
        ++ s!" of variable {index} at row {row} is below the pivot tolerance"
  | dimensionMismatch what expected actual =>
      "dimension mismatch for " ++ what.name ++ s!": expected {expected}, found {actual}"
  | variableOutOfRange index nrVariables =>
      s!"variable {index} is out of range for a model with {nrVariables} variables"
  | invalidBounds index lower upper =>
      s!"variable {index} has lower bound " ++ Decimal.positional lower
        ++ " above upper bound " ++ Decimal.positional upper
  | repeatedVariable index => s!"invalid basis: variable {index} appears more than once"
  | invalidSetting fault => "invalid configuration: " ++ fault.text
  | noStagedColumn => "no column was staged for the basis update"
  | unboundedFlip index =>
      s!"variable {index} can not flip bounds: its range is infinite"

end RevisedSimplex
