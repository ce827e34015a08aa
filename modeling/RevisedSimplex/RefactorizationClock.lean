import RevisedSimplex.Settings

/-!
# The refactorization clock

Each pivot makes the eta file longer and all later solves slower, and a factorization costs time
once and makes it short again.  The average time for a pivot, the factorization counted in, first
falls and then rises.  The clock records its lowest value and calls for a factorization when the
average has grown clearly beyond it.  Times are counts of nanoseconds.
-/

namespace RevisedSimplex

/-- The lowest average since the last factorization, if one was recorded. -/
structure RefactorizationClock where
  baseline : Option Nat := none

namespace RefactorizationClock

/-- The clock after a factorization. -/
def restart : RefactorizationClock :=
  {}

/-- The largest number that an elapsed time is divided by. -/
def largestDivisor : Nat := 4294967295

/-- The average time for a pivot. -/
def average (pivots elapsed : Nat) : Nat :=
  elapsed / Nat.min pivots largestDivisor

/-- A time in seconds. -/
def seconds (nanoseconds : Nat) : Float :=
  Float.ofNat (nanoseconds / 1000000000) + Float.ofNat (nanoseconds % 1000000000) / 1e9

/-- Whether the cap is so far away that the average is only recorded. -/
def warmingUp (policy : RefactorizationPolicy) (pivots : Nat) : Bool :=
  Float.ofNat pivots < policy.warmUp * Float.ofNat policy.pivotCap

/-- Whether an average is large enough, and has grown enough since the baseline. -/
def hasGrown (policy : RefactorizationPolicy) (baseline average : Nat) : Bool :=
  decide (policy.leastAverage < average)
    && seconds baseline * policy.growthFactor < seconds average

/-- Whether to factorize after a number of pivots and a time, and the clock after that decision.
The cap always decides, and otherwise nothing does without a watch on the time and two pivots. -/
def shouldRefactorize (clock : RefactorizationClock) (policy : RefactorizationPolicy)
    (pivots elapsed : Nat) : Bool × RefactorizationClock :=
  if policy.pivotCap ≤ pivots then (true, clock)
  else if !policy.timed || pivots ≤ 1 then (false, clock)
  else
    let current := average pivots elapsed
    match clock.baseline with
    | none => (false, ⟨some current⟩)
    | some baseline =>
        if current < baseline then (false, ⟨some current⟩)
        else (!warmingUp policy pivots && hasGrown policy baseline current, clock)

end RefactorizationClock

end RevisedSimplex
