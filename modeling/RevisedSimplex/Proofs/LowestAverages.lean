import Mathlib.Data.List.Basic
import Mathlib.Data.List.Induction
import RevisedSimplex.RefactorizationClock

/-!
# The lowest average

A clock is restarted by each factorization and asked before each pivot.  A question *counts* from
two pivots on and as long as the cap is not reached.  Whatever happened before, the baseline is the
lowest average of the questions that have counted since the last restart: a capped or an early
question leaves it alone, and one that calls for a factorization has an average above it.  The first
question that counts has nothing to be compared with and only records.
-/

namespace RevisedSimplex

/-- What happens to a clock. -/
inductive Occasion where
  /-- The basis is factorized. -/
  | restarted
  /-- It is asked after a number of pivots and a number of nanoseconds. -/
  | asked (pivots elapsed : ℕ)

/-- The numbers of pivots and the times of the questions since the last restart. -/
def Occasion.sinceRestart (history : List Occasion) : List (ℕ × ℕ) :=
  history.foldl (fun questions occasion =>
    match occasion with
    | restarted => []
    | asked pivots elapsed => questions ++ [(pivots, elapsed)]) []

namespace RefactorizationPolicy

variable (policy : RefactorizationPolicy) (pivots elapsed : ℕ)

/-- There are at least two pivots, and fewer than the cap. -/
def Counts : Prop :=
  2 ≤ pivots ∧ pivots < policy.pivotCap

instance : Decidable (policy.Counts pivots) :=
  inferInstanceAs (Decidable (_ ∧ _))

/-- The average times of the questions that count, each rounded down. -/
def averages (questions : List (ℕ × ℕ)) : List ℕ :=
  (questions.filter fun question => policy.Counts question.1).map fun question =>
    question.2 / Nat.min question.1 4294967295

variable {policy pivots elapsed} {questions : List (ℕ × ℕ)}

theorem averages_concat_of_counts (h : policy.Counts pivots) :
  policy.averages (questions ++ [(pivots, elapsed)])
    = policy.averages questions ++ [RefactorizationClock.average pivots elapsed]
  := by
  unfold averages
  rw [List.filter_append, List.map_append, List.filter_cons_of_pos (by simpa using h)]
  rfl

theorem averages_concat_of_not_counts (h : ¬ policy.Counts pivots) :
  policy.averages (questions ++ [(pivots, elapsed)]) = policy.averages questions
  := by
  unfold averages
  rw [List.filter_append, List.filter_cons_of_neg (by simpa using h), List.filter_nil,
    List.append_nil]

end RefactorizationPolicy

namespace RefactorizationClock

variable {policy : RefactorizationPolicy} {clock : RefactorizationClock} {pivots elapsed : ℕ}
  {history : List Occasion}

/-- The clock after an occasion. -/
def after (policy : RefactorizationPolicy) (clock : RefactorizationClock) :
    Occasion → RefactorizationClock
  | .restarted => restart
  | .asked pivots elapsed => (clock.shouldRefactorize policy pivots elapsed).2

/-- A new clock after a history. -/
def afterAll (policy : RefactorizationPolicy) (history : List Occasion) : RefactorizationClock :=
  history.foldl (after policy) {}

/-! ### One question -/

theorem shouldRefactorize_of_capped (h : policy.pivotCap ≤ pivots) :
  clock.shouldRefactorize policy pivots elapsed = (true, clock)
  := by
  unfold shouldRefactorize
  rw [if_pos h]

theorem shouldRefactorize_of_early (h : pivots < policy.pivotCap) (hearly : pivots < 2) :
  clock.shouldRefactorize policy pivots elapsed = (false, clock)
  := by
  unfold shouldRefactorize
  rw [if_neg (by omega), if_pos (by simp; omega)]

/-- Without a watch on the time there is only the cap. -/
theorem shouldRefactorize_of_untimed (h : policy.timed = false) :
  clock.shouldRefactorize policy pivots elapsed = (decide (policy.pivotCap ≤ pivots), clock)
  := by
  by_cases hcap : policy.pivotCap ≤ pivots
  · rw [shouldRefactorize_of_capped hcap, decide_eq_true hcap]
  · unfold shouldRefactorize
    rw [if_neg hcap, if_pos (by rw [h]; rfl), decide_eq_false hcap]

theorem shouldRefactorize_of_first (htimed : policy.timed = true) (hcounts : policy.Counts pivots)
    (hbaseline : clock.baseline = none) :
  clock.shouldRefactorize policy pivots elapsed = (false, ⟨some (average pivots elapsed)⟩)
  := by
  obtain ⟨htwo, hcap⟩ := hcounts
  unfold shouldRefactorize
  rw [if_neg (by omega), if_neg (by simp [htimed]; omega), hbaseline]

theorem shouldRefactorize_of_baseline (htimed : policy.timed = true)
    (hcounts : policy.Counts pivots) {lowest : ℕ} (hbaseline : clock.baseline = some lowest) :
  clock.shouldRefactorize policy pivots elapsed =
    if average pivots elapsed < lowest then (false, ⟨some (average pivots elapsed)⟩)
    else (!warmingUp policy pivots && hasGrown policy lowest (average pivots elapsed), clock)
  := by
  obtain ⟨htwo, hcap⟩ := hcounts
  unfold shouldRefactorize
  rw [if_neg (by omega), if_neg (by simp [htimed]; omega), hbaseline]

/-- A question that does not count leaves the clock alone. -/
theorem shouldRefactorize_of_not_counts (h : ¬ policy.Counts pivots) :
  (clock.shouldRefactorize policy pivots elapsed).2 = clock
  := by
  by_cases hcap : policy.pivotCap ≤ pivots
  · rw [shouldRefactorize_of_capped hcap]
  · rw [shouldRefactorize_of_early (by omega)]
    by_contra htwo
    apply h
    unfold RefactorizationPolicy.Counts
    omega

/-- One that counts lowers the baseline to its own average, or leaves it where it is. -/
theorem baseline_of_counts (htimed : policy.timed = true) (hcounts : policy.Counts pivots) :
  (clock.shouldRefactorize policy pivots elapsed).2.baseline =
    some (clock.baseline.elim (average pivots elapsed) (min · (average pivots elapsed)))
  := by
  cases hbaseline : clock.baseline with
  | none => rw [shouldRefactorize_of_first htimed hcounts hbaseline, Option.elim_none]
  | some lowest =>
      rw [shouldRefactorize_of_baseline htimed hcounts hbaseline, Option.elim_some]
      by_cases hlower : average pivots elapsed < lowest
      · rw [if_pos hlower, Nat.min_eq_right (Nat.le_of_lt hlower)]
      · rw [if_neg hlower, Nat.min_eq_left (Nat.le_of_not_lt hlower)]
        exact hbaseline

/-- It calls for a factorization if its average has grown beyond an earlier baseline. -/
theorem shouldRefactorize_eq_true_of_counts (htimed : policy.timed = true)
    (hcounts : policy.Counts pivots) :
  (clock.shouldRefactorize policy pivots elapsed).1 = true ↔
    ¬ Float.ofNat pivots < policy.warmUp * Float.ofNat policy.pivotCap
    ∧ ∃ lowest, clock.baseline = some lowest ∧ lowest ≤ average pivots elapsed
      ∧ policy.leastAverage < average pivots elapsed
      ∧ seconds lowest * policy.growthFactor < seconds (average pivots elapsed)
  := by
  cases hbaseline : clock.baseline with
  | none =>
      rw [shouldRefactorize_of_first htimed hcounts hbaseline]
      simp
  | some lowest =>
      rw [shouldRefactorize_of_baseline htimed hcounts hbaseline]
      by_cases hlower : average pivots elapsed < lowest
      · rw [if_pos hlower]
        simp
        omega
      · rw [if_neg hlower]
        simp [warmingUp, hasGrown, Nat.le_of_not_lt hlower]

/-! ### Histories -/

/-- The lowest of some numbers and one more. -/
theorem min?_concat (values : List ℕ) (value : ℕ) :
  (values ++ [value]).min? = some (values.min?.elim value (min · value))
  := by
  cases values with
  | nil => rfl
  | cons first rest =>
      rw [List.cons_append, List.min?_cons', List.min?_cons', List.foldl_concat, Option.elim_some]

/-- The induction is on the history with its last occasion taken off, and what that occasion does
to the baseline is what it does to the lowest average. -/
theorem baseline_afterAll (htimed : policy.timed = true) (history : List Occasion) :
  (afterAll policy history).baseline = (policy.averages (Occasion.sinceRestart history)).min?
  := by
  induction history using List.reverseRecOn with
  | nil => rfl
  | append_singleton history occasion ih =>
      unfold afterAll Occasion.sinceRestart at ih ⊢
      rw [List.foldl_concat, List.foldl_concat]
      cases occasion with
      | restarted => rfl
      | asked pivots elapsed =>
          by_cases hcounts : policy.Counts pivots
          · rw [RefactorizationPolicy.averages_concat_of_counts hcounts, min?_concat, ← ih]
            apply baseline_of_counts htimed hcounts
          · rw [RefactorizationPolicy.averages_concat_of_not_counts hcounts, ← ih]
            apply congrArg baseline (shouldRefactorize_of_not_counts hcounts)

/-- With a watch on the time, the baseline is the lowest average since the last restart.  The answer
is yes at the cap, and below it if the warm-up is over and there is an earlier average that the
present one is not below and has clearly outgrown.  Without a watch the cap alone decides, and the
clock is left as it is. -/
theorem decides_by_lowest_average (policy : RefactorizationPolicy) (history : List Occasion)
    (pivots elapsed : ℕ) :
  (policy.timed = true →
    (afterAll policy history).baseline = (policy.averages (Occasion.sinceRestart history)).min?
    ∧ (((afterAll policy history).shouldRefactorize policy pivots elapsed).1 = true ↔
      policy.pivotCap ≤ pivots
      ∨ 2 ≤ pivots ∧ pivots < policy.pivotCap
        ∧ ¬ Float.ofNat pivots < policy.warmUp * Float.ofNat policy.pivotCap
        ∧ ∃ lowest, (policy.averages (Occasion.sinceRestart history)).min? = some lowest
          ∧ lowest ≤ elapsed / Nat.min pivots 4294967295
          ∧ policy.leastAverage < elapsed / Nat.min pivots 4294967295
          ∧ seconds lowest * policy.growthFactor < seconds (elapsed / Nat.min pivots 4294967295)))
  ∧ (policy.timed = false → ∀ clock : RefactorizationClock,
    clock.shouldRefactorize policy pivots elapsed
      = (decide (policy.pivotCap ≤ pivots), clock))
  := by
  constructor
  · intro htimed
    have hbaseline := baseline_afterAll htimed history
    refine ⟨hbaseline, ?_⟩
    by_cases hcap : policy.pivotCap ≤ pivots
    · rw [shouldRefactorize_of_capped hcap]
      simp [hcap]
    · by_cases htwo : 2 ≤ pivots
      · rw [shouldRefactorize_eq_true_of_counts htimed ⟨htwo, by omega⟩, hbaseline]
        simp only [hcap, htwo, false_or, true_and, Nat.lt_of_not_le hcap]
        rfl
      · rw [shouldRefactorize_of_early (by omega) (by omega)]
        simp [hcap, htwo]
  · intro huntimed clock
    apply shouldRefactorize_of_untimed huntimed

/-- A cap of twenty: an average of forty microseconds is recorded, one of a hundred during the
warm-up does not matter, and the same one after the warm-up calls for a factorization. -/
theorem decides_by_lowest_average_sample :
  let policy : RefactorizationPolicy := { pivotCap := 20 }
  let history := [.asked 2 20000, .restarted, .asked 2 80000, .asked 4 400000]
  (afterAll policy history).baseline = some 40000
  ∧ ((afterAll policy history).shouldRefactorize policy 10 1000000).1 = true
  := by
  obtain ⟨htimed, -⟩ := decides_by_lowest_average { pivotCap := 20 }
    [.asked 2 20000, .restarted, .asked 2 80000, .asked 4 400000] 10 1000000
  obtain ⟨hbaseline, hanswer⟩ := htimed rfl
  refine ⟨hbaseline, hanswer.mpr (Or.inr ⟨?_, ?_, ?_, 40000, rfl, ?_⟩)⟩ <;> decide +kernel

end RefactorizationClock

end RevisedSimplex
