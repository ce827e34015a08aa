import RevisedSimplex.RatioTest
import RevisedSimplex.Proofs.BoundTests
import RevisedSimplex.Proofs.Choices

/-!
# Ratio tests in exact numbers

What the choices of a step say about the variable and the row that are chosen.

* A candidate of a primal step moves away from the side it rests at.  The blocking row comes to a
  bound of its variable, and no other row has passed its relaxed bound by then, as long as no entry
  of the pivot column is too small to count.
* An eligible variable of a dual step has an entry in the pivot row with the sign that moves the
  leaving variable towards the bound that it violates.
-/

namespace RevisedSimplex

variable {F : Type} [ExactScalar F]

/-! ### Choices -/

/-- The smallest of some steps is one of them and at most as long as the others.  There is none if
all of them are missing. -/
theorem smallestStep?_cases (steps : List (Option F)) :
  (smallestStep? steps = none ∧ ∀ step ∈ steps, step = none)
    ∨ ∃ bound, smallestStep? steps = some bound ∧ some bound ∈ steps
      ∧ ∀ step, some step ∈ steps → bound ≤ step
  := by
  induction steps using List.reverseRecOn with
  | nil => exact Or.inl ⟨rfl, by simp⟩
  | append_singleton steps last ih =>
      unfold smallestStep? at ih ⊢
      rw [List.foldl_append]
      rcases ih with ⟨hnone, hall⟩ | ⟨bound, hbound, hmem, hle⟩
      · rw [hnone]
        cases last with
        | none =>
            refine Or.inl ⟨rfl, ?_⟩
            intro step hstep
            rcases List.mem_append.mp hstep with hstep | hstep
            · apply hall step hstep
            · apply List.mem_singleton.mp hstep
        | some length =>
            refine Or.inr ⟨length, by simp, by simp, ?_⟩
            intro step hstep
            rcases List.mem_append.mp hstep with hstep | hstep
            · cases hall _ hstep
            · simp only [List.mem_singleton, Option.some.injEq] at hstep
              apply hstep.ge
      · rw [hbound]
        cases last with
        | none => exact Or.inr ⟨bound, by simp, by simp [hmem], by simpa using hle⟩
        | some length =>
            refine Or.inr ⟨min bound length, by simp [ExactScalar.smaller_eq_min], ?_, ?_⟩
            · rcases min_choice bound length with hmin | hmin
              · rw [hmin]
                apply List.mem_append_left _ hmem
              · rw [hmin]
                simp
            · intro step hstep
              rcases List.mem_append.mp hstep with hstep | hstep
              · apply (min_le_left _ _).trans (hle step hstep)
              · simp only [List.mem_singleton, Option.some.injEq] at hstep
                rw [hstep]
                apply min_le_right

/-- No element is heavier than the chosen one. -/
theorem le_of_heaviest? {α : Type} {weight : α → F} {elements : List α} {a : α}
    (h : heaviest? weight elements = some a) {b : α} (hb : b ∈ elements) :
  weight b ≤ weight a
  := by
  unfold heaviest? at h
  apply (foldl_select_le weight _ elements h).2 b hb
  rintro (_ | best) x
  · exact ⟨x, rfl, le_rfl, by simp⟩
  · dsimp only
    split
    · rename_i hlt
      exact ⟨x, rfl, le_rfl, by simpa using hlt.le⟩
    · rename_i hge
      exact ⟨best, rfl, not_lt.mp hge, by simp⟩

/-- The sign of a number is a sign. -/
theorem abs_signOf (x : F) :
  |Scalar.signOf x| = 1
  := by
  unfold Scalar.signOf
  split <;> simp

/-! ### The primal test -/

/-- A candidate leaves the side it rests at, or moves in one of the two directions if it is free. -/
theorem Candidate.improvingDirection?_spec {dual reducedCost direction : F} {side : Option Side}
    (h : improvingDirection? dual reducedCost side = some direction) :
  (∀ s, side = some s → direction = s.direction) ∧ |direction| = 1
  := by
  cases side with
  | some s =>
      have hdirection : direction = s.direction := by
        cases s with
        | lower =>
            simp only [improvingDirection?] at h
            split at h
            · exact (Option.some_inj.mp h).symm
            · cases h
        | upper =>
            simp only [improvingDirection?] at h
            split at h
            · exact (Option.some_inj.mp h).symm
            · cases h
      constructor
      · intro t ht
        cases ht
        apply hdirection
      · rw [hdirection, Side.abs_direction]
  | none =>
      simp only [improvingDirection?] at h
      split at h
      · rw [← Option.some_inj.mp h, abs_neg, abs_signOf]
        simp
      · cases h

/-- A row with an entry that is not small reaches a relaxed bound if its variable does. -/
theorem PivotEntry.reach?_eq {tolerances : Tolerances F} {direction : F}
    {entry : PivotEntry F} (hunit : |direction| = 1)
    (hlarge : tolerances.ratioPivot ≤ |entry.alpha|) (harris : F) :
  entry.reach? tolerances harris direction
    = entry.row.bounds.reach? (tolerances.primal * harris) entry.row.value
      (direction * entry.alpha)
  := by
  unfold reach? BasicRow.reach?
  rw [ExactScalar.magnitude_eq_abs, abs_mul, hunit, one_mul, if_neg (not_lt.mpr hlarge)]

/-- A step to a relaxed bound is at least as long as the one to the bound itself. -/
theorem PivotEntry.exists_reach?_le {tolerances : Tolerances F} {direction harris step : F}
    (hrelaxation : 0 ≤ tolerances.primal * harris) {entry : PivotEntry F}
    (h : entry.reach? tolerances harris direction = some step) :
  ∃ length ≤ step, entry.reach? tolerances 0 direction = some length
  := by
  unfold reach? BasicRow.reach? at h ⊢
  split at h
  · cases h
  · rename_i hlarge
    rw [if_neg hlarge, mul_zero]
    apply Bounds.exists_reach?_le hrelaxation h

/-- The rows that reach a bound itself within a step, with the steps they take to it. -/
theorem PivotEntry.mem_blocking_iff {tolerances : Tolerances F} {direction bound step : F}
    {large : List (PivotEntry F)} {entry : PivotEntry F} :
  (entry, step) ∈ (large.filterMap fun entry =>
      ((entry.reach? tolerances 0 direction).filter fun step => step ≤ bound).map fun step =>
        (entry, step))
    ↔ entry ∈ large ∧ entry.reach? tolerances 0 direction = some step ∧ step ≤ bound
  := by
  rw [List.mem_filterMap]
  constructor
  · rintro ⟨other, hother, hfound⟩
    obtain ⟨_, hstep, heq⟩ := Option.map_eq_some_iff.mp hfound
    cases heq
    obtain ⟨hexact, hwithin⟩ := Option.filter_eq_some_iff.mp hstep
    exact ⟨hother, hexact, of_decide_eq_true hwithin⟩
  · rintro ⟨hentry, hexact, hwithin⟩
    refine ⟨entry, hentry, ?_⟩
    rw [hexact, Option.filter_some, if_pos (decide_eq_true hwithin)]
    rfl

/-- What the primal test comes to.  Without a blocking row no row with an entry that is not small has
a bound ahead of it.  The step of the blocking row takes its variable to the bound itself, and is at
most as long as the one to the relaxed bound of any row with an entry that is not small.  No row that
does the same has a larger entry. -/
theorem primalRatioTest?_cases {tolerances : Tolerances F}
    (hrelaxation : 0 ≤ tolerances.primal * tolerances.harris) (direction : F)
    (entries : List (PivotEntry F)) :
  (primalRatioTest? tolerances direction entries = none
      ∧ ∀ entry ∈ entries, tolerances.ratioPivot ≤ |entry.alpha| →
        entry.reach? tolerances tolerances.harris direction = none)
    ∨ ∃ entry ∈ entries, ∃ step,
      primalRatioTest? tolerances direction entries = some (entry.row.position, step)
        ∧ entry.reach? tolerances 0 direction = some step
        ∧ (∀ other ∈ entries, tolerances.ratioPivot ≤ |other.alpha| →
          ∀ length, other.reach? tolerances tolerances.harris direction = some length →
            step ≤ length)
        ∧ tolerances.ratioPivot ≤ |entry.alpha|
        ∧ ∀ other ∈ entries, tolerances.ratioPivot ≤ |other.alpha| →
          ∀ own, other.reach? tolerances 0 direction = some own →
            (∀ third ∈ entries, tolerances.ratioPivot ≤ |third.alpha| →
              ∀ length, third.reach? tolerances tolerances.harris direction = some length →
                own ≤ length) →
            |other.alpha| ≤ |entry.alpha|
  := by
  generalize hlist : (entries.filter fun entry =>
    tolerances.ratioPivot ≤ Scalar.magnitude entry.alpha) = large
  have hmem (entry : PivotEntry F) :
      entry ∈ large ↔ entry ∈ entries ∧ tolerances.ratioPivot ≤ |entry.alpha| := by
    rw [← hlist, List.mem_filter, ExactScalar.magnitude_eq_abs, decide_eq_true_iff]
  unfold primalRatioTest?
  dsimp only
  rw [hlist]
  rcases smallestStep?_cases (large.map
      (PivotEntry.reach? tolerances tolerances.harris direction)) with
    ⟨hnone, hall⟩ | ⟨bound, hbound, hsmallest, hle⟩
  · rw [hnone]
    refine Or.inl ⟨rfl, ?_⟩
    intro entry hentry hlarge
    apply hall _ (List.mem_map_of_mem ((hmem entry).mpr ⟨hentry, hlarge⟩))
  · rw [hbound, Option.filter_some, if_pos (ExactScalar.isFinite_eq_true bound), Option.bind_eq_bind,
      Option.bind_some]
    apply Or.inr
    -- The row with the smallest step blocks within it.
    obtain ⟨blocking, hblocking, hread⟩ := List.mem_map.mp hsmallest
    obtain ⟨length, hlength, hexact⟩ := PivotEntry.exists_reach?_le hrelaxation hread
    generalize hlist : List.filterMap _ _ = blockers
    have hblocks (entry : PivotEntry F) (step : F) :
        (entry, step) ∈ blockers
          ↔ entry ∈ large ∧ entry.reach? tolerances 0 direction = some step ∧ step ≤ bound := by
      rw [← hlist]
      apply PivotEntry.mem_blocking_iff
    cases hheaviest : heaviest? (fun pair : PivotEntry F × F => Scalar.magnitude pair.1.alpha)
        blockers with
    | none =>
        have hmem := (hblocks blocking length).mpr ⟨hblocking, hexact, hlength⟩
        rw [eq_nil_of_heaviest?_eq_none hheaviest] at hmem
        cases hmem
    | some pair =>
        obtain ⟨entry, step⟩ := pair
        obtain ⟨hentry, hstep, hwithin⟩ := (hblocks entry step).mp (mem_of_heaviest? hheaviest)
        refine ⟨entry, ((hmem entry).mp hentry).1, step, rfl, hstep, ?_, ((hmem entry).mp hentry).2,
          ?_⟩
        · intro other hother hlarge length hlength
          apply hwithin.trans
          apply hle
          rw [← hlength]
          apply List.mem_map_of_mem ((hmem other).mpr ⟨hother, hlarge⟩)
        · intro other hother hlarge own hown hfirst
          obtain ⟨hread', hlarge'⟩ := (hmem blocking).mp hblocking
          have hweight := le_of_heaviest? hheaviest ((hblocks other own).mpr
            ⟨(hmem other).mpr ⟨hother, hlarge⟩, hown, hfirst blocking hread' hlarge' bound hread⟩)
          rw [ExactScalar.magnitude_eq_abs, ExactScalar.magnitude_eq_abs] at hweight
          apply hweight

/-! ### The dual test -/

/-- An eligible variable comes with what its entry says. -/
theorem PivotRowEntry.eligible?_spec {ratioPivot : F} {increase : Bool}
    {entry : PivotRowEntry F} {eligible : Eligible F}
    (h : entry.eligible? ratioPivot increase = some eligible) :
  eligible.index = entry.index ∧ eligible.direction = entry.direction increase
    ∧ eligible.magnitude = |entry.alpha|
    ∧ eligible.cost = max (eligible.direction * entry.reducedCost) 0
    ∧ ratioPivot ≤ |entry.alpha|
  := by
  unfold eligible? at h
  obtain ⟨hnot, h⟩ := Option.ite_none_left_eq_some.mp h
  cases h
  rw [Bool.or_eq_true, not_or, decide_eq_true_eq, ExactScalar.magnitude_eq_abs, not_lt] at hnot
  refine ⟨rfl, rfl, ?_, ?_, hnot.1⟩
  · apply ExactScalar.magnitude_eq_abs
  · apply ExactScalar.larger_eq_max

/-- An eligible variable moves the leaving variable towards the bound that it violates. -/
theorem PivotRowEntry.sign_of_eligible? {ratioPivot : F} {side : Side} {entry : PivotRowEntry F}
    {eligible : Eligible F}
    (h : entry.eligible? ratioPivot (decide (side = .lower)) = some eligible) :
  side.direction * (eligible.direction * entry.alpha) < 0
  := by
  unfold eligible? at h
  obtain ⟨hnot, h⟩ := Option.ite_none_left_eq_some.mp h
  cases h
  rw [Bool.or_eq_true, not_or] at hnot
  cases side with
  | lower =>
      have hrate : 0 < -entry.direction true * entry.alpha := by simpa using hnot.2
      change 1 * (entry.direction true * entry.alpha) < 0
      linarith
  | upper =>
      have hrate : -entry.direction false * entry.alpha < 0 := by simpa using hnot.2
      change -1 * (entry.direction false * entry.alpha) < 0
      linarith

/-- A variable that is not eligible, with an entry that is not small, does not move the leaving
variable towards the bound that it violates. -/
theorem PivotRowEntry.sign_of_eligible?_eq_none {ratioPivot : F} {side : Side}
    {entry : PivotRowEntry F} (h : entry.eligible? ratioPivot (decide (side = .lower)) = none)
    (hlarge : ratioPivot ≤ |entry.alpha|) :
  0 ≤ side.direction * (entry.direction (decide (side = .lower)) * entry.alpha)
  := by
  have hnot : ¬ |entry.alpha| < ratioPivot := not_lt.mpr hlarge
  unfold eligible? at h
  cases side with
  | lower =>
      change 0 ≤ 1 * (entry.direction true * entry.alpha)
      have hrate : -entry.direction true * entry.alpha ≤ 0 := by
        simpa [ExactScalar.magnitude_eq_abs, hnot] using h
      linarith
  | upper =>
      change 0 ≤ -1 * (entry.direction false * entry.alpha)
      have hrate : 0 ≤ -entry.direction false * entry.alpha := by
        simpa [ExactScalar.magnitude_eq_abs, hnot] using h
      linarith

/-- A free variable goes in the direction that helps, unless its entry is zero. -/
theorem PivotRowEntry.alpha_eq_zero_of_free {side : Side} {entry : PivotRowEntry F}
    (hfree : entry.side = none)
    (h : 0 ≤ side.direction * (entry.direction (decide (side = .lower)) * entry.alpha)) :
  entry.alpha = 0
  := by
  rw [← abs_nonpos_iff, ← ExactScalar.signOf_mul_self]
  unfold direction at h
  rw [hfree] at h
  cases side with
  | lower => simpa [Side.direction] using h
  | upper => simpa [Side.direction] using h

theorem PivotRowEntry.direction_of_side {increase : Bool} {side : Side} {entry : PivotRowEntry F}
    (h : entry.side = some side) :
  entry.direction increase = side.direction
  := by
  unfold direction
  rw [h]

/-- The direction of an entry is a sign. -/
theorem PivotRowEntry.abs_direction (increase : Bool) (entry : PivotRowEntry F) :
  |entry.direction increase| = 1
  := by
  cases hside : entry.side with
  | some side => rw [direction_of_side hside, Side.abs_direction]
  | none =>
      unfold direction
      rw [hside]
      cases increase <;> simp [abs_signOf]

namespace Eligible

variable {tolerances : Tolerances F} {eligible : List (Eligible F)}

/-- The variables within the ratio have a ratio at most as large as the relaxed ratio of any eligible
variable, and there are some. -/
theorem withinRatio_cases (tolerances : Tolerances F) (h : eligible ≠ []) :
  ∃ x ∈ eligible,
    (∀ y ∈ eligible, (x.cost + tolerances.dual * tolerances.harris) / x.magnitude
      ≤ (y.cost + tolerances.dual * tolerances.harris) / y.magnitude)
    ∧ ∀ y, y ∈ withinRatio tolerances eligible ↔ y ∈ eligible ∧ y.cost / y.magnitude
      ≤ (x.cost + tolerances.dual * tolerances.harris) / x.magnitude
  := by
  rcases smallestStep?_cases (eligible.map fun x =>
      some ((x.cost + tolerances.dual * tolerances.harris) / x.magnitude)) with
    ⟨-, hall⟩ | ⟨bound, hbound, hmem, hle⟩
  · obtain ⟨x, hx⟩ := List.exists_mem_of_ne_nil eligible h
    cases hall _ (List.mem_map_of_mem hx)
  · obtain ⟨x, hx, hsame⟩ := List.mem_map.mp hmem
    rw [Option.some_inj] at hsame
    subst hsame
    refine ⟨x, hx, fun y hy => hle _ (List.mem_map_of_mem hy), ?_⟩
    intro y
    unfold withinRatio
    dsimp only
    rw [hbound, List.mem_filter]
    simp only [decide_eq_true_eq]

/-- Some eligible variable lies within the ratio. -/
theorem withinRatio_ne_nil (hrelaxation : 0 ≤ tolerances.dual * tolerances.harris)
    (hmagnitude : ∀ x ∈ eligible, 0 ≤ x.magnitude) (h : eligible ≠ []) :
  withinRatio tolerances eligible ≠ []
  := by
  obtain ⟨x, hx, -, hiff⟩ := withinRatio_cases tolerances h
  apply List.ne_nil_of_mem (a := x)
  refine (hiff x).mpr ⟨hx, ?_⟩
  apply div_le_div_of_nonneg_right _ (hmagnitude x hx)
  linarith

/-- The ratio of a variable within the ratio is at most the relaxed one of any eligible variable. -/
theorem le_of_mem_withinRatio {x y : Eligible F} (hx : x ∈ withinRatio tolerances eligible)
    (hy : y ∈ eligible) :
  x.cost / x.magnitude ≤ (y.cost + tolerances.dual * tolerances.harris) / y.magnitude
  := by
  obtain ⟨_, -, hle, hiff⟩ := withinRatio_cases tolerances (List.ne_nil_of_mem hy)
  apply ((hiff x).mp hx).2.trans (hle y hy)

end Eligible

/-- Without a result of the dual test no variable is eligible. -/
theorem eligible?_of_dualRatioTest?_eq_none {tolerances : Tolerances F}
    (hdual : 0 ≤ tolerances.dual) (hharris : 0 ≤ tolerances.harris) {increase : Bool}
    {entries : List (PivotRowEntry F)} (h : dualRatioTest? tolerances increase entries = none)
    {entry : PivotRowEntry F} (hentry : entry ∈ entries) :
  entry.eligible? tolerances.ratioPivot increase = none
  := by
  unfold dualRatioTest? at h
  have hnil := eq_nil_of_heaviest?_eq_none h
  have heligible :
      entries.filterMap (PivotRowEntry.eligible? tolerances.ratioPivot increase) = [] := by
    split at hnil
    · by_contra hne
      apply Eligible.withinRatio_ne_nil (mul_nonneg hdual hharris) _ hne hnil
      intro x hx
      obtain ⟨other, -, hother⟩ := List.mem_filterMap.mp hx
      obtain ⟨-, -, hmagnitude, -⟩ := PivotRowEntry.eligible?_spec hother
      rw [hmagnitude]
      apply abs_nonneg
    · apply hnil
  rw [List.filterMap_eq_nil_iff] at heligible
  apply heligible entry hentry

/-- If all reduced costs have the right sign, the ratio of the entering variable is at most the
relaxed one of any eligible variable. -/
theorem le_of_dualRatioTest? {tolerances : Tolerances F} {increase : Bool}
    {entries : List (PivotRowEntry F)} {entering other : Eligible F}
    (hfeasible : ∀ entry ∈ entries, entry.isDualFeasible tolerances.dual = true)
    (h : dualRatioTest? tolerances increase entries = some entering)
    {entry : PivotRowEntry F} (hentry : entry ∈ entries)
    (hother : entry.eligible? tolerances.ratioPivot increase = some other) :
  entering.cost / entering.magnitude
    ≤ (other.cost + tolerances.dual * tolerances.harris) / other.magnitude
  := by
  unfold dualRatioTest? at h
  dsimp only at h
  rw [if_pos (List.all_eq_true.mpr hfeasible)] at h
  apply Eligible.le_of_mem_withinRatio (mem_of_heaviest? h)
  apply List.mem_filterMap.mpr ⟨entry, hentry, hother⟩

end RevisedSimplex
