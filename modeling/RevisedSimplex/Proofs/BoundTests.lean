import RevisedSimplex.Proofs.Violations

/-!
# Bounds in exact numbers

What the tests on the bounds of a variable say about its value.  A value is `Within` its bounds if
it lies outside by no more than a tolerance, and contained in them if the tolerance is zero.  These
are the values without a violation.

A value that decreases at a rate is still within its bounds after any step that is no longer than
the one to the relaxed bound ahead of it, as long as the bound is relaxed by no more than the
tolerance.  The step to the bound itself takes it exactly there.
-/

namespace RevisedSimplex

variable {F : Type} [ExactScalar F]

/-- The direction of a side is a sign. -/
theorem Side.abs_direction (side : Side) :
  |(side.direction : F)| = 1
  := by
  cases side <;> simp [Side.direction]

namespace Bounds

variable {bounds : Bounds F} {tolerance relaxation value rate step range : F}

/-! ### Values within bounds -/

/-- The value lies within the bounds. -/
structure Contains (bounds : Bounds F) (value : F) : Prop where
  lower : ∀ l, bounds.lower = some l → l ≤ value
  upper : ∀ u, bounds.upper = some u → value ≤ u

/-- The value lies outside of the bounds by no more than a tolerance. -/
structure Within (bounds : Bounds F) (tolerance value : F) : Prop where
  lower : ∀ l, bounds.lower = some l → l - tolerance ≤ value
  upper : ∀ u, bounds.upper = some u → value ≤ u + tolerance

theorem Contains.within (h : bounds.Contains value) (ht : 0 ≤ tolerance) :
  bounds.Within tolerance value
  := by
  constructor
  · intro l hl
    have hle := h.lower l hl
    linarith
  · intro u hu
    have hle := h.upper u hu
    linarith

theorem within_zero_iff :
  bounds.Within 0 value ↔ bounds.Contains value
  := by
  constructor
  · intro h
    constructor
    · intro l hl
      rw [← sub_zero l]
      apply h.lower l hl
    · intro u hu
      rw [← add_zero u]
      apply h.upper u hu
  · intro h
    apply h.within le_rfl

/-! ### Ranges -/

/-- A range is not negative. -/
theorem range_nonneg (h : bounds.range? = some range) :
  0 ≤ range
  := by
  unfold range? at h
  cases hl : bounds.lower with
  | none => simp [hl] at h
  | some l =>
      cases hu : bounds.upper with
      | none => simp [hl, hu] at h
      | some u =>
          simp only [hl, hu, Option.some.injEq] at h
          rw [← h]
          apply sub_nonneg.mpr (bounds.ordered l u hl hu)

/-- With tolerance zero no variable is fixed. -/
theorem isFixed_zero (bounds : Bounds F) :
  bounds.isFixed 0 = false
  := by
  unfold isFixed
  cases hrange : bounds.range? with
  | none => rfl
  | some range => simpa using range_nonneg hrange

theorem finiteRange?_eq (bounds : Bounds F) :
  bounds.finiteRange? = bounds.range?
  := by
  unfold finiteRange?
  cases bounds.range? <;> rfl

/-! ### Resting variables -/

section Resting

variable {stored side : Side}

/-- A variable that rests at a side has the value of the bound there. -/
theorem at?_of_restingSide? (h : bounds.restingSide? stored = some side) :
  bounds.at? side = some (bounds.restingValue stored)
  := by
  have hsome : (bounds.at? side).isSome = true := by
    unfold restingSide? at h
    split at h
    · rename_i hstored
      cases h
      apply hstored
    · split at h
      · rename_i hother
        cases h
        apply hother
      · cases h
  obtain ⟨x, hx⟩ := Option.isSome_iff_exists.mp hsome
  unfold restingValue
  rw [h, Option.bind_some, hx]
  rfl

/-- Only a variable without bounds rests at no side. -/
theorem restingSide?_eq_none_iff :
  bounds.restingSide? stored = none ↔ bounds.lower = none ∧ bounds.upper = none
  := by
  cases hl : bounds.lower <;> cases hu : bounds.upper <;> cases stored <;>
    simp [restingSide?, at?, Side.other, hl, hu]

/-- A nonbasic variable without bounds rests at zero, and within its bounds in any case. -/
theorem contains_restingValue (bounds : Bounds F) (stored : Side) :
  bounds.Contains (bounds.restingValue stored)
  := by
  cases hside : bounds.restingSide? stored with
  | some side =>
      have hat := at?_of_restingSide? hside
      cases side with
      | lower =>
          constructor
          · intro l hl
            apply (Option.some_inj.mp (hl.symm.trans hat)).le
          · intro u hu
            apply bounds.ordered _ u hat hu
      | upper =>
          constructor
          · intro l hl
            apply bounds.ordered l _ hl hat
          · intro u hu
            apply (Option.some_inj.mp (hat.symm.trans hu)).le
  | none =>
      obtain ⟨hlower, hupper⟩ := restingSide?_eq_none_iff.mp hside
      constructor
      · intro l hl
        rw [hlower] at hl
        cases hl
      · intro u hu
        rw [hupper] at hu
        cases hu

/-- A variable with a range rests at the stored side, and at the distance of the range from it on
the other side. -/
theorem restingValue_other (stored : Side) (h : bounds.range? = some range) :
  bounds.restingSide? stored = some stored
    ∧ bounds.restingValue stored.other
      = bounds.restingValue stored + stored.direction * range
  := by
  unfold range? at h
  cases hl : bounds.lower with
  | none => simp [hl] at h
  | some l =>
      cases hu : bounds.upper with
      | none => simp [hl, hu] at h
      | some u =>
          simp only [hl, hu, Option.some.injEq] at h
          subst h
          cases stored with
          | lower =>
              simp only [restingValue, restingSide?, at?, Side.other, Side.direction, hl, hu]
              simp [at?, hl, hu]
          | upper =>
              simp only [restingValue, restingSide?, at?, Side.other, Side.direction, hl, hu]
              simp [at?, hl, hu]

/-- A variable that is put to a side with a bound rests at this side. -/
theorem restingSide?_of_at? {stored : Side} (h : bounds.at? stored = some value) :
  bounds.restingSide? stored = some stored
  := by
  unfold restingSide?
  rw [h]
  rfl

/-- A variable that is put to a bound rests there. -/
theorem restingValue_of_at? {stored : Side} (h : bounds.at? stored = some value) :
  bounds.restingValue stored = value
  := by
  unfold restingValue
  rw [restingSide?_of_at? h, Option.bind_some, h]
  rfl

/-- A value at a bound is closest to this bound. -/
theorem at?_closestSide (h : bounds.lower = some value ∨ bounds.upper = some value) :
  bounds.at? (bounds.closestSide 0 value) = some value
  := by
  unfold closestSide
  rw [isFixed_zero]
  cases hl : bounds.lower with
  | none =>
      rw [hl] at h
      have hu := h.resolve_left (by simp)
      simp [at?, hu]
  | some l =>
      cases hu : bounds.upper with
      | none =>
          rw [hl, hu] at h
          have hvalue : l = value := by simpa using h
          simp [at?, hl, hvalue]
      | some u =>
          have hle := bounds.ordered l u hl hu
          simp only [hl, hu, Option.some.injEq] at h
          simp only [Bool.false_eq_true, if_false]
          split
          · rename_i hcloser
            have hvalue : u = value := by
              rcases h with rfl | rfl
              · exfalso
                linarith
              · rfl
            simp [at?, hu, hvalue]
          · rename_i hcloser
            have hvalue : l = value := by
              rcases h with rfl | rfl
              · rfl
              · linarith
            simp [at?, hl, hvalue]

/-- A value at a bound of a variable that is not fixed is closest to this bound. -/
theorem closestSide_of_at? (ht : 0 < tolerance) (hfixed : bounds.isFixed tolerance = false)
    {side : Side} (h : bounds.at? side = some value) :
  bounds.closestSide tolerance value = side
  := by
  unfold closestSide
  rw [hfixed]
  unfold isFixed range? at hfixed
  cases side with
  | lower =>
      have hl : bounds.lower = some value := h
      cases hu : bounds.upper with
      | none => simp
      | some u =>
          have hle := bounds.ordered value u hl hu
          simpa [hl] using hle
  | upper =>
      have hu : bounds.upper = some value := h
      cases hl : bounds.lower with
      | none => simp [hu]
      | some l =>
          have hrange : tolerance ≤ value - l := by simpa [hl, hu] using hfixed
          have hlt : l < value := by linarith
          simpa [hu] using hlt

/-- A fixed variable has a lower bound, and this is where it is put. -/
theorem closestSide_of_isFixed (hfixed : bounds.isFixed tolerance = true) (value : F) :
  bounds.closestSide tolerance value = .lower ∧ ∃ l, bounds.lower = some l
  := by
  constructor
  · unfold closestSide
    rw [if_pos hfixed]
  · unfold isFixed range? at hfixed
    cases hl : bounds.lower with
    | some l => exact ⟨l, rfl⟩
    | none => simp [hl] at hfixed

/-- The side of a variable that is not fixed is that of the nearest bound. -/
theorem closestSide_nearest (hfixed : bounds.isFixed tolerance = false) {side : Side}
    {bound : F} (hbound : bounds.at? side = some bound) :
  ∃ nearest, bounds.at? (bounds.closestSide tolerance value) = some nearest
    ∧ |value - nearest| ≤ |value - bound|
  := by
  unfold closestSide
  rw [hfixed]
  simp only [Bool.false_eq_true, if_false]
  cases hl : bounds.lower with
  | none =>
      cases hu : bounds.upper with
      | none => cases side <;> simp [at?, hl, hu] at hbound
      | some u =>
          have hsame : u = bound := by
            cases side <;> simp [at?, hl, hu] at hbound
            apply hbound
          exact ⟨u, hu, by rw [hsame]⟩
  | some l =>
      cases hu : bounds.upper with
      | none =>
          have hsame : l = bound := by
            cases side <;> simp [at?, hl, hu] at hbound
            apply hbound
          exact ⟨l, hl, by rw [hsame]⟩
      | some u =>
          have hle := bounds.ordered l u hl hu
          have hsame : bound = l ∨ bound = u := by
            cases side with
            | lower => exact Or.inl (Option.some_inj.mp (hbound.symm.trans hl))
            | upper => exact Or.inr (Option.some_inj.mp (hbound.symm.trans hu))
          dsimp only
          split
          · rename_i hcloser
            refine ⟨u, hu, ?_⟩
            rcases hsame with rfl | rfl
            · have hreach := le_abs_self (value - bound)
              rw [abs_le]
              constructor <;> linarith
            · rfl
          · rename_i hcloser
            refine ⟨l, hl, ?_⟩
            rcases hsame with rfl | rfl
            · rfl
            · have hreach := neg_abs_le (value - bound)
              rw [abs_le]
              constructor <;> linarith

end Resting

/-- A variable that leaves the side at which it rests stays within its bounds until it exceeds its
range by more than the tolerance. -/
theorem within_restingValue_add {stored : Side} {side : Option Side}
    (ht : 0 ≤ tolerance) (hside : bounds.restingSide? stored = side) {direction : F}
    (hdirection : ∀ s, side = some s → direction = s.direction) (hstep : 0 ≤ step)
    (hrange : ∀ range, bounds.range? = some range → step ≤ range + tolerance) :
  bounds.Within tolerance (bounds.restingValue stored + direction * step)
  := by
  have hresting := bounds.contains_restingValue stored
  cases side with
  | some s =>
      have hat := at?_of_restingSide? hside
      rw [hdirection s rfl]
      unfold range? at hrange
      cases s with
      | lower =>
          have hlower : bounds.lower = some (bounds.restingValue stored) := hat
          rw [hlower] at hrange
          constructor
          · intro l hl
            have hle := hresting.lower l hl
            change _ ≤ _ + 1 * step
            linarith
          · intro u hu
            rw [hu] at hrange
            have hle := hrange _ rfl
            change _ + 1 * step ≤ _
            linarith
      | upper =>
          have hupper : bounds.upper = some (bounds.restingValue stored) := hat
          rw [hupper] at hrange
          constructor
          · intro l hl
            rw [hl] at hrange
            have hle := hrange _ rfl
            change _ ≤ _ + -1 * step
            linarith
          · intro u hu
            have hle := hresting.upper u hu
            change _ + -1 * step ≤ _
            linarith
  | none =>
      obtain ⟨hlower, hupper⟩ := restingSide?_eq_none_iff.mp hside
      constructor
      · intro l hl
        rw [hlower] at hl
        cases hl
      · intro u hu
        rw [hupper] at hu
        cases hu

/-! ### Violations -/

/-- A value that violates the lower bound lies below it, and one that violates the upper bound lies
above it. -/
theorem violated?_spec {side : Side} {bound : F}
    (h : bounds.violated? tolerance value = some (side, bound)) :
  (side = .lower ∧ bounds.lower = some bound ∧ value < bound - tolerance)
    ∨ (side = .upper ∧ bounds.upper = some bound ∧ bound + tolerance < value)
  := by
  unfold violated? at h
  split at h
  · rename_i l hl
    cases h
    obtain ⟨hlower, hlt⟩ := Option.filter_eq_some_iff.mp hl
    apply Or.inl ⟨rfl, hlower, by simpa using hlt⟩
  · obtain ⟨u, hu, heq⟩ := Option.map_eq_some_iff.mp h
    cases heq
    obtain ⟨hupper, hlt⟩ := Option.filter_eq_some_iff.mp hu
    apply Or.inr ⟨rfl, hupper, by simpa using hlt⟩

/-- A value that violates a bound lies below the lower one if that is the bound it violates. -/
theorem any_lower_of_violated? (ht : 0 ≤ tolerance) {side : Side} {bound : F}
    (h : bounds.violated? tolerance value = some (side, bound)) :
  (bounds.lower.any fun l => value < l) = decide (side = .lower)
  := by
  rcases violated?_spec h with ⟨rfl, hlower, hlt⟩ | ⟨rfl, hupper, hlt⟩
  · have hbelow : value < bound := by linarith
    simpa [hlower] using hbelow
  · cases hl : bounds.lower with
    | none => rfl
    | some l =>
        have hle := bounds.ordered l bound hl hupper
        have habove : l ≤ value := by linarith
        simpa using habove

/-- A value without a violation lies within the bounds. -/
theorem within_of_violated?_eq_none (h : bounds.violated? tolerance value = none) :
  bounds.Within tolerance value
  := by
  unfold violated? at h
  split at h
  · cases h
  · rename_i hnone
    constructor
    · intro l hl
      rw [hl] at hnone
      simpa using hnone
    · intro u hu
      rw [hu] at h
      simpa using h

/-- The values within the bounds are those without a violation. -/
theorem violation_eq_zero_iff (ht : 0 ≤ tolerance) :
  bounds.violation tolerance value = 0 ↔ bounds.Within tolerance value
  := by
  constructor
  · intro h
    apply within_of_violated?_eq_none
    apply violated?_eq_none_of_not_pos ht
    rw [h]
    apply lt_irrefl
  · intro h
    unfold violation
    cases hviolated : bounds.violated? tolerance value with
    | none => rfl
    | some violated =>
        rcases violated?_spec hviolated with ⟨-, hl, hlt⟩ | ⟨-, hu, hlt⟩
        · cases not_le.mpr hlt (h.lower _ hl)
        · cases not_le.mpr hlt (h.upper _ hu)

/-! ### Steps -/

/-- A value that decreases at a rate within its bounds has reached a bound after the step. -/
theorem reach?_spec (hcontains : bounds.Contains value)
    (h : bounds.reach? 0 value rate = some step) :
  bounds.lower = some (value - step * rate) ∨ bounds.upper = some (value - step * rate)
  := by
  unfold reach? at h
  split at h
  · rename_i hpos
    obtain ⟨l, hl, rfl⟩ := Option.map_eq_some_iff.mp h
    have hle := hcontains.lower l hl
    have hnonneg : 0 ≤ (value - l) / rate := div_nonneg (sub_nonneg.mpr hle) hpos.le
    apply Or.inl
    rw [add_zero, ExactScalar.larger_eq_max, max_eq_left hnonneg, div_mul_cancel₀ _ hpos.ne', hl,
      sub_sub_cancel]
  · split at h
    · rename_i hneg
      obtain ⟨u, hu, rfl⟩ := Option.map_eq_some_iff.mp h
      have hle := hcontains.upper u hu
      have hnonneg : 0 ≤ (value - u) / rate :=
        div_nonneg_of_nonpos (sub_nonpos.mpr hle) hneg.le
      apply Or.inr
      rw [sub_zero, ExactScalar.larger_eq_max, max_eq_left hnonneg, div_mul_cancel₀ _ hneg.ne, hu,
        sub_sub_cancel]
    · cases h

/-- A step to a bound is not negative. -/
theorem reach?_nonneg (h : bounds.reach? relaxation value rate = some step) :
  0 ≤ step
  := by
  unfold reach? at h
  split at h
  · obtain ⟨l, -, rfl⟩ := Option.map_eq_some_iff.mp h
    rw [ExactScalar.larger_eq_max]
    apply le_max_right
  · split at h
    · obtain ⟨u, -, rfl⟩ := Option.map_eq_some_iff.mp h
      rw [ExactScalar.larger_eq_max]
      apply le_max_right
    · cases h

/-- The step to the bound itself is at most as long as the one to the relaxed bound. -/
theorem exists_reach?_le (hrelaxation : 0 ≤ relaxation)
    (h : bounds.reach? relaxation value rate = some step) :
  ∃ length ≤ step, bounds.reach? 0 value rate = some length
  := by
  unfold reach? at h ⊢
  split at h
  · rename_i hpos
    obtain ⟨l, hl, rfl⟩ := Option.map_eq_some_iff.mp h
    rw [if_pos hpos, hl, Option.map_some]
    refine ⟨_, ?_, rfl⟩
    rw [ExactScalar.larger_eq_max, ExactScalar.larger_eq_max]
    apply max_le_max_right
    apply div_le_div_of_nonneg_right _ hpos.le
    linarith
  · rename_i hnot
    split at h
    · rename_i hneg
      obtain ⟨u, hu, rfl⟩ := Option.map_eq_some_iff.mp h
      rw [if_neg hnot, if_pos hneg, hu, Option.map_some]
      refine ⟨_, ?_, rfl⟩
      rw [ExactScalar.larger_eq_max, ExactScalar.larger_eq_max]
      apply max_le_max_right
      apply div_le_div_of_nonpos_of_le hneg.le
      linarith
    · cases h

/-- A value that decreases no further than to the relaxed bound ahead of it stays within its bounds
if the bound is relaxed by no more than the tolerance. -/
theorem Within.sub_mul (h : bounds.Within tolerance value) (hrelaxation : relaxation ≤ tolerance)
    (hstep : 0 ≤ step) (hreach : ∀ t, bounds.reach? relaxation value rate = some t → step ≤ t) :
  bounds.Within tolerance (value - step * rate)
  := by
  rcases lt_trichotomy rate 0 with hneg | rfl | hpos
  · have hmove : step * rate ≤ 0 := mul_nonpos_of_nonneg_of_nonpos hstep hneg.le
    constructor
    · intro l hl
      have hle := h.lower l hl
      linarith
    · intro u hu
      have hle := h.upper u hu
      unfold reach? at hreach
      rw [if_neg (not_lt.mpr hneg.le), if_pos hneg, hu, Option.map_some] at hreach
      have hlimit := hreach _ rfl
      rw [ExactScalar.larger_eq_max] at hlimit
      rcases le_max_iff.mp hlimit with hlimit | hlimit
      · rw [le_div_iff_of_neg hneg] at hlimit
        linarith
      · rw [le_antisymm hlimit hstep, zero_mul, sub_zero]
        apply hle
  · rw [mul_zero, sub_zero]
    apply h
  · have hmove : 0 ≤ step * rate := mul_nonneg hstep hpos.le
    constructor
    · intro l hl
      have hle := h.lower l hl
      unfold reach? at hreach
      rw [if_pos hpos, hl, Option.map_some] at hreach
      have hlimit := hreach _ rfl
      rw [ExactScalar.larger_eq_max] at hlimit
      rcases le_max_iff.mp hlimit with hlimit | hlimit
      · rw [le_div_iff₀ hpos] at hlimit
        linarith
      · rw [le_antisymm hlimit hstep, zero_mul, sub_zero]
        apply hle
    · intro u hu
      have hle := h.upper u hu
      linarith

/-- A value that violates a bound has reached it after the step of the repair. -/
theorem repairStep_spec {side : Side} {bound : F}
    (h : bounds.violated? tolerance value = some (side, bound)) (hrate : rate ≠ 0) :
  value - bounds.repairStep tolerance 0 value rate * rate = bound
    ∧ bounds.at? side = some bound
    ∧ bounds.repairStep tolerance 0 value rate = (value - bound) / rate
  := by
  unfold repairStep
  rw [h]
  rcases violated?_spec h with ⟨rfl, hlower, -⟩ | ⟨rfl, hupper, -⟩
  · simp only [add_zero]
    refine ⟨?_, hlower, trivial⟩
    rw [div_mul_cancel₀ _ hrate, sub_sub_cancel]
  · simp only [sub_zero]
    refine ⟨?_, hupper, trivial⟩
    rw [div_mul_cancel₀ _ hrate, sub_sub_cancel]

end Bounds

end RevisedSimplex
