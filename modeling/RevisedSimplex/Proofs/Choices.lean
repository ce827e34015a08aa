import RevisedSimplex.RatioTest
import RevisedSimplex.Proofs.Entries

/-!
# Choices of a step in any numbers

A pricing rule chooses a place in the list it is given, and a ratio test one of the entries it is
given.  So a variable that enters is one of the nonbasic ones, and a row that leaves is one of the
rows.  None of this asks anything of the numbers.
-/

namespace RevisedSimplex

variable {F : Type} [Scalar F]

/-! ### Pricing rules -/

namespace PricingRule

theorem firstLargest?_eq_none {values : List F} (h : firstLargest? values = none) :
  values = []
  := by
  unfold firstLargest? at h
  rw [Option.map_eq_none_iff] at h
  have hnil : values.zipIdx = [] := by
    apply foldl_select_ne_none _ _ h
    rintro (_ | ⟨value, place⟩) entry
    · simp
    · dsimp only
      split <;> simp
  simpa using hnil

theorem firstLargest?_lt {values : List F} {place : ℕ} (h : firstLargest? values = some place) :
  place < values.length
  := by
  unfold firstLargest? at h
  obtain ⟨⟨value, i⟩, hbest, hplace⟩ := Option.map_eq_some_iff.mp h
  have hmem : (value, i) ∈ values.zipIdx := by
    apply (foldl_select_mem _ _ hbest).resolve_left (by simp)
    rintro (_ | ⟨best, j⟩) entry
    · apply Or.inr rfl
    · dsimp only
      split
      · apply Or.inl rfl
      · apply Or.inr rfl
  rw [← hplace]
  obtain ⟨hlt, -⟩ := List.getElem?_eq_some_iff.mp (List.mem_zipIdx_iff_getElem?.mp hmem)
  apply hlt

omit [Scalar F] in
theorem firstPlace?_lt {α : Type} {list : List α} {place : ℕ} (h : firstPlace? list = some place) :
  place < list.length
  := by
  cases list with
  | nil => cases h
  | cons _ _ =>
      cases h
      apply Nat.succ_pos

omit [Scalar F] in
theorem firstPlace?_eq_none {α : Type} {list : List α} (h : firstPlace? list = none) :
  list = []
  := by
  cases list with
  | nil => rfl
  | cons _ _ => cases h

/-- A rule that chooses a place in every list that is not empty. -/
structure Complete (rule : PricingRule F) : Prop where
  entering : ∀ candidates, rule.selectEntering candidates = none → candidates = []
  leaving : ∀ violations, rule.selectLeaving violations = none → violations = []
  entering_lt : ∀ candidates place,
    rule.selectEntering candidates = some place → place < candidates.length
  leaving_lt : ∀ violations place,
    rule.selectLeaving violations = some place → place < violations.length

/-- The rules that a solver is given are complete. -/
theorem complete_of_eq {rule : PricingRule F} (h : rule = .dantzig ∨ rule = .first) :
  rule.Complete
  := by
  rcases h with rfl | rfl
  · constructor
    case entering =>
      intro candidates h
      simpa using firstLargest?_eq_none h
    case leaving =>
      intro violations h
      simpa using firstLargest?_eq_none h
    case entering_lt =>
      intro candidates place h
      simpa using firstLargest?_lt h
    case leaving_lt =>
      intro violations place h
      simpa using firstLargest?_lt h
  · constructor
    case entering => exact fun _ => firstPlace?_eq_none
    case leaving => exact fun _ => firstPlace?_eq_none
    case entering_lt => exact fun _ _ => firstPlace?_lt
    case leaving_lt => exact fun _ _ => firstPlace?_lt

end PricingRule

/-! ### Ratio tests -/

theorem mem_of_heaviest? {α : Type} {weight : α → F} {elements : List α} {a : α}
    (h : heaviest? weight elements = some a) :
  a ∈ elements
  := by
  unfold heaviest? at h
  apply (foldl_select_mem _ elements h).resolve_left (by simp)
  rintro (_ | best) a
  · apply Or.inr rfl
  · dsimp only
    split
    · apply Or.inr rfl
    · apply Or.inl rfl

theorem eq_nil_of_heaviest?_eq_none {α : Type} {weight : α → F} {elements : List α}
    (h : heaviest? weight elements = none) :
  elements = []
  := by
  unfold heaviest? at h
  apply foldl_select_ne_none _ elements h
  rintro (_ | best) a
  · simp
  · dsimp only
    split <;> simp

/-- A candidate is one of the nonbasic variables, with its reduced cost and a direction that
improves the objective. -/
theorem Candidate.mem_list? {tolerances : Tolerances F} {multipliers : DenseVector F}
    {nonbasic : List (Nonbasic F)} {candidates : List (Candidate F)} {candidate : Candidate F}
    (h : Candidate.list? tolerances multipliers nonbasic = some candidates)
    (hcandidate : candidate ∈ candidates) :
  ∃ x ∈ nonbasic, x.index = candidate.index
    ∧ x.column.inner? multipliers = some candidate.reducedCost
    ∧ improvingDirection? tolerances.dual candidate.reducedCost x.side
      = some candidate.direction
  := by
  unfold list? at h
  obtain ⟨priced, hpriced, h⟩ := Option.bind_eq_some_iff.mp h
  cases h
  obtain ⟨⟨x, reducedCost⟩, hx, hcandidate⟩ := List.mem_filterMap.mp hcandidate
  obtain ⟨direction, hdirection, rfl⟩ := Option.map_eq_some_iff.mp hcandidate
  obtain ⟨y, hy, hprice⟩ := exists_of_mem_mapM hpriced hx
  obtain ⟨cost, hcost, hpair⟩ := Option.bind_eq_some_iff.mp hprice
  cases hpair
  exact ⟨x, hy, rfl, hcost, hdirection⟩

/-- The blocking row has an entry in the pivot column that is not small, and the step is the one
after which its variable reaches a bound. -/
theorem primalRatioTest?_spec {tolerances : Tolerances F} {direction : F}
    {entries : List (PivotEntry F)} {position : ℕ} {step : F}
    (h : primalRatioTest? tolerances direction entries = some (position, step)) :
  ∃ entry ∈ entries, entry.row.position = position
    ∧ entry.reach? tolerances 0 direction = some step
  := by
  unfold primalRatioTest? at h
  obtain ⟨bound, -, h⟩ := Option.bind_eq_some_iff.mp h
  obtain ⟨⟨entry, length⟩, hheaviest, h⟩ := Option.bind_eq_some_iff.mp h
  cases h
  obtain ⟨other, hother, hblocking⟩ := List.mem_filterMap.mp (mem_of_heaviest? hheaviest)
  obtain ⟨_, hstep, hpair⟩ := Option.map_eq_some_iff.mp hblocking
  cases hpair
  exact ⟨entry, (List.mem_filter.mp hother).1, rfl, (Option.filter_eq_some_iff.mp hstep).1⟩

/-- An entry of the pivot row belongs to one of the nonbasic variables. -/
theorem PivotRowEntry.mem_list? {multipliers pivotRow : DenseVector F}
    {nonbasic : List (Nonbasic F)} {entries : List (PivotRowEntry F)} {entry : PivotRowEntry F}
    (h : PivotRowEntry.list? multipliers pivotRow nonbasic = some entries)
    (hentry : entry ∈ entries) :
  ∃ x ∈ nonbasic, x.index = entry.index ∧ x.side = entry.side
    ∧ x.column.inner? pivotRow = some entry.alpha
  := by
  obtain ⟨x, hx, h⟩ := exists_of_mem_mapM h hentry
  obtain ⟨reducedCost, -, h⟩ := Option.bind_eq_some_iff.mp h
  obtain ⟨alpha, halpha, h⟩ := Option.bind_eq_some_iff.mp h
  cases h
  exact ⟨x, hx, rfl, rfl, halpha⟩

/-- An eligible variable is that of its entry. -/
theorem PivotRowEntry.index_of_eligible? {ratioPivot : F} {increase : Bool}
    {entry : PivotRowEntry F} {eligible : Eligible F}
    (h : entry.eligible? ratioPivot increase = some eligible) :
  eligible.index = entry.index
  := by
  unfold eligible? at h
  obtain ⟨-, h⟩ := Option.ite_none_left_eq_some.mp h
  cases h
  rfl

/-- The entering variable of a dual step is eligible. -/
theorem dualRatioTest?_spec {tolerances : Tolerances F} {increase : Bool}
    {entries : List (PivotRowEntry F)} {eligible : Eligible F}
    (h : dualRatioTest? tolerances increase entries = some eligible) :
  ∃ entry ∈ entries, entry.eligible? tolerances.ratioPivot increase = some eligible
  := by
  unfold dualRatioTest? at h
  have hmem := mem_of_heaviest? h
  split at hmem
  · apply List.mem_filterMap.mp (List.mem_filter.mp hmem).1
  · apply List.mem_filterMap.mp hmem

end RevisedSimplex
