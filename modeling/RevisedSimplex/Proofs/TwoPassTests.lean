import RevisedSimplex.Proofs.SolverChoices
import RevisedSimplex.Proofs.SolverProgress

/-!
# Both passes of the ratio tests

The first pass of a ratio test finds the smallest relaxed ratio and the second one chooses among the
exact ratios within it.  In exact numbers the second pass never loses what the first one has found:
the row or the variable with the smallest relaxed ratio has an exact ratio within it.  So a test
finds nothing only if there is nothing to find, whatever the model, the basis, the values and the
pivot column or the pivot row are.

Both tests are described by what they are about, and not by the passes.  A row of the primal test
has some room between its value and the bound ahead (`BasicRow.room?`), and its ratio is the step
that uses it up (`BasicRow.ratio?`).  A variable of the dual test moves the leaving variable by its
entry of the pivot row (`Iterate.Helps`).
-/

namespace RevisedSimplex

variable {F : Type} [ExactScalar F]

/-! ### Rows -/

namespace Bounds

variable {bounds : Bounds F} {value rate relaxation : F}

/-- The distance from a value that decreases at a rate to the bound ahead of it, none if no bound
lies ahead. -/
def room? (bounds : Bounds F) (value rate : F) : Option F :=
  if 0 < rate then bounds.lower.map fun l => value - l
  else if rate < 0 then bounds.upper.map fun u => u - value
  else none

/-- The bound ahead is reached when the room is used up. -/
theorem reach?_eq_room? (bounds : Bounds F) (relaxation value rate : F) :
  bounds.reach? relaxation value rate
    = (bounds.room? value rate).map fun room => max ((room + relaxation) / |rate|) 0
  := by
  unfold reach? room?
  split
  · rename_i hpos
    cases bounds.lower <;> simp [ExactScalar.larger_eq_max, abs_of_pos hpos]
  · split
    · rename_i hneg
      have hflip (u : F) :
          (value - u - relaxation) / rate = (u - value + relaxation) / |rate| := by
        rw [abs_of_neg hneg, ← neg_div_neg_eq]
        congr 1
        ring
      cases bounds.upper <;> simp [ExactScalar.larger_eq_max, hflip]
    · rfl

end Bounds

namespace BasicRow

variable {row : BasicRow F} {direction alpha relaxation : F}

/-- The room of the variable of a row with an entry of the pivot column. -/
def room? (row : BasicRow F) (direction alpha : F) : Option F :=
  row.bounds.room? row.value (direction * alpha)

/-- The step that uses up the room and a relaxation, zero if there is no room left. -/
def ratio? (row : BasicRow F) (direction alpha relaxation : F) : Option F :=
  (row.room? direction alpha).map fun room => max ((room + relaxation) / |alpha|) 0

theorem ratio?_eq_none_iff :
  row.ratio? direction alpha relaxation = none ↔ row.room? direction alpha = none
  := Option.map_eq_none_iff

end BasicRow

/-- The step at which a row blocks is its ratio. -/
theorem PivotEntry.reach?_eq_ratio? {tolerances : Tolerances F} {direction : F}
    {entry : PivotEntry F} (hunit : |direction| = 1)
    (hlarge : tolerances.ratioPivot ≤ |entry.alpha|) (harris : F) :
  entry.reach? tolerances harris direction
    = entry.row.ratio? direction entry.alpha (tolerances.primal * harris)
  := by
  rw [reach?_eq hunit hlarge, Bounds.reach?_eq_room?, abs_mul, hunit, one_mul]
  rfl

/-! ### The primal test -/

namespace Iterate

/-- A row of the constraints with an entry of the pivot column that is not small. -/
structure LargeRow (tolerances : Tolerances F) (model : Model F) (iterate : Iterate F) (i : ℕ)
    (row : BasicRow F) (alpha : F) : Prop where
  ne_zero : i ≠ 0
  le : i ≤ model.nrRows
  row_eq : iterate.row? model i = some row
  column : iterate.pivotColumn[i]? = some alpha
  large : tolerances.ratioPivot ≤ |alpha|

/-- A row with a large entry has a ratio for an entering variable that moves in a direction. -/
def HasRatio (tolerances : Tolerances F) (model : Model F) (iterate : Iterate F)
    (direction relaxation : F) (i : ℕ) (alpha ratio : F) : Prop :=
  ∃ row, iterate.LargeRow tolerances model i row alpha
    ∧ row.ratio? direction alpha relaxation = some ratio

/-- What the primal test should find for an entering variable that moves in a direction.  There is
no row exactly if no row with a large entry has a bound ahead of it.  Otherwise the step is the
exact ratio of the row and at most as long as the relaxed ratio of any row, and no row whose exact
ratio is within all relaxed ones has a larger entry. -/
structure PrimalTest (tolerances : Tolerances F) (model : Model F) (iterate : Iterate F)
    (direction : F) (result : Option (ℕ × F)) : Prop where
  none_iff : result = none ↔ ¬ ∃ i row alpha room,
    iterate.LargeRow tolerances model i row alpha ∧ row.room? direction alpha = some room
  chosen : ∀ r t, result = some (r, t) → 0 ≤ t ∧ ∃ alpha,
    iterate.HasRatio tolerances model direction 0 r alpha t
      ∧ (∀ i beta ratio, iterate.HasRatio tolerances model direction
          (tolerances.primal * tolerances.harris) i beta ratio → t ≤ ratio)
      ∧ ∀ i beta own, iterate.HasRatio tolerances model direction 0 i beta own →
        (∀ j gamma ratio, iterate.HasRatio tolerances model direction
          (tolerances.primal * tolerances.harris) j gamma ratio → own ≤ ratio) →
        |beta| ≤ |alpha|

end Iterate

namespace Solver

variable {solver : Solver (ProductForm F) F} {entries : List (PivotEntry F)}

/-- The entries of the pivot column that are not small are those of the large rows. -/
theorem largeRow_iff (hsized : solver.iterate.Sized solver.model)
    (hentries : solver.pivotEntries? = some entries) {i : ℕ} {row : BasicRow F} {alpha : F} :
  solver.iterate.LargeRow solver.context.tolerances solver.model i row alpha
    ↔ ∃ entry ∈ entries, entry.row.position = i ∧ entry.row = row ∧ entry.alpha = alpha
      ∧ solver.context.tolerances.ratioPivot ≤ |entry.alpha|
  := by
  constructor
  · rintro ⟨hne, hle, hrow, halpha, hlarge⟩
    obtain ⟨entry, hentry, hrow', halpha'⟩ := exists_mem_pivotEntries? hsized hentries hne hle
    obtain rfl := Option.some_inj.mp (hrow.symm.trans hrow')
    obtain rfl := Option.some_inj.mp (halpha.symm.trans halpha')
    exact ⟨entry, hentry, (Iterate.row?_spec hrow).1, rfl, rfl, hlarge⟩
  · rintro ⟨entry, hentry, rfl, rfl, rfl, hlarge⟩
    obtain ⟨hne, hle, hrow, halpha⟩ := mem_pivotEntries? hsized hentries hentry
    exact ⟨hne, hle, hrow, halpha, hlarge⟩

/-- The steps of the entries that are not small are the ratios of the large rows. -/
theorem hasRatio_iff (hsized : solver.iterate.Sized solver.model)
    (hentries : solver.pivotEntries? = some entries) {direction : F} (hunit : |direction| = 1)
    (harris : F) (i : ℕ) (alpha ratio : F) :
  solver.iterate.HasRatio solver.context.tolerances solver.model direction
      (solver.context.tolerances.primal * harris) i alpha ratio
    ↔ ∃ entry ∈ entries, entry.row.position = i ∧ entry.alpha = alpha
      ∧ solver.context.tolerances.ratioPivot ≤ |entry.alpha|
      ∧ entry.reach? solver.context.tolerances harris direction = some ratio
  := by
  constructor
  · rintro ⟨row, hrow, hratio⟩
    obtain ⟨entry, hentry, hi, rfl, rfl, hlarge⟩ := (largeRow_iff hsized hentries).mp hrow
    refine ⟨entry, hentry, hi, rfl, hlarge, ?_⟩
    rw [PivotEntry.reach?_eq_ratio? hunit hlarge, hratio]
  · rintro ⟨entry, hentry, hi, rfl, hlarge, hreach⟩
    rw [PivotEntry.reach?_eq_ratio? hunit hlarge] at hreach
    exact ⟨entry.row, (largeRow_iff hsized hentries).mpr ⟨entry, hentry, hi, rfl, rfl, hlarge⟩,
      hreach⟩

/-- The primal test finds what it should. -/
theorem primalTest_of_pivotEntries? (hsized : solver.iterate.Sized solver.model)
    (hentries : solver.pivotEntries? = some entries)
    (hrelaxation : 0 ≤ solver.context.tolerances.primal * solver.context.tolerances.harris)
    {direction : F} (hunit : |direction| = 1) :
  solver.iterate.PrimalTest solver.context.tolerances solver.model direction
    (primalRatioTest? solver.context.tolerances direction entries)
  := by
  have hratio := hasRatio_iff hsized hentries hunit solver.context.tolerances.harris
  have hexact := hasRatio_iff hsized hentries hunit 0
  rw [mul_zero] at hexact
  rcases primalRatioTest?_cases hrelaxation direction entries with
    ⟨hnone, hall⟩ | ⟨entry, hentry, step, hsome, hreach, hle, hlarge, hlargest⟩
  · rw [hnone]
    constructor
    case none_iff =>
      refine ⟨fun _ => ?_, fun _ => rfl⟩
      rintro ⟨i, row, alpha, room, hrow, hroom⟩
      obtain ⟨entry, hentry, hi, rfl, rfl, hlarge⟩ := (largeRow_iff hsized hentries).mp hrow
      have hreach := hall entry hentry hlarge
      rw [PivotEntry.reach?_eq_ratio? hunit hlarge, BasicRow.ratio?_eq_none_iff, hroom] at hreach
      cases hreach
    case chosen =>
      intro r t h
      cases h
  · rw [hsome]
    have hown : solver.iterate.HasRatio solver.context.tolerances solver.model direction 0
        entry.row.position entry.alpha step :=
      (hexact _ _ _).mpr ⟨entry, hentry, rfl, rfl, hlarge, hreach⟩
    constructor
    case none_iff =>
      refine ⟨nofun, fun h => absurd ?_ h⟩
      obtain ⟨row, hrow, hstep⟩ := hown
      obtain ⟨room, hroom, -⟩ := Option.map_eq_some_iff.mp hstep
      exact ⟨_, row, _, room, hrow, hroom⟩
    case chosen =>
      rintro _ _ ⟨⟩
      refine ⟨?_, entry.alpha, hown, ?_, ?_⟩
      · rw [PivotEntry.reach?_eq hunit hlarge] at hreach
        apply Bounds.reach?_nonneg hreach
      · intro i beta ratio h
        obtain ⟨other, hother, -, -, hlarge', hreach'⟩ := (hratio _ _ _).mp h
        apply hle other hother hlarge' ratio hreach'
      · intro i beta own h hwithin
        obtain ⟨other, hother, -, rfl, hlarge', hreach'⟩ := (hexact _ _ _).mp h
        apply hlargest other hother hlarge' own hreach'
        intro third hthird hlarge'' length hlength
        apply hwithin _ _ _ ((hratio _ _ _).mpr ⟨third, hthird, rfl, rfl, hlarge'', hlength⟩)

end Solver

/-! ### The dual test -/

/-- The inner product of a dense vector with the column of a variable. -/
def Model.price (model : Model F) (vector : DenseVector F) (v : ℕ) : F :=
  model.vector v ⬝ᵥ vector.entries (model.nrRows + 1)

namespace Iterate

/-- A nonbasic variable that is not fixed moves the leaving variable up, or else down, when it moves
in a direction that its side allows.  Its entry of the pivot row is not small. -/
structure Helps (tolerances : Tolerances F) (model : Model F) (iterate : Iterate F)
    (pivotRow : DenseVector F) (increase : Bool) (v : ℕ) (direction : F) : Prop where
  movable : iterate.Movable tolerances model v
  unit : direction = 1 ∨ direction = -1
  side : ∀ side, iterate.restingSide? model v = some (some side) → direction = side.direction
  large : tolerances.ratioPivot ≤ |model.price pivotRow v|
  rate : if increase then 0 < -direction * model.price pivotRow v
    else -direction * model.price pivotRow v < 0

/-- The reduced costs of all nonbasic variables that are not fixed have the right sign within the
tolerance. -/
def DualFeasible (tolerances : Tolerances F) (model : Model F) (iterate : Iterate F)
    (multipliers : DenseVector F) : Prop :=
  ∀ v, iterate.Movable tolerances model v →
    (iterate.restingSide? model v = some (some .lower) →
      -tolerances.dual ≤ model.price multipliers v)
    ∧ (iterate.restingSide? model v = some (some .upper) →
      model.price multipliers v ≤ tolerances.dual)
    ∧ (iterate.restingSide? model v = some none → |model.price multipliers v| ≤ tolerances.dual)

/-- What the dual test should find for multipliers, a pivot row and a leaving variable that has to
move up, or else down.  There is no variable exactly if none helps.  Otherwise the variable helps,
and if all reduced costs have the right sign, its ratio is at most the relaxed ratio of any variable
that helps. -/
structure DualTest (tolerances : Tolerances F) (model : Model F) (iterate : Iterate F)
    (multipliers pivotRow : DenseVector F) (increase : Bool) (result : Option (Eligible F)) : Prop
    where
  none_iff : result = none ↔
    ¬ ∃ v direction, iterate.Helps tolerances model pivotRow increase v direction
  chosen : ∀ x, result = some x →
    iterate.Helps tolerances model pivotRow increase x.index x.direction
      ∧ x.magnitude = |model.price pivotRow x.index|
      ∧ x.cost = max (x.direction * model.price multipliers x.index) 0
      ∧ (iterate.DualFeasible tolerances model multipliers →
        ∀ w direction, iterate.Helps tolerances model pivotRow increase w direction →
          x.cost / x.magnitude
            ≤ (max (direction * model.price multipliers w) 0 + tolerances.dual * tolerances.harris)
              / |model.price pivotRow w|)

end Iterate

namespace PivotRowEntry

variable {ratioPivot : F} {increase : Bool} {entry : PivotRowEntry F} {eligible : Eligible F}

/-- Only one direction helps: that of the side, or for a free variable the one against the sign of
its entry. -/
theorem eq_direction {direction : F} (hunit : direction = 1 ∨ direction = -1)
    (hside : ∀ side, entry.side = some side → direction = side.direction)
    (hrate : if increase then 0 < -direction * entry.alpha else -direction * entry.alpha < 0) :
  entry.direction increase = direction
  := by
  cases hfree : entry.side with
  | some side => rw [direction_of_side hfree, hside side hfree]
  | none =>
      unfold PivotRowEntry.direction Scalar.signOf
      rw [hfree]
      cases increase with
      | true =>
          simp only [if_true] at hrate ⊢
          rcases hunit with rfl | rfl
          · rw [if_pos (by linarith), neg_neg]
          · rw [if_neg (by linarith)]
      | false =>
          simp only [Bool.false_eq_true, if_false] at hrate ⊢
          rcases hunit with rfl | rfl
          · rw [if_neg (by linarith)]
          · rw [if_pos (by linarith)]

/-- A variable is eligible if it moves the leaving variable in a direction that its side allows. -/
theorem eligible?_eq_some_iff :
  entry.eligible? ratioPivot increase = some eligible
    ↔ ratioPivot ≤ |entry.alpha| ∧ (eligible.direction = 1 ∨ eligible.direction = -1)
      ∧ (∀ side, entry.side = some side → eligible.direction = side.direction)
      ∧ (if increase then 0 < -eligible.direction * entry.alpha
        else -eligible.direction * entry.alpha < 0)
      ∧ eligible.index = entry.index ∧ eligible.magnitude = |entry.alpha|
      ∧ eligible.cost = max (eligible.direction * entry.reducedCost) 0
  := by
  constructor
  · intro h
    obtain ⟨hindex, hdirection, hmagnitude, hcost, hlarge⟩ := eligible?_spec h
    refine ⟨hlarge, ?_, ?_, ?_, hindex, hmagnitude, hcost⟩
    · rw [hdirection]
      apply (abs_eq zero_le_one).mp (abs_direction increase entry)
    · intro side hside
      rw [hdirection, direction_of_side hside]
    · unfold eligible? at h
      obtain ⟨hnot, -⟩ := Option.ite_none_left_eq_some.mp h
      rw [Bool.or_eq_true, not_or] at hnot
      rw [hdirection]
      cases increase <;> simpa using hnot.2
  · rintro ⟨hlarge, hunit, hside, hrate, hindex, hmagnitude, hcost⟩
    have hdirection := eq_direction hunit hside hrate
    have hhelps : (if increase then decide (0 < -eligible.direction * entry.alpha)
        else decide (-eligible.direction * entry.alpha < 0)) = true := by
      cases increase <;> simpa using hrate
    unfold eligible?
    dsimp only
    rw [hdirection, hhelps, ExactScalar.magnitude_eq_abs, ExactScalar.larger_eq_max, ← hindex,
      ← hmagnitude, ← hcost, decide_eq_false (not_lt.mpr (hmagnitude ▸ hlarge))]
    rfl

theorem isDualFeasible_iff {dual : F} :
  entry.isDualFeasible dual = true
    ↔ (entry.side = some .lower → -dual ≤ entry.reducedCost)
      ∧ (entry.side = some .upper → entry.reducedCost ≤ dual)
      ∧ (entry.side = none → |entry.reducedCost| ≤ dual)
  := by
  unfold isDualFeasible
  split <;> rename_i hside <;> simp [hside, ExactScalar.magnitude_eq_abs]

end PivotRowEntry

namespace Iterate

variable {tolerances : Tolerances F} {model : Model F} {iterate : Iterate F}
  {multipliers pivotRow : DenseVector F} {movable : List (Nonbasic F)}
  {entries : List (PivotRowEntry F)}

/-- The entries of the pivot row are those of the movable variables. -/
theorem mem_entries_iff (hmultipliers : multipliers.length = model.nrRows + 1)
    (hpivotRow : pivotRow.length = model.nrRows + 1)
    (hmovable : iterate.movable? tolerances model = some movable)
    (hentries : PivotRowEntry.list? multipliers pivotRow movable = some entries)
    (entry : PivotRowEntry F) :
  entry ∈ entries ↔ iterate.Movable tolerances model entry.index
    ∧ iterate.restingSide? model entry.index = some entry.side
    ∧ entry.reducedCost = model.price multipliers entry.index
    ∧ entry.alpha = model.price pivotRow entry.index
  := by
  have hread {x : Nonbasic F} (hx : x ∈ movable) {other : PivotRowEntry F}
      (h : (do
        let reducedCost ← x.column.inner? multipliers
        let alpha ← x.column.inner? pivotRow
        some { index := x.index, side := x.side, reducedCost, alpha }) = some other) :
      iterate.restingSide? model x.index = some x.side
        ∧ other
          = ⟨x.index, x.side, model.price multipliers x.index, model.price pivotRow x.index⟩ := by
    obtain ⟨-, hside, hcolumn⟩ := mem_movable? hmovable hx
    rw [Model.inner?_column hcolumn hmultipliers, Model.inner?_column hcolumn hpivotRow] at h
    cases h
    exact ⟨hside, rfl⟩
  constructor
  · intro hentry
    obtain ⟨x, hx, h⟩ := exists_of_mem_mapM hentries hentry
    obtain ⟨hside, rfl⟩ := hread hx h
    exact ⟨movable_of_mem hmovable hx, hside, rfl, rfl⟩
  · rintro ⟨hv, hside, hcost, halpha⟩
    obtain ⟨x, hx, hindex⟩ := hv.exists_mem hmovable
    obtain ⟨other, hother, h⟩ := mem_mapM_of_mem hentries hx
    obtain ⟨hside', rfl⟩ := hread hx h
    rw [← hindex, hside', Option.some_inj] at hside
    rw [← hindex] at hcost halpha
    obtain ⟨index, side, reducedCost, alpha⟩ := entry
    cases hindex
    cases hside
    cases hcost
    cases halpha
    exact hother

/-- The variables that help are the eligible ones. -/
theorem helps_iff (hmultipliers : multipliers.length = model.nrRows + 1)
    (hpivotRow : pivotRow.length = model.nrRows + 1)
    (hmovable : iterate.movable? tolerances model = some movable)
    (hentries : PivotRowEntry.list? multipliers pivotRow movable = some entries)
    (increase : Bool) (v : ℕ) (direction : F) :
  iterate.Helps tolerances model pivotRow increase v direction
    ↔ ∃ entry ∈ entries, ∃ x, entry.eligible? tolerances.ratioPivot increase = some x
      ∧ x.index = v ∧ x.direction = direction
  := by
  constructor
  · rintro ⟨hv, hunit, hside, hlarge, hrate⟩
    obtain ⟨y, hy, rfl⟩ := hv.exists_mem hmovable
    obtain ⟨-, hresting, -⟩ := mem_movable? hmovable hy
    refine ⟨⟨y.index, y.side, model.price multipliers y.index, model.price pivotRow y.index⟩,
      (mem_entries_iff hmultipliers hpivotRow hmovable hentries _).mpr ⟨hv, hresting, rfl, rfl⟩,
      ⟨y.index, direction, |model.price pivotRow y.index|,
        max (direction * model.price multipliers y.index) 0⟩, ?_, rfl, rfl⟩
    refine PivotRowEntry.eligible?_eq_some_iff.mpr ⟨hlarge, hunit, ?_, hrate, rfl, rfl, rfl⟩
    intro side h
    apply hside side (hresting.trans (congrArg some h))
  · rintro ⟨entry, hentry, x, hx, rfl, rfl⟩
    obtain ⟨hv, hresting, -, halpha⟩ :=
      (mem_entries_iff hmultipliers hpivotRow hmovable hentries _).mp hentry
    obtain ⟨hlarge, hunit, hside, hrate, hindex, -, -⟩ := PivotRowEntry.eligible?_eq_some_iff.mp hx
    rw [halpha] at hlarge hrate
    rw [← hindex] at hv hresting hlarge hrate
    refine ⟨hv, hunit, ?_, hlarge, hrate⟩
    intro side h
    rw [hresting, Option.some_inj] at h
    apply hside side h

/-- The dual test finds what it should. -/
theorem dualTest_of_entries (hmultipliers : multipliers.length = model.nrRows + 1)
    (hpivotRow : pivotRow.length = model.nrRows + 1)
    (hmovable : iterate.movable? tolerances model = some movable)
    (hentries : PivotRowEntry.list? multipliers pivotRow movable = some entries)
    (hdual : 0 ≤ tolerances.dual) (hharris : 0 ≤ tolerances.harris) (increase : Bool) :
  iterate.DualTest tolerances model multipliers pivotRow increase
    (dualRatioTest? tolerances increase entries)
  := by
  have hhelps := helps_iff hmultipliers hpivotRow hmovable hentries increase
  have hmem := mem_entries_iff hmultipliers hpivotRow hmovable hentries
  -- The ratio of an eligible variable is made of its reduced cost and its entry.
  have hratio {entry : PivotRowEntry F} (hentry : entry ∈ entries) {x : Eligible F}
      (hx : entry.eligible? tolerances.ratioPivot increase = some x) :
      x.magnitude = |model.price pivotRow x.index|
        ∧ x.cost = max (x.direction * model.price multipliers x.index) 0 := by
    obtain ⟨hindex, -, hmagnitude, hcost, -⟩ := PivotRowEntry.eligible?_spec hx
    obtain ⟨-, -, hreduced, halpha⟩ := (hmem _).mp hentry
    rw [hindex, ← hreduced, ← halpha]
    exact ⟨hmagnitude, hcost⟩
  constructor
  case none_iff =>
    constructor
    · rintro hnone ⟨v, direction, h⟩
      obtain ⟨entry, hentry, x, hx, -⟩ := (hhelps _ _).mp h
      rw [eligible?_of_dualRatioTest?_eq_none hdual hharris hnone hentry] at hx
      cases hx
    · intro hnothing
      by_contra hsome
      obtain ⟨x, hx⟩ := Option.ne_none_iff_exists'.mp hsome
      obtain ⟨entry, hentry, heligible⟩ := dualRatioTest?_spec hx
      apply hnothing
      exact ⟨_, _, (hhelps _ _).mpr ⟨entry, hentry, x, heligible, rfl, rfl⟩⟩
  case chosen =>
    intro x hx
    obtain ⟨entry, hentry, heligible⟩ := dualRatioTest?_spec hx
    obtain ⟨hmagnitude, hcost⟩ := hratio hentry heligible
    refine ⟨(hhelps _ _).mpr ⟨entry, hentry, x, heligible, rfl, rfl⟩, hmagnitude, hcost, ?_⟩
    intro hfeasible w direction hw
    have hall : ∀ other ∈ entries, other.isDualFeasible tolerances.dual = true := by
      intro other hother
      obtain ⟨hv, hside, hreduced, -⟩ := (hmem _).mp hother
      rw [PivotRowEntry.isDualFeasible_iff, hreduced]
      have hsigns := hfeasible other.index hv
      rw [hside] at hsigns
      simpa only [Option.some_inj] using hsigns
    obtain ⟨other, hother, y, hy, rfl, rfl⟩ := (hhelps _ _).mp hw
    obtain ⟨hmagnitude', hcost'⟩ := hratio hother hy
    rw [← hmagnitude', ← hcost']
    apply le_of_dualRatioTest? hall hx hother hy

end Iterate

/-- In exact numbers, with tolerances that are not negative, both tests find what they should, for
every model, every basis and all values: the primal test for every pivot column and both directions,
and the dual test for all multipliers, all pivot rows and a leaving variable that has to move up or
down. -/
theorem Solver.ratioTests_complete {solver : Solver (ProductForm F) F}
    (hsized : solver.iterate.Sized solver.model) (hprimal : 0 ≤ solver.context.tolerances.primal)
    (hdual : 0 ≤ solver.context.tolerances.dual)
    (hharris : 0 ≤ solver.context.tolerances.harris) :
  (∃ entries, solver.pivotEntries? = some entries ∧ ∀ direction, direction = 1 ∨ direction = -1 →
    solver.iterate.PrimalTest solver.context.tolerances solver.model direction
      (primalRatioTest? solver.context.tolerances direction entries))
    ∧ ∃ movable, solver.iterate.movable? solver.context.tolerances solver.model = some movable
      ∧ ∀ multipliers pivotRow : DenseVector F, multipliers.length = solver.model.nrRows + 1 →
        pivotRow.length = solver.model.nrRows + 1 →
        ∃ entries, PivotRowEntry.list? multipliers pivotRow movable = some entries
          ∧ ∀ increase, solver.iterate.DualTest solver.context.tolerances solver.model multipliers
            pivotRow increase (dualRatioTest? solver.context.tolerances increase entries)
  := by
  constructor
  · obtain ⟨entries, hentries⟩ := Solver.exists_pivotEntries? hsized
    refine ⟨entries, hentries, ?_⟩
    intro direction hunit
    apply primalTest_of_pivotEntries? hsized hentries (mul_nonneg hprimal hharris)
    apply (abs_eq zero_le_one).mpr hunit
  · obtain ⟨movable, hmovable⟩ := hsized.exists_movable? solver.context.tolerances
    refine ⟨movable, hmovable, ?_⟩
    intro multipliers pivotRow hmultipliers hpivotRow
    obtain ⟨entries, hentries⟩ := PivotRowEntry.exists_list? hmultipliers hpivotRow
      fun x hx => ⟨_, (Iterate.mem_movable? hmovable hx).2.2⟩
    exact ⟨entries, hentries, Iterate.dualTest_of_entries hmultipliers hpivotRow hmovable hentries
      hdual hharris⟩

/-- A solver for the small model with the column of its first structural variable as the pivot
column, and with tolerances that are not zero. -/
def Solver.sampleLoaded : Solver (ProductForm ℚ) ℚ :=
  let context : Context ℚ := .convert {}
  let tolerances :=
    { context.tolerances with primal := 1 / 8, dual := 1 / 8, ratioPivot := 1 / 2, harris := 1 }
  let iterate : Iterate ℚ := .start (Basis.slack Model.sample)
  { start .sample {} { context with tolerances } (ProductForm.identity 2) .dantzig with
    iterate := { iterate with values := [0, 4, 6], pivotColumn := [1, 2, 1] } }

/-- The first row blocks the variable, and if this row has to go down the variable can enter. -/
theorem Solver.ratioTests_complete_sampleLoaded :
  sampleLoaded.iterate.PrimalTest sampleLoaded.context.tolerances sampleLoaded.model 1
      (some (1, 2))
    ∧ ∃ entering, entering.index = 3
      ∧ sampleLoaded.iterate.DualTest sampleLoaded.context.tolerances sampleLoaded.model
        [-1, 0, 0] [0, 1, 0] false (some entering)
  := by
  have hsized : sampleLoaded.iterate.Sized sampleLoaded.model := ⟨rfl, rfl, rfl, rfl⟩
  obtain ⟨⟨entries, hentries, hprimal⟩, movable, hmovable, hdual⟩ :=
    ratioTests_complete hsized (by decide +kernel) (by decide +kernel) (by decide +kernel)
  obtain ⟨pivotRow, hpivotRow, hdual⟩ := hdual [-1, 0, 0] [0, 1, 0] rfl rfl
  constructor
  · have hblocking : (sampleLoaded.pivotEntries?.bind fun entries =>
        primalRatioTest? sampleLoaded.context.tolerances 1 entries) = some (1, 2) := by
      decide +kernel
    rw [hentries, Option.bind_some] at hblocking
    rw [← hblocking]
    apply hprimal 1 (Or.inl rfl)
  · have hentering : ((sampleLoaded.iterate.movable? sampleLoaded.context.tolerances
        sampleLoaded.model).bind fun movable =>
          (PivotRowEntry.list? [-1, 0, 0] [0, 1, 0] movable).bind fun entries =>
            (dualRatioTest? sampleLoaded.context.tolerances false entries).map Eligible.index)
          = some 3 := by
      decide +kernel
    rw [hmovable, Option.bind_some, hpivotRow, Option.bind_some] at hentering
    obtain ⟨entering, htest, hindex⟩ := Option.map_eq_some_iff.mp hentering
    refine ⟨entering, hindex, ?_⟩
    rw [← htest]
    apply hdual

end RevisedSimplex
