import RevisedSimplex.Proofs.PrimalEdges
import RevisedSimplex.Proofs.SolverTurns

/-!
# Dual iterations keep the signs of the reduced costs

In a dual iteration the row of the leaving variable is subtracted from the reduced costs, multiplied
so that the one of the entering variable becomes zero.  The multiplier is the ratio of the entering
variable, with the sign of the side at which the leaving variable violates its bound.

* A variable that would move the leaving one towards its bound is eligible.  Its ratio is not smaller
  than that of the entering variable, and so its reduced cost keeps its sign.
* The reduced cost of any other variable grows in the direction of its side.
* A free variable moves the leaving one either way, unless its entry is zero.  Its reduced cost is
  zero and so is its ratio, and then the reduced costs do not change at all.
* The reduced cost of the leaving variable becomes the multiplier.  It has the sign of the bound that
  was violated, and this is where the variable comes to rest.
-/

open Matrix

namespace RevisedSimplex

/-- Exact numbers with a tolerance on the values alone. -/
def Context.valueTolerant : Context ℚ where
  tolerances :=
    { primal := 1 / 10, dual := 0, pivot := 1 / 10 ^ 9, ratioPivot := 1 / 100
      factorizationPivot := 1 / 10 ^ 10, drop := 0, harris := 1 }
  policy := {}
  rowSelection := .largestMagnitude

theorem Context.valueTolerant_exact :
  Context.valueTolerant.Exact
  where
    drop := rfl
    factorizationPivot := by
      change (0 : ℚ) < 1 / 10 ^ 10
      norm_num
    rowSelection := trivial

variable {F : Type} [ExactScalar F]

/-! ### Signs -/

/-- The reduced cost has the right sign for the side at which a variable rests: no move from there
into the range decreases the objective. -/
def RightSign (reducedCost : F) : Option Side → Prop
  | some .lower => 0 ≤ reducedCost
  | some .upper => reducedCost ≤ 0
  | none => reducedCost = 0

instance (reducedCost : F) : (side : Option Side) → Decidable (RightSign reducedCost side)
  | some .lower => inferInstanceAs (Decidable (0 ≤ reducedCost))
  | some .upper => inferInstanceAs (Decidable (reducedCost ≤ 0))
  | none => inferInstanceAs (Decidable (reducedCost = 0))

section Signs

variable {reducedCost : F} {side : Side} {entry : PivotRowEntry F} {ratio : F}

theorem rightSign_some_iff :
  RightSign reducedCost (some side) ↔ 0 ≤ side.direction * reducedCost
  := by
  cases side <;> simp [RightSign, Side.direction]

/-- A variable whose reduced cost has the right sign is no candidate. -/
theorem RightSign.improvingDirection?_eq_none {side : Option Side}
    (h : RightSign reducedCost side) :
  Candidate.improvingDirection? 0 reducedCost side = none
  := by
  unfold RightSign at h
  unfold Candidate.improvingDirection?
  split at h
  · simpa using h
  · simpa using h
  · simp [h, ExactScalar.magnitude_eq_abs]

theorem RightSign.isDualFeasible (h : RightSign entry.reducedCost entry.side) :
  entry.isDualFeasible 0 = true
  := by
  unfold PivotRowEntry.isDualFeasible
  cases hside : entry.side with
  | some side =>
      rw [hside] at h
      cases side <;> simpa [RightSign] using h
  | none =>
      rw [hside] at h
      have hzero : entry.reducedCost = 0 := h
      simp [hzero, ExactScalar.magnitude_eq_abs]

/-- In the direction of an entry the reduced cost is not negative. -/
theorem RightSign.direction_mul_nonneg (h : RightSign entry.reducedCost entry.side)
    (increase : Bool) :
  0 ≤ entry.direction increase * entry.reducedCost
  := by
  cases hside : entry.side with
  | some side =>
      rw [hside] at h
      rw [PivotRowEntry.direction_of_side hside]
      apply rightSign_some_iff.mp h
  | none =>
      rw [hside] at h
      have hzero : entry.reducedCost = 0 := h
      rw [hzero, mul_zero]

/-- The ratio of an eligible variable is not negative, and the cost is the multiple of the entry by
the ratio. -/
theorem PivotRowEntry.ratio_nonneg {ratioPivot : F} {eligible : Eligible F}
    (h : entry.eligible? ratioPivot (decide (side = .lower)) = some eligible) :
  0 ≤ eligible.cost / eligible.magnitude
  := by
  obtain ⟨-, -, hmagnitude, hcost, -⟩ := eligible?_spec h
  rw [hmagnitude, hcost]
  apply div_nonneg (le_max_right _ _) (abs_nonneg _)

/-- The magnitude of an entry that moves the leaving variable towards its bound. -/
theorem PivotRowEntry.abs_alpha_eq
    (h : side.direction * (entry.direction (decide (side = .lower)) * entry.alpha) ≤ 0) :
  |entry.alpha|
    = -(side.direction * (entry.direction (decide (side = .lower)) * entry.alpha))
  := by
  rw [← abs_of_nonpos h, abs_mul, abs_mul, Side.abs_direction, abs_direction, one_mul, one_mul]

/-- The ratio of an eligible variable whose reduced cost has the right sign. -/
theorem RightSign.ratio_eq (hsign : RightSign entry.reducedCost entry.side) {ratioPivot : F}
    {eligible : Eligible F}
    (h : entry.eligible? ratioPivot (decide (side = .lower)) = some eligible) :
  eligible.cost / eligible.magnitude
    = entry.direction (decide (side = .lower)) * entry.reducedCost / |entry.alpha|
  := by
  obtain ⟨-, hdirection, hmagnitude, hcost, -⟩ := PivotRowEntry.eligible?_spec h
  rw [hmagnitude, hcost, hdirection, max_eq_left (hsign.direction_mul_nonneg _)]

/-- The multiplier of the pivot row is the ratio of the entering variable up to the sign. -/
theorem RightSign.reducedCost_div_alpha (hsign : RightSign entry.reducedCost entry.side)
    {ratioPivot : F} {eligible : Eligible F}
    (h : entry.eligible? ratioPivot (decide (side = .lower)) = some eligible) :
  entry.reducedCost / entry.alpha = -(side.direction * (eligible.cost / eligible.magnitude))
  := by
  have hrate := PivotRowEntry.sign_of_eligible? h
  obtain ⟨-, hdirection, -⟩ := PivotRowEntry.eligible?_spec h
  rw [hdirection] at hrate
  rw [hsign.ratio_eq h, PivotRowEntry.abs_alpha_eq hrate.le]
  have hside : (side.direction : F) ≠ 0 := by
    cases side <;> simp [Side.direction]
  have hne : entry.direction (decide (side = .lower)) ≠ 0 := by
    rw [← abs_pos, PivotRowEntry.abs_direction]
    apply one_pos
  rw [div_neg, mul_neg, neg_neg, ← mul_div_assoc, mul_div_mul_left _ _ hside,
    mul_div_mul_left _ _ hne]

/-- Subtracting the pivot row, multiplied with a ratio that is not greater than that of an eligible
variable, keeps the sign of its reduced cost, and of that of any other variable. -/
theorem RightSign.sub_mul (hsign : RightSign entry.reducedCost entry.side) {ratioPivot : F}
    (hlarge : entry.alpha = 0 ∨ ratioPivot ≤ |entry.alpha|) (hratio : 0 ≤ ratio)
    (hle : ∀ eligible, entry.eligible? ratioPivot (decide (side = .lower)) = some eligible →
      ratio ≤ eligible.cost / eligible.magnitude) :
  RightSign (entry.reducedCost - -(side.direction * ratio) * entry.alpha) entry.side
  := by
  rcases hlarge with hzero | hlarge
  · rw [hzero, mul_zero, sub_zero]
    apply hsign
  set direction := entry.direction (decide (side = .lower)) with hdirection
  set rate := side.direction * (direction * entry.alpha) with hrate
  have hnonneg : 0 ≤ direction * entry.reducedCost := hsign.direction_mul_nonneg _
  -- In the direction of the entry the reduced cost loses at most what it has.
  have hkeeps : 0 ≤ direction * entry.reducedCost + ratio * rate := by
    cases heligible : entry.eligible? ratioPivot (decide (side = .lower)) with
    | none =>
        have hpositive := PivotRowEntry.sign_of_eligible?_eq_none heligible hlarge
        apply add_nonneg hnonneg (mul_nonneg hratio hpositive)
    | some eligible =>
        have hnegative := PivotRowEntry.sign_of_eligible? heligible
        rw [(PivotRowEntry.eligible?_spec heligible).2.1] at hnegative
        have hlimit := hle eligible heligible
        rw [hsign.ratio_eq heligible, PivotRowEntry.abs_alpha_eq hnegative.le,
          le_div_iff₀ (neg_pos.mpr hnegative)] at hlimit
        linarith
  cases hside : entry.side with
  | some s =>
      have hsame : direction = s.direction := PivotRowEntry.direction_of_side hside
      apply rightSign_some_iff.mpr
      rw [← hsame]
      calc 0 ≤ direction * entry.reducedCost + ratio * rate := hkeeps
        _ = direction * (entry.reducedCost - -(side.direction * ratio) * entry.alpha) := by
          rw [hrate]
          ring
  | none =>
      have hzero : entry.reducedCost = 0 := by
        rw [hside] at hsign
        apply hsign
      change entry.reducedCost - -(side.direction * ratio) * entry.alpha = 0
      rcases le_or_gt 0 rate with hpositive | hnegative
      · rw [PivotRowEntry.alpha_eq_zero_of_free hside hpositive, hzero, mul_zero, sub_zero]
      · rw [hzero, mul_zero, zero_add] at hkeeps
        rw [le_antisymm (nonpos_of_mul_nonneg_left hkeeps hnegative) hratio, hzero, mul_zero,
          neg_zero, zero_mul, sub_zero]

end Signs

/-! ### Rows of the tableau -/

namespace Iterate

section Rows

variable {tolerances : Tolerances F} {model : Model F} {iterate after : Iterate F}
  {form later : ProductForm F} {i k : Fin (model.nrRows + 1)} {entering leaving v : ℕ} {theta : F}
  {bounds : Bounds F}

/-- The column of a basic variable is solved to the unit vector of its position. -/
theorem Represented.tableau_basic (h : iterate.Represented model form)
    (hv : iterate.basis.variableAt? i.val = some v) :
  tableau model form k v = if k = i then 1 else 0
  := by
  have hcolumn := congrFun (h.inverse.mulVec i) k
  have howner := h.sized.variableAt?_eq i
  rw [hv, Option.some_inj] at howner
  unfold tableau
  rw [howner, ← Pi.single_apply]
  apply hcolumn

/-- An exchange subtracts a multiple of the pivot row from every other row. -/
theorem Exchanged.tableau_eq
    (h : iterate.Exchanged tolerances model i.val entering theta leaving bounds after)
    (hrepresented : iterate.Represented model form) (hafter : after.Represented model later)
    (hpivot : tableau model form i entering ≠ 0) (hk : k ≠ i) (v : ℕ) :
  tableau model later k v = tableau model form k v
    - tableau model form k entering / tableau model form i entering * tableau model form i v
  := by
  have hlater := hafter.inverse
  rw [h.owners, ProductForm.basisColumns_set] at hlater
  · have hrow := hrepresented.inverse.solved_update hlater hpivot (model.vector v) hk
    unfold tableau
    rw [hrow]
    ring
  · rw [Basis.length_owners, hrepresented.sized.nrRows]

/-- The leaving variable comes to rest at the side that is closest to its value, if there is a bound
at this side. -/
theorem Exchanged.restingSide?_leaving
    (h : iterate.Exchanged tolerances model i.val entering theta leaving bounds after) {side : Side}
    (hside : bounds.closestSide tolerances.primal
      (iterate.alongEdge model entering theta leaving) = side)
    {value : F} (hat : bounds.at? side = some value) :
  after.restingSide? model leaving = some (some side) ∧ after.value? model leaving = some value
  := by
  have hstored := h.side
  rw [hside] at hstored
  constructor
  · rw [restingSide?_eq h.bounds_eq hstored, Bounds.restingSide?_of_at? hat]
  · rw [h.sized.value?_eq (Model.lt_of_bounds? h.bounds_eq), Option.some_inj,
      h.sized.point_of_side? h.isNonbasic_leaving h.bounds_eq hstored,
      Bounds.restingValue_of_at? hat]

end Rows

end Iterate

/-! ### Dual feasible solvers -/

namespace Solver

variable {solver loaded : Solver (ProductForm F) F}
  {outcome : Outcome (Solver (ProductForm F) F) (Except Error StepResult)} {kind : IterationKind}

/-- All movable variables have reduced costs of the right sign. -/
def DualFeasible (solver : Solver (ProductForm F) F) : Prop :=
  ∀ v, solver.iterate.Movable solver.context.tolerances solver.model v →
    ∃ side, solver.iterate.restingSide? solver.model v = some side
      ∧ RightSign (solver.reducedCost v) side

/-- There is no candidate for a primal step. -/
theorem DualFeasible.not_improves (h : solver.DualFeasible)
    (hdual : solver.context.tolerances.dual = 0) (candidate : Candidate F) :
  ¬ solver.Improves candidate
  := by
  intro himproves
  obtain ⟨side, hside, hsign⟩ := h candidate.index himproves.movable
  obtain ⟨other, hother, himproving⟩ := himproves.direction
  rw [hside, Option.some_inj] at hother
  rw [← hother, hdual] at himproving
  cases hsign.improvingDirection?_eq_none.symm.trans himproving

section PivotRow

variable {i : Fin (solver.model.nrRows + 1)} {row : BasicRow F} {side : Side} {bound : F}
  {entries : List (PivotRowEntry F)} {entry : PivotRowEntry F} {entering : Eligible F}

theorem DualFeasible.rightSign (h : solver.DualFeasible) (hrow : solver.PivotRow i entries)
    (hentry : entry ∈ entries) :
  RightSign entry.reducedCost entry.side
  := by
  obtain ⟨side, hside, hsign⟩ := h entry.index (hrow.movable entry hentry)
  rw [hrow.side entry hentry, Option.some_inj] at hside
  rw [hside, hrow.reducedCost entry hentry]
  apply hsign

/-- One pivot row shows all reduced costs. -/
theorem PivotRow.dualFeasible (hrow : solver.PivotRow i entries)
    (hsigns : ∀ entry ∈ entries, RightSign entry.reducedCost entry.side) :
  solver.DualFeasible
  := by
  intro v hv
  obtain ⟨entry, hentry, rfl⟩ := hrow.complete v hv
  have hsign := hsigns entry hentry
  rw [hrow.reducedCost entry hentry] at hsign
  exact ⟨entry.side, hrow.side entry hentry, hsign⟩

/-- The ratio of the entering variable is at most that of any eligible variable. -/
theorem DualFeasible.ratio_le (h : solver.DualFeasible) (hrow : solver.PivotRow i entries)
    (hdual : solver.context.tolerances.dual = 0) {increase : Bool}
    (htest : dualRatioTest? solver.context.tolerances increase entries = some entering)
    (hentry : entry ∈ entries) {other : Eligible F}
    (hother : entry.eligible? solver.context.tolerances.ratioPivot increase = some other) :
  entering.cost / entering.magnitude ≤ other.cost / other.magnitude
  := by
  have hfeasible (entry : PivotRowEntry F) (hentry : entry ∈ entries) :
      entry.isDualFeasible solver.context.tolerances.dual = true := by
    rw [hdual]
    apply (h.rightSign hrow hentry).isDualFeasible
  have hle := le_of_dualRatioTest? hfeasible htest hentry hother
  rw [hdual, zero_mul, add_zero] at hle
  apply hle

/-- The edge of the entering variable leads the leaving one to the bound that it violates. -/
theorem Leaves.alongEdge_owner (h : solver.Leaves i row side bound entries)
    (hprimal : 0 ≤ solver.context.tolerances.primal) (hentry : entry ∈ entries)
    (heligible : entry.eligible? solver.context.tolerances.ratioPivot
      (row.bounds.lower.any fun l => row.value < l) = some entering)
    {iterate : Iterate F} (hloaded : iterate.Loaded solver.model solver.factorization entry.index)
    (hbasis : iterate.basis = solver.iterate.basis)
    (hvalues : iterate.values = solver.iterate.values) :
  iterate.alongEdge solver.model entry.index
    (dualStepLength solver.context.tolerances entering.direction entry.alpha row) row.owner = bound
  := by
  obtain ⟨-, howner, hvalue, -⟩ := Iterate.row?_spec h.row_eq
  rw [← hbasis] at howner
  rw [← hvalues] at hvalue
  have hpoint : iterate.point solver.model row.owner = row.value := by
    unfold Iterate.point
    rw [Iterate.value?_of_variableAt? howner, hvalue]
    rfl
  have hcolumn : iterate.pivotColumn[i.val]?.getD 0 = entry.alpha := by
    rw [h.pivotRow.alpha entry hentry]
    apply congrFun hloaded.column i
  rw [Iterate.alongEdge_of_variableAt? howner, hpoint, hcolumn]
  apply (dualStepLength_spec hprimal h.violated heligible).1

/-- An exchange with the entering variable keeps the signs of the reduced costs, if the leaving
variable comes to rest at the side of the bound that it violates. -/
theorem DualFeasible.exchanged (h : solver.DualFeasible)
    (hrow : solver.PivotRow i entries) (hdual : solver.context.tolerances.dual = 0)
    (htest : dualRatioTest? solver.context.tolerances (decide (side = .lower)) entries
      = some entering)
    (hentry : entry ∈ entries)
    (heligible : entry.eligible? solver.context.tolerances.ratioPivot (decide (side = .lower))
      = some entering)
    (hlarge : ∀ entry ∈ entries,
      entry.alpha = 0 ∨ solver.context.tolerances.ratioPivot ≤ |entry.alpha|)
    {iterate after : Iterate F}
    (hrepresented : iterate.Represented solver.model solver.factorization)
    (hbasis : iterate.basis = solver.iterate.basis) {leaving : ℕ} {theta : F} {bounds : Bounds F}
    (hexchanged : iterate.Exchanged solver.context.tolerances solver.model i.val entry.index theta
      leaving bounds after)
    {factorization : ProductForm F} (hafter : after.Represented solver.model factorization)
    (hleaving : bounds.isFixed solver.context.tolerances.primal = false →
      after.restingSide? solver.model leaving = some (some side)) (counters : SolverCounters) :
  DualFeasible { solver with iterate := after, factorization, counters }
  := by
  have hratio := PivotRowEntry.ratio_nonneg heligible
  have hmultiplier := (h.rightSign hrow hentry).reducedCost_div_alpha heligible
  have hpivot : Iterate.tableau solver.model solver.factorization i entry.index ≠ 0 := by
    rw [← hrow.alpha entry hentry]
    intro hzero
    have hrate := PivotRowEntry.sign_of_eligible? heligible
    rw [hzero, mul_zero, mul_zero] at hrate
    apply lt_irrefl 0 hrate
  have hzero : 0 ≠ i := by
    rintro rfl
    apply hexchanged.row_ne_zero rfl
  have hupdate (v : ℕ) := hexchanged.tableau_eq hrepresented hafter hpivot hzero v
  rw [← hrow.alpha entry hentry, ← hrow.reducedCost entry hentry, hmultiplier] at hupdate
  intro v hv
  change ∃ other, after.restingSide? solver.model v = some other
    ∧ RightSign (Iterate.tableau solver.model factorization 0 v) other
  rw [hupdate]
  rcases hexchanged.eq_leaving_or hv.nonbasic with rfl | ⟨hnonbasic, hne⟩
  · obtain ⟨other, hother, hfixed⟩ := hv.range
    rw [hexchanged.bounds_eq, Option.some_inj] at hother
    subst hother
    refine ⟨some side, hleaving hfixed, ?_⟩
    rw [hrepresented.tableau_basic hexchanged.leaves, hrepresented.tableau_basic hexchanged.leaves,
      if_neg hzero, if_pos rfl, mul_one, zero_sub, neg_neg]
    apply rightSign_some_iff.mpr
    rw [← mul_assoc, ← abs_mul_abs_self, Side.abs_direction, one_mul, one_mul]
    apply hratio
  · obtain ⟨-, hside⟩ := hexchanged.kept v hnonbasic hne
    rw [hbasis] at hnonbasic hside
    obtain ⟨other, hother, rfl⟩ := hrow.complete v ⟨hnonbasic, hv.range⟩
    refine ⟨other.side, ?_, ?_⟩
    · rw [← hrow.side other hother]
      unfold Iterate.restingSide?
      rw [hside]
    · rw [← hrow.alpha other hother, ← hrow.reducedCost other hother]
      apply (h.rightSign hrow hother).sub_mul (hlarge other hother) hratio
      intro eligible heligible
      apply h.ratio_le hrow hdual htest hother heligible

end PivotRow

/-- A dual iteration keeps the signs of the reduced costs.

Let the factorization represent the basis, in exact numbers without drop and dual tolerances, and
let every movable variable have a reduced cost of the right sign.  The other tolerances and the
pricing rule do not matter, and the values of the basic variables need not solve the equations.  If
a dual step carries out an iteration, and none of the movable variables has an entry in the pivot row
that is small but not zero, then every movable variable has a reduced cost of the right sign
afterwards.  The leaving variable is at the bound that it violated, or at the lower one if it is
fixed, and the objective has not decreased. -/
theorem dualFeasible_of_dualStep?
    (h : solver.iterate.Represented solver.model solver.factorization)
    (hdrop : solver.context.tolerances.drop = 0) (hdual : solver.context.tolerances.dual = 0)
    (hprimal : 0 < solver.context.tolerances.primal) (hfeasible : solver.DualFeasible)
    (hlarge : ∀ i : Fin (solver.model.nrRows + 1), solver.leavingPosition? = some i.val →
      ∀ v, solver.iterate.Movable solver.context.tolerances solver.model v →
        Iterate.tableau solver.model solver.factorization i v = 0
          ∨ solver.context.tolerances.ratioPivot
            ≤ |Iterate.tableau solver.model solver.factorization i v|)
    (hstep : solver.dualStep? = some outcome) (hresult : outcome.result = .ok (.iterated kind)) :
  ∃ iterate factorization counters position row side bound,
    outcome.state = { solver with iterate, factorization, counters }
      ∧ iterate.Represented solver.model factorization
      ∧ outcome.state.DualFeasible
      ∧ solver.leavingPosition? = some position
      ∧ solver.iterate.row? solver.model position = some row
      ∧ row.bounds.violated? solver.context.tolerances.primal row.value = some (side, bound)
      ∧ iterate.basis.isNonbasic row.owner = true
      ∧ (row.bounds.isFixed solver.context.tolerances.primal = false →
        iterate.restingSide? solver.model row.owner = some (some side)
          ∧ iterate.value? solver.model row.owner = some bound)
      ∧ (row.bounds.isFixed solver.context.tolerances.primal = true →
        iterate.restingSide? solver.model row.owner = some (some .lower)
          ∧ iterate.value? solver.model row.owner = row.bounds.lower)
      ∧ solver.iterate.objective ≤ iterate.objective
  := by
  rcases dualStep?_cases h hdrop hstep with
    ⟨_, -, -, hprimalStep⟩
    | ⟨i, row, side, bound, entries, hleaves, ⟨rfl, -⟩ | ⟨entering, entry, hentry, loaded, pivoted,
      htest, heligible, ⟨pivotColumn, rfl, hrepresented, hloaded⟩, hpivoted, houtcome, hstate⟩⟩
  · -- Without a row to leave there is nothing to do.
    rcases primalStep?_cases h hdrop hprimalStep with
      ⟨rfl, -⟩ | ⟨candidate, _, ⟨_, rfl, -, -⟩, ⟨hmovable, himproving⟩, -⟩
    · cases hresult
    · cases hfeasible.not_improves hdual candidate ⟨⟨hmovable.nonbasic, hmovable.range⟩, himproving⟩
  · cases hresult
  have hedge := hleaves.alongEdge_owner hprimal.le hentry heligible hloaded rfl rfl
  obtain ⟨-, hat, hforward⟩ := dualStepLength_spec hprimal.le hleaves.violated heligible
  rw [Bounds.any_lower_of_violated? hprimal.le hleaves.violated] at htest heligible
  rcases represented_of_pivot? hrepresented hloaded hpivoted with
    ⟨e, -, herror, -⟩
    | ⟨_, _, _, _, -, -, hflip, -⟩
    | ⟨position, leaving, bounds, after, factorization, counters, hposition, -, hexchanged, hafter,
      -, hpivotedState⟩
  · rw [houtcome, herror] at hresult
    cases hresult
  · cases hflip
  cases hposition
  obtain ⟨-, howner, -, hbounds⟩ := Iterate.row?_spec hleaves.row_eq
  have hsame : leaving = row.owner := Option.some_inj.mp (hexchanged.leaves.symm.trans howner)
  subst hsame
  have hsame : bounds = row.bounds := Option.some_inj.mp (hexchanged.bounds_eq.symm.trans hbounds)
  subst hsame
  have hrests (hfixed : row.bounds.isFixed solver.context.tolerances.primal = false) :
      after.restingSide? solver.model row.owner = some (some side)
        ∧ after.value? solver.model row.owner = some bound := by
    apply hexchanged.restingSide?_leaving _ hat
    rw [hedge]
    apply Bounds.closestSide_of_at? hprimal hfixed hat
  rw [hpivotedState] at hstate
  refine ⟨after, factorization, counters, i.val, row, side, bound, hstate, hafter, ?_,
    hleaves.chosen, hleaves.row_eq, hleaves.violated, hexchanged.isNonbasic_leaving, hrests, ?_, ?_⟩
  · rw [hstate]
    apply hfeasible.exchanged hleaves.pivotRow hdual htest hentry heligible _ hrepresented rfl
      hexchanged hafter fun hfixed => (hrests hfixed).1
    intro other hother
    rw [hleaves.pivotRow.alpha other hother]
    apply hlarge i hleaves.chosen
    apply hleaves.pivotRow.movable other hother
  · intro hfixed
    obtain ⟨hclosest, l, hl⟩ := Bounds.closestSide_of_isFixed hfixed
      (Iterate.alongEdge solver.model { solver.iterate with pivotColumn } entry.index
        (dualStepLength solver.context.tolerances entering.direction entry.alpha row) row.owner)
    rw [hl]
    apply hexchanged.restingSide?_leaving hclosest hl
  · -- The dummy moves along the edge as well, in the direction in which the objective increases.
    have hdummy := hexchanged.point_of_variableAt? (Basis.variableAt?_zero _)
    rw [hloaded.alongEdge_zero, ← hleaves.pivotRow.reducedCost entry hentry] at hdummy
    have hcost := (hfeasible.rightSign hleaves.pivotRow hentry).direction_mul_nonneg
      (decide (side = .lower))
    have hunit := PivotRowEntry.abs_direction (decide (side = .lower)) entry
    rw [← (PivotRowEntry.eligible?_spec heligible).2.1] at hcost hunit
    set theta := dualStepLength solver.context.tolerances entering.direction entry.alpha row
    have hincrease : 0 ≤ theta * entry.reducedCost := by
      calc 0 ≤ entering.direction * theta * (entering.direction * entry.reducedCost) :=
          mul_nonneg hforward.le hcost
        _ = |entering.direction| * |entering.direction| * (theta * entry.reducedCost) := by
          rw [abs_mul_abs_self]
          ring
        _ = theta * entry.reducedCost := by
          rw [hunit, one_mul, one_mul]
    rw [Iterate.objective_eq solver.model, Iterate.objective_eq solver.model, hdummy]
    change -solver.iterate.point solver.model 0
      ≤ -(solver.iterate.point solver.model 0 - theta * entry.reducedCost)
    linarith

/-- The smallest value of `2x + 3y` for `x + y + z ≥ 3` and `x + 3y ≥ 4`, with `z` free. -/
def covering : Model ℚ where
  matrix := ⟨[[(0, 1), (1, 1)], [(0, 1), (1, 3)], [(0, 1)]], 2, by decide +kernel⟩
  cost := [2, 3, 0]
  rightHandSide := [3, 4]
  relations := [.greater, .greater]
  goal := .minimize
  bounds := [.atMost 0, .atMost 0, .atLeast 0, .atLeast 0, .free]
  cost_length := rfl
  rightHandSide_length := rfl
  relations_length := rfl
  bounds_length := rfl

/-- The row with the largest violation leaves, and the variable with the smaller ratio enters.  The
free variable has no entry in this row. -/
theorem dualFeasible_of_dualStep?_covering :
  ∃ (solver : Solver (ProductForm ℚ) ℚ)
      (outcome : Outcome (Solver (ProductForm ℚ) ℚ) (Except Error StepResult)),
    solver.model = covering ∧ solver.context = .valueTolerant
      ∧ solver.iterate.Represented solver.model solver.factorization
      ∧ solver.DualFeasible
      ∧ solver.leavingPosition? = some 2
      ∧ solver.dualStep? = some outcome
      ∧ outcome.result = .ok (.iterated .majorPivot)
      ∧ outcome.state.iterate.values = [-4, 5 / 3, 4 / 3]
      ∧ outcome.state.DualFeasible
      ∧ solver.iterate.objective ≤ outcome.state.iterate.objective
  := by
  let slack : Solver (ProductForm ℚ) ℚ := .start covering {} .valueTolerant (.identity 2) .dantzig
  have hsized : slack.iterate.Sized slack.model := ⟨rfl, rfl, rfl, rfl⟩
  obtain ⟨rebuilt, iterate, factorization, counters, hrebuilt, hstate, hrepresented, -⟩ :=
    represented_of_rebuild? hsized rfl Context.valueTolerant_exact
  have hcomputed : (slack.rebuild?.bind fun rebuilt => rebuilt.state.dualStep?.bind fun outcome =>
      (rebuilt.state.pivotRow? 2).map fun entries =>
        (rebuilt.state.leavingPosition?, iterated? outcome.result, outcome.state.iterate.values,
          decide (∀ entry ∈ entries, RightSign entry.reducedCost entry.side
            ∧ (entry.alpha = 0 ∨ 1 / 100 ≤ |entry.alpha|))))
      = some (some 2, some .majorPivot, [-4, 5 / 3, 4 / 3], true) := by
    decide +kernel
  rw [hrebuilt, Option.bind_some, hstate] at hcomputed
  obtain ⟨outcome, hstep, hcomputed⟩ := Option.bind_eq_some_iff.mp hcomputed
  obtain ⟨entries, hentries, hcomputed⟩ := Option.map_eq_some_iff.mp hcomputed
  simp only [Prod.mk.injEq, decide_eq_true_eq] at hcomputed
  obtain ⟨hposition, hkind, hvalues, hsigns⟩ := hcomputed
  have hresult := iterated?_eq_some_iff.mp hkind
  let i : Fin (covering.nrRows + 1) := ⟨2, by decide⟩
  have hrow : PivotRow { slack with iterate, factorization, counters } i entries :=
    pivotRow_of_pivotRow? hrepresented (show Context.valueTolerant.tolerances.drop = 0 from rfl)
      hentries
  have hfeasible := hrow.dualFeasible fun entry hentry => (hsigns entry hentry).1
  obtain ⟨after, _, _, _, _, _, _, hafter, -, hagain, -, -, -, -, -, -, hobjective⟩ :=
    dualFeasible_of_dualStep? hrepresented
      (show Context.valueTolerant.tolerances.drop = 0 from rfl)
      (show Context.valueTolerant.tolerances.dual = 0 from rfl)
      (show (0 : ℚ) < 1 / 10 by norm_num) hfeasible
      (by
        intro j hj v hv
        rw [hposition, Option.some_inj] at hj
        have hsame : i = j := Fin.ext hj
        subst hsame
        obtain ⟨entry, hentry, rfl⟩ := hrow.complete v hv
        rw [← hrow.alpha entry hentry]
        apply (hsigns entry hentry).2)
      hstep hresult
  refine ⟨_, outcome, rfl, rfl, hrepresented, hfeasible, hposition, hstep, hresult, hvalues, hagain,
    ?_⟩
  rw [hafter]
  apply hobjective

end Solver

end RevisedSimplex
