import RevisedSimplex.Proofs.Edges
import RevisedSimplex.Proofs.IterateSteps
import RevisedSimplex.Proofs.SolverShape

/-!
# Choices of a solver in exact numbers

What a step chooses in a basis that the factorization represents, whatever the values and the
tolerances on them are.  `primalStep?_cases` and `dualStep?_cases` say once what the two kinds of
steps come to.

* A primal step finds no candidate, or it lets a variable enter that improves the objective by its
  entry of the tableau in row `0`.
* A dual step chooses a row that violates a bound.  It finds no variable to enter for the row, or it
  pivots with one whose entry of the tableau in this row has the right sign.

In either case the solved column of the entering variable is the pivot column.
-/

open Matrix

namespace RevisedSimplex

namespace Solver

variable {F : Type} [ExactScalar F] {solver loaded middle : Solver (ProductForm F) F}
  {candidate : Candidate F} {outcome : Outcome (Solver (ProductForm F) F) (Except Error StepResult)}

/-! ### Columns -/

section Columns

variable {entering later : ℕ}

/-- The solver with the solved column of a variable as the pivot column. -/
def LoadedFor (solver loaded : Solver (ProductForm F) F) (entering : ℕ) : Prop :=
  ∃ pivotColumn, loaded = { solver with iterate := { solver.iterate with pivotColumn } }
    ∧ loaded.iterate.Represented loaded.model loaded.factorization
    ∧ loaded.iterate.Loaded loaded.model loaded.factorization entering

theorem LoadedFor.represented (h : solver.LoadedFor loaded entering) :
  loaded.iterate.Represented loaded.model loaded.factorization
  := by
  obtain ⟨_, -, hrepresented, -⟩ := h
  apply hrepresented

theorem LoadedFor.context_eq (h : solver.LoadedFor loaded entering) :
  loaded.context = solver.context
  := by
  obtain ⟨_, rfl, -, -⟩ := h
  rfl

theorem LoadedFor.trans (h : solver.LoadedFor middle entering)
    (h' : middle.LoadedFor loaded later) :
  solver.LoadedFor loaded later
  := by
  obtain ⟨_, rfl, -, -⟩ := h
  obtain ⟨pivotColumn, rfl, hrepresented, hloaded⟩ := h'
  exact ⟨pivotColumn, rfl, hrepresented, hloaded⟩

theorem loadedFor_of_loadColumn?
    (h : solver.iterate.Represented solver.model solver.factorization)
    (hdrop : solver.context.tolerances.drop = 0) {iterate : Iterate F}
    (hload : solver.iterate.loadColumn? solver.context solver.model solver.factorization entering
      = some iterate) :
  solver.LoadedFor { solver with iterate } entering
  := by
  obtain ⟨pivotColumn, hpivotColumn, hrepresented, hloaded⟩ :=
    h.loadColumn?_eq hdrop (Iterate.isNonbasic_of_loadColumn? hload)
  rw [hpivotColumn, Option.some_inj] at hload
  subst hload
  exact ⟨pivotColumn, rfl, hrepresented, hloaded⟩

end Columns

/-- Every row has its entry of the pivot column. -/
theorem exists_mem_pivotEntries? (hsized : solver.iterate.Sized solver.model)
    {entries : List (PivotEntry F)} (hentries : solver.pivotEntries? = some entries) {i : ℕ}
    (hzero : i ≠ 0) (hi : i ≤ solver.model.nrRows) :
  ∃ entry ∈ entries, solver.iterate.row? solver.model i = some entry.row
    ∧ solver.iterate.pivotColumn[i]? = some entry.alpha
  := by
  unfold pivotEntries? at hentries
  obtain ⟨rows, hrows, hentries⟩ := Option.bind_eq_some_iff.mp hentries
  cases hentries
  obtain ⟨k, rfl⟩ := Nat.exists_eq_succ_of_ne_zero hzero
  have hposition : (List.range' 1 (solver.iterate.values.length - 1))[k]? = some (k + 1) := by
    rw [hsized.values, List.getElem?_range' (by omega), Nat.one_mul, Nat.add_comm]
  have hread := congrArg (fun list => list[k]?) (mapM_eq_some_iff.mp hrows)
  rw [List.getElem?_map, List.getElem?_map, hposition] at hread
  obtain ⟨row, hrow, hread⟩ := Option.map_eq_some_iff.mp hread.symm
  have hlt : k + 1 < solver.iterate.pivotColumn.length := by
    rw [hsized.pivotColumn]
    omega
  refine ⟨⟨row, solver.iterate.pivotColumn[k + 1]⟩, ?_, hread.symm,
    List.getElem?_eq_getElem hlt⟩
  apply List.mem_of_getElem? (i := k)
  rw [List.getElem?_zipWith, hrow, List.getElem?_drop, Nat.add_comm 1 k,
    List.getElem?_eq_getElem hlt]

/-! ### Candidates -/

theorem loadedFor_of_consider?
    (h : solver.iterate.Represented solver.model solver.factorization)
    (hdrop : solver.context.tolerances.drop = 0) {degenerate : Bool}
    (hconsider : solver.consider? candidate = some (loaded, degenerate)) :
  solver.LoadedFor loaded candidate.index
  := by
  obtain ⟨iterate, hload, -, rfl⟩ := consider?_spec hconsider
  apply loadedFor_of_loadColumn? h hdrop hload

/-- An alternative is one of the candidates, and its column is loaded.  By induction on the number
of retries. -/
theorem loadedFor_of_findAlternative? :
    ∀ (retries : ℕ) {solver : Solver (ProductForm F) F} {candidates : List (Candidate F)},
      solver.iterate.Represented solver.model solver.factorization →
      solver.context.tolerances.drop = 0 →
      solver.findAlternative? retries candidates = some (some (candidate, loaded)) →
      candidate ∈ candidates ∧ solver.LoadedFor loaded candidate.index
  | 0, _, _, _, _, h => by
      cases h
  | retries + 1, solver, candidates, hrepresented, hdrop, h => by
      rw [Solver.findAlternative?] at h
      split at h
      · cases h
      · rename_i place hplace
        obtain ⟨first, hfirst, h⟩ := Option.bind_eq_some_iff.mp h
        obtain ⟨⟨next, degenerate⟩, hnext, h⟩ := Option.bind_eq_some_iff.mp h
        have hloaded := loadedFor_of_consider? hrepresented hdrop hnext
        dsimp only at h
        split at h
        · have hdropNext : next.context.tolerances.drop = 0 := by
            rw [hloaded.context_eq, hdrop]
          obtain ⟨hmem, hlast⟩ :=
            loadedFor_of_findAlternative? retries hloaded.represented hdropNext h
          exact ⟨List.mem_of_mem_eraseIdx hmem, hloaded.trans hlast⟩
        · cases h
          exact ⟨List.mem_of_getElem? hfirst, hloaded⟩

/-- The candidate that enters in the end is one of the candidates, and its column is loaded. -/
theorem loadedFor_of_avoidDegeneracy?
    (h : solver.iterate.Represented solver.model solver.factorization)
    (hdrop : solver.context.tolerances.drop = 0) {candidates : List (Candidate F)} {place : ℕ}
    (havoid : solver.avoidDegeneracy? candidates place = some (candidate, loaded)) :
  candidate ∈ candidates ∧ solver.LoadedFor loaded candidate.index
  := by
  unfold Solver.avoidDegeneracy? at havoid
  obtain ⟨chosen, hchosen, havoid⟩ := Option.bind_eq_some_iff.mp havoid
  obtain ⟨⟨first, degenerate⟩, hfirst, havoid⟩ := Option.bind_eq_some_iff.mp havoid
  have hloaded := loadedFor_of_consider? h hdrop hfirst
  dsimp only at havoid
  split at havoid
  · obtain ⟨found, hfound, havoid⟩ := Option.bind_eq_some_iff.mp havoid
    split at havoid
    · cases havoid
      have hdropFirst : first.context.tolerances.drop = 0 := by
        rw [hloaded.context_eq, hdrop]
      obtain ⟨hmem, hlast⟩ :=
        loadedFor_of_findAlternative? _ hloaded.represented hdropFirst hfound
      exact ⟨List.mem_of_mem_eraseIdx hmem, hloaded.trans hlast⟩
    · obtain ⟨⟨reloaded, _⟩, hreloaded, havoid⟩ := Option.bind_eq_some_iff.mp havoid
      cases havoid
      exact ⟨List.mem_of_getElem? hchosen, loadedFor_of_consider? h hdrop hreloaded⟩
  · cases havoid
    exact ⟨List.mem_of_getElem? hchosen, hloaded⟩

/-- The change of the objective for a unit step of a variable upwards. -/
def reducedCost (solver : Solver (ProductForm F) F) (v : ℕ) : F :=
  Iterate.tableau solver.model solver.factorization 0 v

/-- The reduced cost of a variable is the inner product of its column with the multipliers. -/
theorem inner?_multipliers (h : solver.iterate.Represented solver.model solver.factorization)
    (hdrop : solver.context.tolerances.drop = 0) {unit multipliers : DenseVector F}
    (hunit : DenseVector.unit? 0 (solver.model.nrRows + 1) = some unit)
    (hmultipliers : solver.factorization.btran? solver.context unit = some multipliers)
    {v : ℕ} {column : SparseVector F} (hcolumn : solver.model.column? v = some column) :
  column.inner? multipliers = some (Iterate.tableau solver.model solver.factorization 0 v)
  := by
  obtain ⟨other, hother, hlength, hentries⟩ :=
    DenseVector.unit?_eq (F := F) (0 : Fin (solver.model.nrRows + 1))
  have hsame := Option.some_inj.mp (hunit.symm.trans hother)
  subst hsame
  obtain ⟨solved, hsolved, hsolvedLength, hsolvedEntries⟩ :=
    ProductForm.btran?_eq hdrop h.inverse.size h.inverse.fits hlength
  have hsame := Option.some_inj.mp (hmultipliers.symm.trans hsolved)
  subst hsame
  rw [hentries] at hsolvedEntries
  apply Iterate.inner?_pivotRow hsolvedLength hsolvedEntries hcolumn

/-! ### Primal steps -/

/-- The pricing rule finds no candidate among the nonbasic variables. -/
def PricedOut (solver : Solver (ProductForm F) F) : Prop :=
  ∃ unit multipliers movable candidates,
    (DenseVector.unit? 0 (solver.model.nrRows + 1) : Option (DenseVector F)) = some unit
      ∧ solver.factorization.btran? solver.context unit = some multipliers
      ∧ solver.iterate.movable? solver.context.tolerances solver.model = some movable
      ∧ Candidate.list? solver.context.tolerances multipliers movable = some candidates
      ∧ solver.pricing.selectEntering candidates = none

/-- The variable of the candidate is movable, and its direction improves the objective. -/
structure Improves (solver : Solver (ProductForm F) F) (candidate : Candidate F) : Prop where
  movable : solver.iterate.Movable solver.context.tolerances solver.model candidate.index
  direction : ∃ side, solver.iterate.restingSide? solver.model candidate.index = some side
    ∧ Candidate.improvingDirection? solver.context.tolerances.dual
      (Iterate.tableau solver.model solver.factorization 0 candidate.index) side
      = some candidate.direction

/-- What a primal step comes to. -/
theorem primalStep?_cases (h : solver.iterate.Represented solver.model solver.factorization)
    (hdrop : solver.context.tolerances.drop = 0) (hstep : solver.primalStep? = some outcome) :
  (outcome = solver.conclude .optimal ∧ solver.PricedOut)
    ∨ ∃ candidate loaded, solver.LoadedFor loaded candidate.index ∧ loaded.Improves candidate
      ∧ loaded.enter? candidate = some outcome
  := by
  unfold Solver.primalStep? at hstep
  obtain ⟨unit, hunit, hstep⟩ := Option.bind_eq_some_iff.mp hstep
  obtain ⟨multipliers, hmultipliers, hstep⟩ := Option.bind_eq_some_iff.mp hstep
  obtain ⟨movable, hmovable, hstep⟩ := Option.bind_eq_some_iff.mp hstep
  obtain ⟨candidates, hcandidates, hstep⟩ := Option.bind_eq_some_iff.mp hstep
  split at hstep
  · rename_i hnone
    cases hstep
    exact Or.inl ⟨rfl, unit, multipliers, movable, candidates, hunit, hmultipliers, hmovable,
      hcandidates, hnone⟩
  · obtain ⟨⟨candidate, loaded⟩, havoid, hstep⟩ := Option.bind_eq_some_iff.mp hstep
    obtain ⟨hmem, pivotColumn, rfl, hrepresented, hloaded⟩ :=
      loadedFor_of_avoidDegeneracy? h hdrop havoid
    obtain ⟨x, hx, hindex, hcost, hdirection⟩ := Candidate.mem_list? hcandidates hmem
    obtain ⟨-, hside, hcolumn⟩ := Iterate.mem_movable? hmovable hx
    obtain ⟨hnonbasic, hrange⟩ := Iterate.movable_of_mem hmovable hx
    rw [inner?_multipliers h hdrop hunit hmultipliers hcolumn, Option.some_inj] at hcost
    rw [← hcost, hindex] at hdirection
    rw [hindex] at hside hnonbasic hrange
    exact Or.inr ⟨candidate, _, ⟨pivotColumn, rfl, hrepresented, hloaded⟩,
      ⟨⟨hnonbasic, hrange⟩, x.side, hside, hdirection⟩, hstep⟩

/-! ### Dual steps -/

/-- The entries of the pivot row at a position, one for each movable variable. -/
structure PivotRow (solver : Solver (ProductForm F) F) (i : Fin (solver.model.nrRows + 1))
    (entries : List (PivotRowEntry F)) : Prop where
  movable : ∀ entry ∈ entries,
    solver.iterate.Movable solver.context.tolerances solver.model entry.index
  side : ∀ entry ∈ entries,
    solver.iterate.restingSide? solver.model entry.index = some entry.side
  reducedCost : ∀ entry ∈ entries,
    entry.reducedCost = Iterate.tableau solver.model solver.factorization 0 entry.index
  alpha : ∀ entry ∈ entries,
    entry.alpha = Iterate.tableau solver.model solver.factorization i entry.index
  complete : ∀ v, solver.iterate.Movable solver.context.tolerances solver.model v →
    ∃ entry ∈ entries, entry.index = v

/-- The entries of the pivot row at a position, found with the factorization. -/
def pivotRow? (solver : Solver (ProductForm F) F) (position : ℕ) :
    Option (List (PivotRowEntry F)) := do
  let size := solver.model.nrRows + 1
  let (multipliers, pivotRow) ← solver.factorization.btranDouble? solver.context
    (← DenseVector.unit? 0 size) (← DenseVector.unit? position size)
  let movable ← solver.iterate.movable? solver.context.tolerances solver.model
  PivotRowEntry.list? multipliers pivotRow movable

/-- The position that the pricing rule chooses among those of the rows that violate a bound. -/
def leavingPosition? (solver : Solver (ProductForm F) F) : Option ℕ := do
  let violations ← solver.iterate.violations? solver.context.tolerances solver.model
  let place ← solver.pricing.selectLeaving violations
  let (position, _) ← violations[place]?
  some position

/-- The row of the chosen position violates a bound, and the entries are those of its pivot row. -/
structure Leaves (solver : Solver (ProductForm F) F) (i : Fin (solver.model.nrRows + 1))
    (row : BasicRow F) (side : Side) (bound : F) (entries : List (PivotRowEntry F)) : Prop where
  chosen : solver.leavingPosition? = some i.val
  row_eq : solver.iterate.row? solver.model i.val = some row
  violated : row.bounds.violated? solver.context.tolerances.primal row.value = some (side, bound)
  pivotRow : solver.PivotRow i entries

/-- The entries of the pivot row are those of the tableau. -/
theorem pivotRow_of_pivotRow? (h : solver.iterate.Represented solver.model solver.factorization)
    (hdrop : solver.context.tolerances.drop = 0) {i : Fin (solver.model.nrRows + 1)}
    {entries : List (PivotRowEntry F)} (hpivotRow : solver.pivotRow? i.val = some entries) :
  solver.PivotRow i entries
  := by
  unfold pivotRow? at hpivotRow
  obtain ⟨first, hfirst, hpivotRow⟩ := Option.bind_eq_some_iff.mp hpivotRow
  obtain ⟨second, hsecond, hpivotRow⟩ := Option.bind_eq_some_iff.mp hpivotRow
  obtain ⟨⟨multipliers, pivotRow⟩, hdouble, hpivotRow⟩ := Option.bind_eq_some_iff.mp hpivotRow
  obtain ⟨movable, hmovable, hentries⟩ := Option.bind_eq_some_iff.mp hpivotRow
  obtain ⟨firstUnit, hfirstUnit, hfirstLength, hfirstEntries⟩ :=
    DenseVector.unit?_eq (F := F) (0 : Fin (solver.model.nrRows + 1))
  obtain ⟨secondUnit, hsecondUnit, hsecondLength, hsecondEntries⟩ :=
    DenseVector.unit?_eq (F := F) i
  have hfirstSame := Option.some_inj.mp (hfirst.symm.trans hfirstUnit)
  have hsecondSame := Option.some_inj.mp (hsecond.symm.trans hsecondUnit)
  subst hfirstSame hsecondSame
  obtain ⟨a, b, hsolved, haLength, hbLength, haEntries, hbEntries⟩ := ProductForm.btranDouble?_eq
    hdrop h.inverse.size h.inverse.fits hfirstLength hsecondLength
  have hpair := Option.some_inj.mp (hdouble.symm.trans hsolved)
  cases hpair
  rw [hfirstEntries] at haEntries
  rw [hsecondEntries] at hbEntries
  -- An entry is made of a movable variable and its entries of the tableau.
  have hmem (entry : PivotRowEntry F) (hentry : entry ∈ entries) : ∃ x ∈ movable,
      entry = ⟨x.index, x.side, Iterate.tableau solver.model solver.factorization 0 x.index,
        Iterate.tableau solver.model solver.factorization i x.index⟩ := by
    obtain ⟨x, hx, hread⟩ := exists_of_mem_mapM hentries hentry
    obtain ⟨-, -, hcolumn⟩ := Iterate.mem_movable? hmovable hx
    rw [Iterate.inner?_pivotRow haLength haEntries hcolumn, Option.bind_eq_bind, Option.bind_some,
      Iterate.inner?_pivotRow hbLength hbEntries hcolumn] at hread
    cases hread
    exact ⟨x, hx, rfl⟩
  constructor
  case movable =>
    intro entry hentry
    obtain ⟨x, hx, rfl⟩ := hmem entry hentry
    apply Iterate.movable_of_mem hmovable hx
  case side =>
    intro entry hentry
    obtain ⟨x, hx, rfl⟩ := hmem entry hentry
    apply (Iterate.mem_movable? hmovable hx).2.1
  case reducedCost =>
    intro entry hentry
    obtain ⟨x, hx, rfl⟩ := hmem entry hentry
    rfl
  case alpha =>
    intro entry hentry
    obtain ⟨x, hx, rfl⟩ := hmem entry hentry
    rfl
  case complete =>
    intro v hv
    obtain ⟨x, hx, rfl⟩ := hv.exists_mem hmovable
    obtain ⟨entry, hentry, hread⟩ := mem_mapM_of_mem hentries hx
    obtain ⟨_, -, hread⟩ := Option.bind_eq_some_iff.mp hread
    obtain ⟨_, -, hread⟩ := Option.bind_eq_some_iff.mp hread
    cases hread
    exact ⟨_, hentry, rfl⟩

/-- The step of an eligible variable is in its direction, and takes the variable of the row to the
bound that it violates. -/
theorem dualStepLength_spec {tolerances : Tolerances F} (hprimal : 0 ≤ tolerances.primal)
    {row : BasicRow F} {side : Side} {bound : F}
    (hviolated : row.bounds.violated? tolerances.primal row.value = some (side, bound))
    {entry : PivotRowEntry F} {entering : Eligible F}
    (heligible : entry.eligible? tolerances.ratioPivot
      (row.bounds.lower.any fun l => row.value < l) = some entering) :
  row.value - dualStepLength tolerances entering.direction entry.alpha row * entry.alpha = bound
    ∧ row.bounds.at? side = some bound
    ∧ 0 < entering.direction * dualStepLength tolerances entering.direction entry.alpha row
  := by
  obtain ⟨-, -, -, -, hlarge⟩ := PivotRowEntry.eligible?_spec heligible
  rw [Bounds.any_lower_of_violated? hprimal hviolated] at heligible
  have hrate := PivotRowEntry.sign_of_eligible? heligible
  -- The value moves towards the bound.
  have hsign : 0 < (row.value - bound) * (entering.direction * entry.alpha) := by
    rcases Bounds.violated?_spec hviolated with ⟨rfl, -, hlt⟩ | ⟨rfl, -, hlt⟩
    · change 1 * _ < 0 at hrate
      apply mul_pos_of_neg_of_neg
      · linarith
      · linarith
    · change -1 * _ < 0 at hrate
      apply mul_pos
      · linarith
      · linarith
  have hne : entry.alpha ≠ 0 := by
    intro hzero
    rw [hzero, mul_zero, mul_zero] at hsign
    exact lt_irrefl 0 hsign
  obtain ⟨hmoved, hbound, hstep⟩ := Bounds.repairStep_spec hviolated hne
  have hrepair : row.repairStep tolerances 0 entry.alpha
      = row.bounds.repairStep tolerances.primal 0 row.value entry.alpha := by
    unfold BasicRow.repairStep
    rw [ExactScalar.magnitude_eq_abs, if_neg (not_lt.mpr hlarge), mul_zero]
  have hpositive : 0 < row.repairStep tolerances 0 entry.alpha * entering.direction := by
    rw [hrepair, hstep]
    have hsquare : (row.value - bound) / entry.alpha * entering.direction
        = (row.value - bound) * (entering.direction * entry.alpha)
          / (entry.alpha * entry.alpha) := by
      field_simp
    rw [hsquare]
    apply div_pos hsign (mul_self_pos.mpr hne)
  unfold dualStepLength
  dsimp only
  rw [if_neg hpositive.le.not_gt]
  refine ⟨?_, hbound, ?_⟩
  · rw [hrepair, hmoved]
  · rw [mul_comm]
    apply hpositive

/-- The pivot of a variable with an entry in the pivot row of the leaving row.  The entry is also
that of the pivot column. -/
theorem repair?_cases (h : solver.iterate.Represented solver.model solver.factorization)
    (hdrop : solver.context.tolerances.drop = 0) {i : Fin (solver.model.nrRows + 1)}
    {entries : List (PivotRowEntry F)} (hpivotRow : solver.PivotRow i entries)
    {entry : PivotRowEntry F} (hentry : entry ∈ entries) {row : BasicRow F}
    (hposition : row.position = i.val) {entering : Eligible F}
    (hindex : entering.index = entry.index) (hstep : solver.repair? row entering = some outcome) :
  ∃ loaded pivoted, solver.LoadedFor loaded entry.index
    ∧ loaded.pivot? (some i.val) entry.index
      (dualStepLength solver.context.tolerances entering.direction entry.alpha row) false
      = some pivoted
    ∧ outcome.result = pivoted.result.map StepResult.iterated
    ∧ outcome.state = pivoted.state
  := by
  unfold Solver.repair? at hstep
  obtain ⟨iterate, hload, hstep⟩ := Option.bind_eq_some_iff.mp hstep
  rw [hindex] at hload
  obtain ⟨pivotColumn, heq, hrepresented, hloaded⟩ := loadedFor_of_loadColumn? h hdrop hload
  have hiterate := congrArg Solver.iterate heq
  dsimp only at hiterate
  subst hiterate
  rw [hposition, hindex] at hstep
  obtain ⟨alpha, halpha, hstep⟩ := Option.bind_eq_some_iff.mp hstep
  obtain ⟨pivoted, hpivoted, hstep⟩ := Option.bind_eq_some_iff.mp hstep
  cases hstep
  have hsame : alpha = entry.alpha := by
    rw [hpivotRow.alpha entry hentry]
    have hcolumn := DenseVector.getElem?_eq_entries hrepresented.sized.pivotColumn i
    rw [Option.some_inj.mp (halpha.symm.trans hcolumn)]
    apply congrFun hloaded.column i
  subst hsame
  exact ⟨_, pivoted, ⟨pivotColumn, rfl, hrepresented, hloaded⟩, hpivoted, rfl, rfl⟩

/-- The choices of a dual step.  Unless it is a primal step, there is a row to leave, and the dual
test of its pivot row finds the variable to enter. -/
theorem dualStep?_choices (hstep : solver.dualStep? = some outcome) :
  ∃ violations,
    solver.iterate.violations? solver.context.tolerances solver.model = some violations
    ∧ ((solver.pricing.selectLeaving violations = none ∧ solver.primalStep? = some outcome)
      ∨ ∃ violation ∈ violations, ∃ row entries, solver.leavingPosition? = some violation.1
        ∧ solver.iterate.row? solver.model violation.1 = some row
        ∧ solver.pivotRow? violation.1 = some entries
        ∧ ((outcome = solver.conclude .infeasible
            ∧ dualRatioTest? solver.context.tolerances
              (row.bounds.lower.any fun l => row.value < l) entries = none)
          ∨ ∃ entering, dualRatioTest? solver.context.tolerances
              (row.bounds.lower.any fun l => row.value < l) entries = some entering
            ∧ solver.repair? row entering = some outcome))
  := by
  unfold Solver.dualStep? at hstep
  obtain ⟨violations, hread, hstep⟩ := Option.bind_eq_some_iff.mp hstep
  refine ⟨violations, hread, ?_⟩
  split at hstep
  · rename_i hnone
    exact Or.inl ⟨hnone, hstep⟩
  · rename_i place hplace
    obtain ⟨⟨position, amount⟩, hviolation, hstep⟩ := Option.bind_eq_some_iff.mp hstep
    obtain ⟨row, hrow, hstep⟩ := Option.bind_eq_some_iff.mp hstep
    obtain ⟨first, hfirst, hstep⟩ := Option.bind_eq_some_iff.mp hstep
    obtain ⟨second, hsecond, hstep⟩ := Option.bind_eq_some_iff.mp hstep
    obtain ⟨⟨multipliers, pivotRow⟩, hdouble, hstep⟩ := Option.bind_eq_some_iff.mp hstep
    obtain ⟨movable, hmovable, hstep⟩ := Option.bind_eq_some_iff.mp hstep
    obtain ⟨entries, hentries, hstep⟩ := Option.bind_eq_some_iff.mp hstep
    have hchosen : solver.leavingPosition? = some position := by
      unfold leavingPosition?
      rw [hread, Option.bind_eq_bind, Option.bind_some, hplace, Option.bind_eq_bind,
        Option.bind_some, hviolation]
      rfl
    have hpivotRow : solver.pivotRow? position = some entries := by
      unfold pivotRow?
      simp only [hfirst, hsecond, Option.bind_eq_bind, Option.bind_some]
      refine Option.bind_eq_some_iff.mpr ⟨_, hdouble, ?_⟩
      simp only [hmovable, hentries, Option.bind_some]
    refine Or.inr ⟨_, List.mem_of_getElem? hviolation, row, entries, hchosen, hrow, hpivotRow, ?_⟩
    dsimp only at hstep
    split at hstep
    · rename_i hnone
      cases hstep
      exact Or.inl ⟨rfl, hnone⟩
    · rename_i entering hentering
      exact Or.inr ⟨entering, hentering, hstep⟩

/-- What a dual step comes to.  The step length is that of the entry of the pivot row, which is also
the entry of the pivot column. -/
theorem dualStep?_cases (h : solver.iterate.Represented solver.model solver.factorization)
    (hdrop : solver.context.tolerances.drop = 0) (hstep : solver.dualStep? = some outcome) :
  (∃ violations,
      solver.iterate.violations? solver.context.tolerances solver.model = some violations
        ∧ solver.pricing.selectLeaving violations = none ∧ solver.primalStep? = some outcome)
    ∨ ∃ i row side bound entries, solver.Leaves i row side bound entries
      ∧ ((outcome = solver.conclude .infeasible
          ∧ dualRatioTest? solver.context.tolerances
            (row.bounds.lower.any fun l => row.value < l) entries = none)
        ∨ ∃ entering, ∃ entry ∈ entries, ∃ loaded pivoted,
          dualRatioTest? solver.context.tolerances
              (row.bounds.lower.any fun l => row.value < l) entries = some entering
            ∧ entry.eligible? solver.context.tolerances.ratioPivot
              (row.bounds.lower.any fun l => row.value < l) = some entering
            ∧ solver.LoadedFor loaded entry.index
            ∧ loaded.pivot? (some i.val) entry.index
              (dualStepLength solver.context.tolerances entering.direction entry.alpha row) false
              = some pivoted
            ∧ outcome.result = pivoted.result.map StepResult.iterated
            ∧ outcome.state = pivoted.state)
  := by
  obtain ⟨violations, hread, ⟨hnone, hprimal⟩
    | ⟨violation, hviolation, row, entries, hchosen, hrow, hfound, htest⟩⟩ :=
    dualStep?_choices hstep
  · exact Or.inl ⟨violations, hread, hnone, hprimal⟩
  · obtain ⟨-, hle, other, ⟨side, bound⟩, hother, hviolated⟩ :=
      Iterate.mem_violations? h.sized hread hviolation
    rw [hrow, Option.some_inj] at hother
    subst hother
    let i : Fin (solver.model.nrRows + 1) := ⟨violation.1, Nat.lt_succ_of_le hle⟩
    have hpivotRow : solver.PivotRow i entries := pivotRow_of_pivotRow? h hdrop hfound
    refine Or.inr ⟨i, row, side, bound, entries, ⟨hchosen, hrow, hviolated, hpivotRow⟩, ?_⟩
    rcases htest with hinfeasible | ⟨entering, hentering, hrepair⟩
    · apply Or.inl hinfeasible
    · obtain ⟨entry, hentry, heligible⟩ := dualRatioTest?_spec hentering
      obtain ⟨loaded, pivoted, hloaded, hpivoted, hresult, hstate⟩ :=
        repair?_cases h hdrop hpivotRow hentry (Iterate.row?_spec hrow).1
          (PivotRowEntry.index_of_eligible? heligible) hrepair
      exact Or.inr ⟨entering, entry, hentry, loaded, pivoted, hentering, heligible, hloaded,
        hpivoted, hresult, hstate⟩

end Solver

end RevisedSimplex
