import RevisedSimplex.Proofs.PrimalEdges
import RevisedSimplex.Proofs.SolverPivots

/-!
# Steps of a solver in exact numbers

A step of an exact solver advances.  Primal steps do because the ratio test takes the leaving
variable exactly to a bound, and dual ones because the step of the repair does.

A step concludes that the basis is optimal only when all rows are feasible and no nonbasic
variable improves the objective, and that the model is infeasible only when no variable can move
a violated row towards its bound.
-/

namespace RevisedSimplex

namespace Solver

variable {F : Type} [ExactScalar F] {solver loaded : Solver (ProductForm F) F}
  {candidate : Candidate F}

/-- Loading a column advances. -/
theorem LoadedFor.advances {entering : ℕ} (h : solver.LoadedFor loaded entering)
    (hexact : solver.Exact) :
  solver.Advances loaded
  := by
  obtain ⟨pivotColumn, rfl, hrepresented, -⟩ := h
  exact ⟨_, _, _, rfl, ⟨hrepresented, hexact.iterate.solves⟩, hexact.current⟩

/-! ### Primal steps -/

/-- The rows of the solver are within their bounds. -/
def RowsContained (solver : Solver (ProductForm F) F) : Prop :=
  ∀ position row, position ≠ 0 → position ≤ solver.model.nrRows →
    solver.iterate.row? solver.model position = some row → row.bounds.Contains row.value

section Entering

variable {entries : List (PivotEntry F)} {tolerances : Tolerances F} {direction length : F}
  {range : Option F}

/-- The step of a blocking row comes from one of the bounds of its variable. -/
theorem exists_of_primalRatioTest? (hprimal : tolerances.primal = 0)
    (hlength : ((primalRatioTest? tolerances direction entries).map Prod.snd).or range
      = some length)
    {position : ℕ} (hblocking :
      (primalRatioTest? tolerances direction entries).map Prod.fst = some position) :
  ∃ entry ∈ entries, entry.row.position = position
    ∧ entry.row.bounds.reach? 0 entry.row.value (direction * entry.alpha) = some length
  := by
  obtain ⟨⟨_, step⟩, hblock, rfl⟩ := Option.map_eq_some_iff.mp hblocking
  rw [hblock] at hlength
  have hstep : step = length := Option.some_inj.mp hlength
  subst hstep
  obtain ⟨entry, hentry, hposition, hreach⟩ := primalRatioTest?_spec hblock
  refine ⟨entry, hentry, hposition, ?_⟩
  unfold PivotEntry.reach? BasicRow.reach? at hreach
  split at hreach
  · cases hreach
  · rw [hprimal, zero_mul] at hreach
    apply hreach

/-- A primal step that ends in a bound flip is at least as long as the range. -/
theorem flipsWithin_of_primalRatioTest? (hprimal : solver.context.tolerances.primal = 0)
    {bounds : Bounds F} (hbounds : solver.model.bounds? candidate.index = some bounds)
    {side : Option Side}
    (hside : solver.iterate.restingSide? solver.model candidate.index = some side)
    (hdirection : ∀ s, side = some s → candidate.direction = s.direction)
    (hunit : |candidate.direction| = 1)
    (hlength : ((primalRatioTest? solver.context.tolerances candidate.direction entries).map
      Prod.snd).or bounds.finiteRange? = some length)
    (hflip : Iterate.isBoundFlip? solver.context.tolerances solver.model
      ((primalRatioTest? solver.context.tolerances candidate.direction entries).map Prod.fst)
      candidate.index (candidate.direction * length) true = some true) :
  solver.FlipsWithin candidate.index (candidate.direction * length)
  := by
  intro other range hother hrange
  rw [hbounds, Option.some_inj] at hother
  subst hother
  have hread := hside
  unfold Iterate.restingSide? at hread
  rw [hbounds, Option.bind_eq_bind, Option.bind_some] at hread
  obtain ⟨stored, -, hstored⟩ := Option.bind_eq_some_iff.mp hread
  rw [(Bounds.restingValue_other stored hrange).1, Option.some_inj] at hstored
  subst hstored
  have hrelaxation : 0 ≤ solver.context.tolerances.primal * solver.context.tolerances.harris := by
    rw [hprimal, zero_mul]
  have hfixed : bounds.isFixed solver.context.tolerances.primal = false := by
    rw [hprimal, Bounds.isFixed_zero]
  refine ⟨stored, length, hside, ?_, ?_⟩
  · rw [hdirection stored rfl]
  · apply range_le_of_isBoundFlip? hprimal.ge hbounds hfixed hrange hunit
      (le_reach?_of_primalRatioTest? hrelaxation hlength).1 hlength hflip

/-- A step that takes the value of a row to a bound. -/
theorem leavesAtBound_of_row? (hsized : solver.iterate.Sized solver.model)
    {i : Fin (solver.model.nrRows + 1)} {row : BasicRow F} {theta : F}
    (hrow : solver.iterate.row? solver.model i.val = some row)
    (hbound : row.bounds.lower = some (row.value
          - theta * solver.iterate.pivotColumn.entries (solver.model.nrRows + 1) i)
        ∨ row.bounds.upper = some (row.value
          - theta * solver.iterate.pivotColumn.entries (solver.model.nrRows + 1) i)) :
  solver.LeavesAtBound i.val theta
  := by
  obtain ⟨-, howner, hvalue, hbounds⟩ := Iterate.row?_spec hrow
  have hvalues := DenseVector.getElem?_eq_entries hsized.values i
  rw [hvalue, Option.some_inj] at hvalues
  rw [hvalues] at hbound
  intro j hj
  have hji : j = i := Fin.ext hj
  subst hji
  exact ⟨row.owner, row.bounds, howner, hbounds, hbound⟩

/-- The variable of the blocking row leaves at one of its bounds. -/
theorem Exact.leavesAtBound_of_primalRatioTest? (h : solver.Exact)
    (hprimal : solver.context.tolerances.primal = 0) (hfeasible : solver.RowsContained)
    (hentries : solver.pivotEntries? = some entries)
    (hlength : ((primalRatioTest? solver.context.tolerances direction entries).map
      Prod.snd).or range = some length)
    {row : ℕ} (hblocking : (primalRatioTest? solver.context.tolerances direction entries).map
      Prod.fst = some row) :
  solver.LeavesAtBound row (direction * length)
  := by
  obtain ⟨entry, hentry, rfl, hreach⟩ := exists_of_primalRatioTest? hprimal hlength hblocking
  obtain ⟨hne, hle, hread, halpha⟩ := mem_pivotEntries? h.iterate.sized hentries hentry
  have hreached := Bounds.reach?_spec (hfeasible _ _ hne hle hread) hreach
  have hmoved : entry.row.value - length * (direction * entry.alpha)
      = entry.row.value - direction * length * entry.alpha := by
    ring
  let i : Fin (solver.model.nrRows + 1) := ⟨entry.row.position, Nat.lt_succ_of_le hle⟩
  have hcolumn := DenseVector.getElem?_eq_entries h.iterate.sized.pivotColumn i
  have hcolumn := Option.some_inj.mp (halpha.symm.trans hcolumn)
  rw [hmoved, hcolumn] at hreached
  apply leavesAtBound_of_row? h.iterate.sized (i := i) hread hreached

end Entering

variable {outcome : Outcome (Solver (ProductForm F) F) (Except Error StepResult)}

/-- Letting a candidate enter from a feasible basis. -/
theorem Exact.enter? (h : solver.Exact) (hcontext : solver.context.ExactSolve)
    (hloaded : solver.iterate.Loaded solver.model solver.factorization candidate.index)
    (hfeasible : solver.RowsContained) (himproves : solver.Improves candidate)
    (henter : solver.enter? candidate = some outcome) :
  solver.Advances outcome.state ∧ outcome.result ≠ .ok (.done .optimal)
    ∧ outcome.result ≠ .ok (.done .infeasible)
  := by
  obtain ⟨side, hside, himproving⟩ := himproves.direction
  obtain ⟨hdirection, hunit⟩ := Candidate.improvingDirection?_spec himproving
  obtain ⟨entries, bounds, hentries, hbounds, ⟨rfl, -⟩ | ⟨length, pivoted, hlength, hpivoted,
    hcases⟩⟩ := enter?_cases henter
  · exact ⟨h.advances, by simp [conclude], by simp [conclude]⟩
  · have hadvances := h.pivot? hcontext.primal hloaded
      (flipsWithin_of_primalRatioTest? hcontext.primal hbounds hside hdirection hunit hlength)
      (fun row hrow _ => h.leavesAtBound_of_primalRatioTest? hcontext.primal hfeasible hentries
        hlength hrow)
      hpivoted
    rcases hcases with ⟨kind, n, -, hresult, hstate, -⟩ | ⟨e, -, hresult, hstate⟩
    · rw [hresult, hstate]
      exact ⟨hadvances.with_counters _, by simp, by simp⟩
    · rw [hresult, hstate]
      exact ⟨hadvances, by simp, by simp⟩

/-- A primal step from a feasible basis. -/
theorem Exact.primalStep? (h : solver.Exact) (hcontext : solver.context.ExactSolve)
    (hfeasible : solver.RowsContained) (hstep : solver.primalStep? = some outcome) :
  solver.Advances outcome.state
    ∧ (outcome.result = .ok (.done .optimal) → outcome.state = solver ∧ solver.PricedOut)
    ∧ outcome.result ≠ .ok (.done .infeasible)
  := by
  rcases primalStep?_cases h.iterate.toRepresented hcontext.drop hstep with
    ⟨rfl, hpriced⟩ | ⟨candidate, loaded, hloadedFor, himproves, henter⟩
  · exact ⟨h.advances, fun _ => ⟨rfl, hpriced⟩, by simp [conclude]⟩
  · have hadvances := hloadedFor.advances h
    obtain ⟨pivotColumn, rfl, -, hloaded⟩ := hloadedFor
    obtain ⟨hlast, hoptimal, hinfeasible⟩ :=
      hadvances.exact.enter? hcontext hloaded hfeasible himproves henter
    exact ⟨hadvances.trans hlast, fun hresult => absurd hresult hoptimal, hinfeasible⟩

/-! ### Dual steps -/

/-- A row violates a bound, and the dual ratio test finds no variable to enter for it. -/
def Stuck (solver : Solver (ProductForm F) F) : Prop :=
  ∃ i row side bound entries, solver.Leaves i row side bound entries
    ∧ dualRatioTest? solver.context.tolerances
      (row.bounds.lower.any fun l => row.value < l) entries = none

/-- A dual step from a basis with violations. -/
theorem Exact.dualStep? (h : solver.Exact) (hcontext : solver.context.ExactSolve)
    (hcomplete : solver.pricing.Complete)
    (hviolations : solver.iterate.violations? solver.context.tolerances solver.model ≠ some [])
    (hstep : solver.dualStep? = some outcome) :
  solver.Advances outcome.state ∧ outcome.result ≠ .ok (.done .optimal)
    ∧ (outcome.result = .ok (.done .infeasible) → outcome.state = solver ∧ solver.Stuck)
  := by
  rcases dualStep?_cases h.iterate.toRepresented hcontext.drop hstep with
    ⟨violations, hread, hnone, -⟩ | ⟨i, row, side, bound, entries, hleaves, hcases⟩
  · exfalso
    apply hviolations
    rw [hread, hcomplete.leaving violations hnone]
  rcases hcases with ⟨rfl, hnone⟩
    | ⟨entering, entry, hentry, loaded, pivoted, -, heligible, hloadedFor, hpivoted, hresult,
      hstate⟩
  · exact ⟨h.advances, by simp [conclude],
      fun _ => ⟨rfl, i, row, side, bound, entries, hleaves, hnone⟩⟩
  · obtain ⟨hmoved, hbound, -⟩ :=
      dualStepLength_spec hcontext.primal.ge hleaves.violated heligible
    have hadvances := hloadedFor.advances h
    obtain ⟨pivotColumn, rfl, hrepresented, hloaded⟩ := hloadedFor
    have halpha : pivotColumn.entries (solver.model.nrRows + 1) i = entry.alpha := by
      rw [hleaves.pivotRow.alpha entry hentry]
      apply congrFun hloaded.column i
    have hlast := hadvances.exact.pivot? hcontext.primal hloaded (fun hflip => by cases hflip)
      (fun r hr _ => by
        cases hr
        apply leavesAtBound_of_row? hrepresented.sized hleaves.row_eq
        rw [halpha, hmoved]
        cases side with
        | lower => exact Or.inl hbound
        | upper => exact Or.inr hbound)
      hpivoted
    rw [hresult, hstate]
    refine ⟨hadvances.trans hlast, ?_, ?_⟩
    · cases pivoted.result <;> simp [Except.map]
    · cases pivoted.result <;> simp [Except.map]

/-- A step. -/
theorem Exact.step? (h : solver.Exact) (hcontext : solver.context.ExactSolve)
    (hcomplete : solver.pricing.Complete) (hstep : solver.step? = some outcome) :
  solver.Advances outcome.state
    ∧ (outcome.result = .ok (.done .optimal) →
      outcome.state = solver ∧ solver.RowsContained ∧ solver.PricedOut)
    ∧ (outcome.result = .ok (.done .infeasible) → outcome.state = solver ∧ solver.Stuck)
  := by
  unfold Solver.step? at hstep
  obtain ⟨feasible, hfeasible, hstep⟩ := Option.bind_eq_some_iff.mp hstep
  cases feasible with
  | true =>
      have hcontained : solver.RowsContained := fun position row hne hle hrow =>
        (Iterate.isFeasible?_eq_true_iff_contains hcontext.primal h.iterate.sized).mp hfeasible
          position row hne hle hrow
      obtain ⟨hadvances, hoptimal, hinfeasible⟩ := h.primalStep? hcontext hcontained hstep
      refine ⟨hadvances, ?_, fun hresult => absurd hresult hinfeasible⟩
      intro hresult
      obtain ⟨hstate, hpriced⟩ := hoptimal hresult
      exact ⟨hstate, hcontained, hpriced⟩
  | false =>
      obtain ⟨hadvances, hoptimal, hinfeasible⟩ := h.dualStep? hcontext hcomplete
        (Iterate.violations?_ne_nil hcontext.primal.ge hfeasible) hstep
      exact ⟨hadvances, fun hresult => absurd hresult hoptimal, hinfeasible⟩

end Solver

end RevisedSimplex
