import RevisedSimplex.Proofs.Edges
import RevisedSimplex.Proofs.SolverShape

/-!
# Pivots of a solver in exact numbers

A solver is `Exact` when its iterate is exact for its factorization and current.  `Advances` says
that a solver comes from another one by changes of the iterate, the factorization and the counters
alone, and is exact.

A pivot advances: a bound flip that moves the entering variable to its other bound, an exchange
after which the leaving variable is at one of its bounds, and a pivot that is refused.
-/

open Matrix

namespace RevisedSimplex

/-- The conditions under which a solve is free of rounding and of pivots that are zero. -/
structure Context.ExactSolve {F : Type} [ExactScalar F] (context : Context F) : Prop
    extends Context.Exact context where
  primal : context.tolerances.primal = 0
  pivot : 0 < context.tolerances.pivot

namespace Solver

variable {F : Type} [ExactScalar F] {solver loaded middle after : Solver (ProductForm F) F}

/-- The iterate is exact for the factorization, and current. -/
structure Exact (solver : Solver (ProductForm F) F) : Prop where
  iterate : solver.iterate.Exact solver.model solver.factorization
  current : solver.iterate.current = true

/-- An exact solver that differs from another one in iterate, factorization and counters alone. -/
def Advances (solver after : Solver (ProductForm F) F) : Prop :=
  ∃ iterate factorization counters,
    after = { solver with iterate, factorization, counters } ∧ after.Exact

/-! ### Advancing -/

theorem Exact.advances (h : solver.Exact) :
  solver.Advances solver
  := ⟨_, _, _, rfl, h⟩

theorem Advances.trans (h : solver.Advances middle) (h' : middle.Advances after) :
  solver.Advances after
  := by
  obtain ⟨iterate, factorization, counters, rfl, -⟩ := h
  obtain ⟨iterate', factorization', counters', rfl, hexact⟩ := h'
  exact ⟨iterate', factorization', counters', rfl, hexact⟩

theorem Advances.exact (h : solver.Advances after) :
  after.Exact
  := by
  obtain ⟨-, -, -, -, hexact⟩ := h
  apply hexact

/-- Counters do not matter. -/
theorem Advances.with_counters (h : solver.Advances after) (counters : SolverCounters) :
  solver.Advances { after with counters }
  := by
  obtain ⟨iterate, factorization, _, rfl, hexact⟩ := h
  exact ⟨iterate, factorization, counters, rfl, hexact.iterate, hexact.current⟩

/-! ### Pivots -/

/-- A step that takes the entering variable at least as far as its other bound, away from the side
it rests at. -/
def FlipsWithin (solver : Solver (ProductForm F) F) (entering : ℕ) (theta : F) : Prop :=
  ∀ bounds range, solver.model.bounds? entering = some bounds → bounds.range? = some range →
    ∃ side length, solver.iterate.restingSide? solver.model entering = some (some side)
      ∧ theta = side.direction * length ∧ range ≤ length

/-- A step after which the variable of the row is at one of its bounds. -/
def LeavesAtBound (solver : Solver (ProductForm F) F) (row : ℕ) (theta : F) : Prop :=
  ∀ i : Fin (solver.model.nrRows + 1), i.val = row →
    ∃ leaving bounds, solver.iterate.basis.variableAt? row = some leaving
      ∧ solver.model.bounds? leaving = some bounds
      ∧ (bounds.lower = some (solver.iterate.values.entries (solver.model.nrRows + 1) i
            - theta * solver.iterate.pivotColumn.entries (solver.model.nrRows + 1) i)
        ∨ bounds.upper = some (solver.iterate.values.entries (solver.model.nrRows + 1) i
            - theta * solver.iterate.pivotColumn.entries (solver.model.nrRows + 1) i))

variable {entering : ℕ} {theta : F} {primal : Bool}
  {pivoted : Outcome (Solver (ProductForm F) F) (Except Error IterationKind)}

/-- A form with the same columns inverts the same. -/
theorem represented_of_columns_eq {factorization : ProductForm F}
    (h : solver.iterate.Represented solver.model solver.factorization)
    (hsize : factorization.nrRows = solver.factorization.nrRows)
    (hcolumns : factorization.file.columns = solver.factorization.file.columns) :
  solver.iterate.Represented solver.model factorization
  := by
  have hinverse := h.inverse
  have hmatrix (n : ℕ) : factorization.file.matrix n = solver.factorization.file.matrix n := by
    unfold EtaFile.matrix
    rw [hcolumns]
  have hfits (n : ℕ) (hold : solver.factorization.file.Fits n) : factorization.file.Fits n := by
    unfold EtaFile.Fits
    rw [hcolumns]
    apply hold
  refine ⟨h.sized, ?_, hfits _ hinverse.fits, ?_⟩
  · rw [hsize, hinverse.size]
  · intro i
    rw [hmatrix]
    apply hinverse.mulVec i

theorem Exact.with_factorization (h : solver.Exact) (factorization : ProductForm F)
    (hsize : factorization.nrRows = solver.factorization.nrRows)
    (hcolumns : factorization.file.columns = solver.factorization.file.columns) :
  Exact { solver with factorization }
  := by
  have hrepresented := represented_of_columns_eq h.iterate.toRepresented hsize hcolumns
  exact ⟨⟨hrepresented, h.iterate.solves⟩, h.current⟩

/-- What a pivot in a basis that the factorization represents comes to.  A refusal leaves everything
but the factorization as it is, and after an iteration the factorization represents the basis. -/
theorem represented_of_pivot? {leavingRow : Option ℕ}
    (h : solver.iterate.Represented solver.model solver.factorization)
    (hloaded : solver.iterate.Loaded solver.model solver.factorization entering)
    (hpivoted : solver.pivot? leavingRow entering theta primal = some pivoted) :
  (∃ e factorization, pivoted.result = .error e ∧ pivoted.state = { solver with factorization }
      ∧ solver.iterate.Represented solver.model factorization)
    ∨ (∃ bounds range after counters, solver.model.bounds? entering = some bounds
      ∧ bounds.range? = some range
      ∧ Iterate.isBoundFlip? solver.context.tolerances solver.model leavingRow entering theta primal
        = some true
      ∧ solver.iterate.Flipped solver.model entering (if theta < 0 then -range else range) after
      ∧ after.Represented solver.model solver.factorization
      ∧ pivoted.result = .ok .boundFlip
      ∧ pivoted.state = { solver with iterate := after, counters })
    ∨ ∃ row leaving bounds after factorization counters, leavingRow = some row
      ∧ Iterate.isBoundFlip? solver.context.tolerances solver.model leavingRow entering theta primal
        = some false
      ∧ solver.iterate.Exchanged solver.context.tolerances solver.model row entering theta leaving
        bounds after
      ∧ after.Represented solver.model factorization
      ∧ pivoted.result = .ok .majorPivot
      ∧ pivoted.state = { solver with iterate := after, factorization, counters }
  := by
  obtain ⟨staged, hstaged, hcases⟩ := pivot?_cases hpivoted
  rcases hcases with ⟨e, herror, -, hstate⟩
    | ⟨bounds, range, after, hbounds, hrange, hafter, hflip, hresult, hstate⟩
    | ⟨row, prepared, pivot, finished, after, hrow, hflip, hprepared, hok, -, hfinished, -, hafter,
      hresult, hstate⟩
  · refine Or.inl ⟨e, staged.state, herror, hstate, ?_⟩
    rcases stage?_cases hstaged with ⟨-, hsame, -⟩ | ⟨row, prepared, -, -, hprepared, hsame, -⟩
    · rw [hsame]
      apply h
    · rw [hsame]
      have hkeeps : prepared.state.nrRows = solver.factorization.nrRows
          ∧ prepared.state.file.columns = solver.factorization.file.columns := by
        obtain ⟨_, staged, -, -, -, -, -, -, -, ⟨-, -, hform⟩ | ⟨-, hform⟩⟩ :=
          ProductForm.prepareUpdate?_eq h.inverse.size hprepared
        · rw [hform]
          exact ⟨rfl, EtaFile.columns_stage _ staged⟩
        · rw [hform]
          exact ⟨rfl, EtaFile.columns_discardStaged _⟩
      apply represented_of_columns_eq h hkeeps.1 hkeeps.2
  · rw [Bounds.finiteRange?_eq] at hrange
    have hflipped := h.sized.flipped hafter
    exact Or.inr (Or.inl ⟨bounds, range, after, _, hbounds, hrange, hflip, hflipped,
      hflipped.represented h, hresult, hstate⟩)
  · obtain ⟨hlater, leaving, bounds, hexchanged⟩ :=
      h.exchanged hloaded hprepared hok hfinished hafter
    exact Or.inr (Or.inr ⟨row, leaving, bounds, after, _, _, hrow, hflip, hexchanged, hlater,
      hresult, hstate⟩)

/-- A pivot advances, whether it is carried out or refused. -/
theorem Exact.pivot? (h : solver.Exact) (hprimal : solver.context.tolerances.primal = 0)
    {leavingRow : Option ℕ}
    (hloaded : solver.iterate.Loaded solver.model solver.factorization entering)
    (hflips : Iterate.isBoundFlip? solver.context.tolerances solver.model leavingRow entering theta
      primal = some true → solver.FlipsWithin entering theta)
    (hleaves : ∀ row, leavingRow = some row →
      Iterate.isBoundFlip? solver.context.tolerances solver.model leavingRow entering theta
        primal = some false → solver.LeavesAtBound row theta)
    (hpivoted : solver.pivot? leavingRow entering theta primal = some pivoted) :
  solver.Advances pivoted.state
  := by
  rcases represented_of_pivot? h.iterate.toRepresented hloaded hpivoted with
    ⟨e, factorization, -, hstate, hrepresented⟩
    | ⟨bounds, range, after, _, hbounds, hrange, hflip, hflipped, -, -, hstate⟩
    | ⟨row, leaving, bounds, after, _, _, hrow, hflip, hexchanged, hlater, -, hstate⟩
  · rw [hstate]
    exact ⟨_, factorization, _, rfl, ⟨hrepresented, h.iterate.solves⟩, h.current⟩
  · obtain ⟨side, length, hside, htheta, hlength⟩ := hflips hflip bounds range hbounds hrange
    have hstep := Iterate.step_eq_direction_mul (Side.abs_direction side)
      (Bounds.range_nonneg hrange) htheta hlength
    rw [hstate]
    exact ⟨after, _, _, rfl, hflipped.exact h.iterate hloaded hbounds hrange hside hstep,
      hflipped.current.trans h.current⟩
  · rw [hstate]
    refine ⟨after, _, _, rfl, ?_, hexchanged.current.trans h.current⟩
    apply hexchanged.exact h.iterate hloaded hlater
    rw [hprimal]
    apply Bounds.at?_closestSide
    obtain ⟨i, hi⟩ : ∃ i : Fin (solver.model.nrRows + 1), i.val = row := by
      use ⟨row, h.iterate.sized.lt_of_variableAt? hexchanged.leaves⟩
    obtain ⟨other, limits, hother, hlimits, hbound⟩ := hleaves row hrow hflip i hi
    have hsame := Option.some_inj.mp (hexchanged.leaves.symm.trans hother)
    subst hsame
    have hlimits := Option.some_inj.mp (hexchanged.bounds_eq.symm.trans hlimits)
    subst hlimits
    subst hi
    rw [Iterate.alongEdge_of_variableAt? hexchanged.leaves,
      Iterate.point_of_variableAt? hexchanged.leaves]
    apply hbound

end Solver

end RevisedSimplex
