import RevisedSimplex.Solver.Run
import RevisedSimplex.Proofs.AdjointSolves

/-!
# Steps and turns of a solver in any numbers

A solver is `Shaped` when its data have the size of the model.  Every operation of a solve keeps
the shape, together with the model, the settings, the context and the pricing rule: this is what
`Follows` says.

`step?_cases` and `turn?_cases` say once what a step and a turn can come to.  A step concludes a
status without changing more than the pivot column, or it pivots; a turn takes a step unless a
singular column ends the solve.
-/

namespace RevisedSimplex

/-- The iteration of a step, if it was carried out. -/
def iterated? : Except Error StepResult → Option IterationKind
  | .ok (.iterated kind) => some kind
  | _ => none

theorem iterated?_eq_some_iff {result : Except Error StepResult} {kind : IterationKind} :
  iterated? result = some kind ↔ result = .ok (.iterated kind)
  := by
  unfold iterated?
  split <;> simp_all

variable {F : Type} [Scalar F]

/-! ### Product forms -/

/-- Solving with a form never fails for vectors of its size. -/
theorem ProductForm.Shaped.exists_ftran? {form : ProductForm F} (h : form.Shaped)
    (context : Context F) {vector : DenseVector F} (hv : vector.length = form.nrRows + 1) :
  ∃ solved, form.ftran? context vector = some solved ∧ solved.length = form.nrRows + 1
  := by
  obtain ⟨solved, hsolved, hlength⟩ := h.fits.exists_applyRight? hv
  refine ⟨rounded context solved, ?_, ?_⟩
  · unfold ftran?
    rw [if_pos hv, hsolved]
    rfl
  · rw [← hlength]
    apply DenseVector.length_roundRelative

/-- Solving with a form from the left never fails for vectors of its size. -/
theorem ProductForm.Shaped.exists_btran? {form : ProductForm F} (h : form.Shaped)
    (context : Context F) {vector : DenseVector F} (hv : vector.length = form.nrRows + 1) :
  ∃ solved, form.btran? context vector = some solved ∧ solved.length = form.nrRows + 1
  := by
  obtain ⟨solved, hsolved, hlength⟩ := h.fits.exists_applyLeft? hv
  refine ⟨rounded context solved, ?_, ?_⟩
  · unfold btran?
    rw [if_pos hv, hsolved]
    rfl
  · rw [← hlength]
    apply DenseVector.length_roundRelative

/-- Nor does it for two vectors at once. -/
theorem ProductForm.Shaped.exists_btranDouble? {form : ProductForm F} (h : form.Shaped)
    (context : Context F) {first second : DenseVector F}
    (hfirst : first.length = form.nrRows + 1) (hsecond : second.length = form.nrRows + 1) :
  ∃ a b, form.btranDouble? context first second = some (a, b) ∧ a.length = form.nrRows + 1
    ∧ b.length = form.nrRows + 1
  := by
  obtain ⟨a, ha, hlength⟩ := h.fits.exists_applyLeft? hfirst
  obtain ⟨b, hb, hlast⟩ := h.fits.exists_applyLeft? hsecond
  obtain ⟨c, d, hsolved, hc, hd⟩ := EtaFile.exists_applyLeftDouble? ha hb
  refine ⟨rounded context c, rounded context d, ?_, ?_, ?_⟩
  · unfold btranDouble?
    rw [if_pos ⟨hfirst, hsecond⟩, hsolved]
    rfl
  · rw [← hlength, hc]
    apply DenseVector.length_roundRelative
  · rw [← hlast, hd]
    apply DenseVector.length_roundRelative

/-- A solved vector has the size of the form. -/
theorem ProductForm.Shaped.length_ftran? {form : ProductForm F} (h : form.Shaped)
    {context : Context F} {vector solved : DenseVector F}
    (hsolved : form.ftran? context vector = some solved) :
  solved.length = form.nrRows + 1
  := by
  have hv : vector.length = form.nrRows + 1 := by
    unfold ftran? at hsolved
    split at hsolved
    · rename_i hv
      apply hv
    · cases hsolved
  obtain ⟨other, hother, hlength⟩ := h.exists_ftran? context hv
  rw [hsolved, Option.some_inj] at hother
  rw [hother, hlength]

namespace Solver

variable {solver loaded middle after : Solver (ProductForm F) F}

/-- The data have the size of the model. -/
structure Shaped (solver : Solver (ProductForm F) F) : Prop where
  sized : solver.iterate.Sized solver.model
  nrRows : solver.factorization.nrRows = solver.model.nrRows
  form : solver.factorization.Shaped

/-- A shaped solver that differs from another one in iterate, factorization and counters alone. -/
def Follows (solver after : Solver (ProductForm F) F) : Prop :=
  ∃ iterate factorization counters,
    after = { solver with iterate, factorization, counters } ∧ after.Shaped

/-- A solver that differs from another one in the pivot column alone. -/
def Loads (solver loaded : Solver (ProductForm F) F) : Prop :=
  ∃ pivotColumn : DenseVector F, pivotColumn.length = solver.iterate.pivotColumn.length
    ∧ loaded = { solver with iterate := { solver.iterate with pivotColumn } }

theorem Shaped.follows (h : solver.Shaped) :
  solver.Follows solver
  := ⟨_, _, _, rfl, h⟩

theorem Follows.shaped (h : solver.Follows after) :
  after.Shaped
  := by
  obtain ⟨-, -, -, -, hshaped⟩ := h
  apply hshaped

theorem Follows.context_eq (h : solver.Follows after) :
  after.context = solver.context
  := by
  obtain ⟨_, _, _, rfl, -⟩ := h
  rfl

theorem Follows.settings_eq (h : solver.Follows after) :
  after.settings = solver.settings
  := by
  obtain ⟨_, _, _, rfl, -⟩ := h
  rfl

theorem Follows.trans (h : solver.Follows middle) (h' : middle.Follows after) :
  solver.Follows after
  := by
  obtain ⟨_, _, _, rfl, -⟩ := h
  obtain ⟨_, _, _, rfl, hshaped⟩ := h'
  exact ⟨_, _, _, rfl, hshaped⟩

/-- Counters do not matter for the shape. -/
theorem Follows.with_counters (h : solver.Follows after) (counters : SolverCounters) :
  solver.Follows { after with counters }
  := by
  obtain ⟨_, _, _, rfl, hshaped⟩ := h
  exact ⟨_, _, counters, rfl, hshaped.sized, hshaped.nrRows, hshaped.form⟩

theorem Loads.refl (solver : Solver (ProductForm F) F) :
  solver.Loads solver
  := ⟨_, rfl, rfl⟩

theorem Loads.trans (h : solver.Loads middle) (h' : middle.Loads after) :
  solver.Loads after
  := by
  obtain ⟨_, hlength, rfl⟩ := h
  obtain ⟨pivotColumn, hlast, rfl⟩ := h'
  exact ⟨pivotColumn, hlast.trans hlength, rfl⟩

theorem Loads.shaped (h : solver.Loads loaded) (hshaped : solver.Shaped) :
  loaded.Shaped
  := by
  obtain ⟨_, hlength, rfl⟩ := h
  have hsized := hshaped.sized
  exact ⟨⟨hsized.nrRows, hsized.nrVariables, hsized.values, hlength.trans hsized.pivotColumn⟩,
    hshaped.nrRows, hshaped.form⟩

theorem Loads.follows (h : solver.Loads loaded) (hshaped : solver.Shaped) :
  solver.Follows loaded
  := by
  have hloaded := h.shaped hshaped
  obtain ⟨_, -, rfl⟩ := h
  exact ⟨_, _, _, rfl, hloaded⟩

/-! ### Pivots -/

section Pivots

variable {leavingRow : Option ℕ} {entering : ℕ} {theta : F} {primal : Bool}

/-- What staging comes to: nothing for a bound flip, and an update that is accepted or refused for an
exchange. -/
theorem stage?_cases {staged : Outcome (ProductForm F) (Option Error)}
    (h : solver.stage? leavingRow entering theta primal = some staged) :
  (staged.result = none ∧ staged.state = solver.factorization
      ∧ Iterate.isBoundFlip? solver.context.tolerances solver.model leavingRow entering theta primal
        = some true)
    ∨ ∃ row prepared, leavingRow = some row
      ∧ Iterate.isBoundFlip? solver.context.tolerances solver.model leavingRow entering theta primal
        = some false
      ∧ solver.factorization.prepareUpdate? solver.context row entering solver.iterate.pivotColumn
        = some prepared
      ∧ staged.state = prepared.state
      ∧ ((∃ pivot, prepared.result = .ok pivot ∧ staged.result = none)
        ∨ ∃ e, prepared.result = .error e ∧ staged.result = some e)
  := by
  unfold Solver.stage? at h
  obtain ⟨flips, hflips, h⟩ := Option.bind_eq_some_iff.mp h
  cases leavingRow with
  | none =>
      cases h
      exact Or.inl ⟨rfl, rfl, rfl⟩
  | some row =>
      cases flips with
      | true =>
          cases h
          exact Or.inl ⟨rfl, rfl, hflips⟩
      | false =>
          simp only [Bool.false_eq_true, if_false] at h
          obtain ⟨prepared, hprepared, h⟩ := Option.bind_eq_some_iff.mp h
          cases h
          refine Or.inr ⟨row, prepared, rfl, hflips, hprepared, rfl, ?_⟩
          cases prepared.result with
          | ok pivot => exact Or.inl ⟨pivot, rfl, rfl⟩
          | error e => exact Or.inr ⟨e, rfl, rfl⟩

/-- Staging an exchange keeps the shape. -/
theorem Shaped.stage? (h : solver.Shaped) {staged : Outcome (ProductForm F) (Option Error)}
    (hstaged : solver.stage? leavingRow entering theta primal = some staged) :
  Shaped { solver with factorization := staged.state }
  := by
  rcases stage?_cases hstaged with ⟨-, hstate, -⟩ | ⟨row, prepared, -, -, hprepared, hstate, -⟩
  · rw [hstate]
    apply h
  · rw [hstate]
    refine ⟨h.sized, ?_, h.form.prepareUpdate? hprepared⟩
    rw [← h.nrRows]
    obtain ⟨-, _, -, ⟨-, -, hprepared⟩ | ⟨-, -, hprepared⟩⟩ :=
      ProductForm.prepareUpdate?_spec hprepared
    · change prepared.state.nrRows = _
      rw [hprepared]
    · change prepared.state.nrRows = _
      rw [hprepared]

/-- What a pivot comes to: a refusal that changes the factorization alone, a bound flip over a finite
range, or an exchange for the staged column. -/
theorem pivot?_cases
    {pivoted : Outcome (Solver (ProductForm F) F) (Except Error IterationKind)}
    (h : solver.pivot? leavingRow entering theta primal = some pivoted) :
  ∃ staged, solver.stage? leavingRow entering theta primal = some staged
    ∧ ((∃ e, pivoted.result = .error e
          ∧ (staged.result = some e ∨ e = .unboundedFlip entering ∨ e = .noStagedColumn)
          ∧ pivoted.state = { solver with factorization := staged.state })
      ∨ (∃ bounds range after, solver.model.bounds? entering = some bounds
          ∧ bounds.finiteRange? = some range
          ∧ solver.iterate.flip? entering theta range = some after
          ∧ Iterate.isBoundFlip? solver.context.tolerances solver.model leavingRow entering theta
            primal = some true
          ∧ pivoted.result = .ok .boundFlip
          ∧ pivoted.state =
            { solver with
              iterate := after
              factorization := solver.factorization
              counters := countIteration primal solver.counters })
      ∨ ∃ row prepared pivot finished after, leavingRow = some row
          ∧ Iterate.isBoundFlip? solver.context.tolerances solver.model leavingRow entering theta
            primal = some false
          ∧ solver.factorization.prepareUpdate? solver.context row entering
            solver.iterate.pivotColumn = some prepared
          ∧ prepared.result = .ok pivot ∧ staged.state = prepared.state
          ∧ prepared.state.finishUpdate? false = some finished ∧ finished.result = true
          ∧ solver.iterate.exchange? solver.context.tolerances solver.model row entering theta
            = some after
          ∧ pivoted.result = .ok .majorPivot
          ∧ pivoted.state =
            { solver with
              iterate := after
              factorization := finished.state
              counters := countIteration primal solver.counters })
  := by
  unfold Solver.pivot? at h
  obtain ⟨staged, hstaged, h⟩ := Option.bind_eq_some_iff.mp h
  refine ⟨staged, hstaged, ?_⟩
  rcases stage?_cases hstaged with ⟨hresult, hstate, hflip⟩
    | ⟨row, prepared, hrow, hflip, hprepared, hstate, ⟨pivot, hok, hresult⟩ | ⟨e, -, hresult⟩⟩
  · rw [hresult, hstate] at h
    obtain ⟨⟨result, state, events⟩, hperformed, h⟩ := Option.bind_eq_some_iff.mp h
    cases h
    rcases Iterate.perform?_cases hperformed with
      ⟨-, bounds, hbounds, ⟨range, after, hrange, hafter, hkind, hafterState⟩
        | ⟨-, hkind, hafterState⟩⟩ | ⟨hnot, -⟩
    · cases hkind
      cases hafterState
      exact Or.inr (Or.inl ⟨bounds, range, after, hbounds, hrange, hafter, hflip, rfl, rfl⟩)
    · cases hkind
      cases hafterState
      exact Or.inl ⟨_, rfl, Or.inr (Or.inl rfl), by rw [hstate]⟩
    · rw [hflip] at hnot
      cases hnot
  · rw [hresult, hstate] at h
    obtain ⟨⟨result, state, events⟩, hperformed, h⟩ := Option.bind_eq_some_iff.mp h
    cases h
    rcases Iterate.perform?_cases hperformed with
      ⟨hnot, -⟩ | ⟨-, other, finished, hother, hfinished,
        ⟨hdone, after, hafter, hkind, hafterState⟩ | ⟨hdone, hkind, hafterState⟩⟩
    · rw [hflip] at hnot
      cases hnot
    · cases hkind
      cases hafterState
      rw [hrow, Option.some_inj] at hother
      subst hother
      exact Or.inr (Or.inr ⟨row, prepared, pivot, finished, after, hrow, hflip, hprepared, hok,
        hstate, hfinished, hdone, hafter, rfl, rfl⟩)
    · obtain ⟨-, hform⟩ := ProductForm.finishUpdate?_of_result_false hfinished hdone
      cases hkind
      cases hafterState
      refine Or.inl ⟨_, rfl, Or.inr (Or.inr rfl), ?_⟩
      dsimp only
      rw [hform, hstate]
  · rw [hresult] at h
    cases h
    exact Or.inl ⟨e, rfl, Or.inl hresult, rfl⟩

end Pivots

/-- A pivot counts one iteration if it is carried out, and changes neither iterate nor counters
if it is refused. -/
theorem Shaped.pivot? (h : solver.Shaped) {leavingRow : Option ℕ} {entering : ℕ} {theta : F}
    {primal : Bool} {pivoted : Outcome (Solver (ProductForm F) F) (Except Error IterationKind)}
    (hpivoted : solver.pivot? leavingRow entering theta primal = some pivoted) :
  solver.Follows pivoted.state
    ∧ ((∃ kind, pivoted.result = .ok kind
        ∧ pivoted.state.iterate.nrIterations = solver.iterate.nrIterations + 1
        ∧ pivoted.state.counters = countIteration primal solver.counters)
      ∨ ((∃ e, pivoted.result = .error e) ∧ pivoted.state.iterate = solver.iterate
        ∧ pivoted.state.counters = solver.counters))
  := by
  obtain ⟨staged, hstaged, hcases⟩ := pivot?_cases hpivoted
  have hshaped := h.stage? hstaged
  obtain ⟨result, state, events⟩ := pivoted
  dsimp only at hcases ⊢
  rcases hcases with ⟨e, rfl, -, rfl⟩ | ⟨_, _, after, -, -, hafter, -, rfl, rfl⟩
    | ⟨row, prepared, _, finished, after, -, -, -, -, hstate, hfinished, -, hafter, rfl, rfl⟩
  · exact ⟨⟨_, _, _, rfl, hshaped⟩, Or.inr ⟨⟨e, rfl⟩, rfl, rfl⟩⟩
  · obtain ⟨hsized, basis, values, rfl⟩ := h.sized.flip? hafter
    refine ⟨⟨_, _, _, rfl, hsized, h.nrRows, h.form⟩, Or.inl ⟨_, rfl, ?_, rfl⟩⟩
    apply (Nat.add_assoc _ _ _).symm
  · obtain ⟨hsized, basis, values, rfl⟩ := h.sized.exchange? hafter
    rw [hstate] at hshaped
    have hform := hshaped.form.finishUpdate? hfinished
    have hrows : finished.state.nrRows = solver.model.nrRows := by
      rw [← hshaped.nrRows]
      rcases ProductForm.finishUpdate?_spec hfinished with ⟨-, -, hform⟩ | ⟨_, _, -, -, -, hform⟩
      · rw [hform]
      · rw [hform]
        rfl
    refine ⟨⟨_, _, _, rfl, hsized, hrows, hform⟩, Or.inl ⟨_, rfl, ?_, rfl⟩⟩
    apply Nat.add_right_comm

/-! ### Steps -/

variable {candidate : Candidate F}
  {outcome : Outcome (Solver (ProductForm F) F) (Except Error StepResult)}

/-- A step that ends with a pivot.  A dual pivot has a leaving row, and a major primal one may be
counted as degenerate. -/
def Pivots (solver : Solver (ProductForm F) F)
    (outcome : Outcome (Solver (ProductForm F) F) (Except Error StepResult)) : Prop :=
  ∃ loaded leavingRow entering theta primal pivoted degeneratePivots, solver.Loads loaded
    ∧ loaded.pivot? leavingRow entering theta primal = some pivoted
    ∧ outcome.result = pivoted.result.map StepResult.iterated
    ∧ outcome.state =
      { pivoted.state with counters := { pivoted.state.counters with degeneratePivots } }
    ∧ (primal = false → leavingRow ≠ none)
    ∧ (degeneratePivots = pivoted.state.counters.degeneratePivots
      ∨ primal = true ∧ pivoted.result = .ok .majorPivot
        ∧ degeneratePivots = pivoted.state.counters.degeneratePivots + 1)

/-- Only major pivots are counted as degenerate. -/
theorem countDegenerate_eq (kind : IterationKind) (step : Option F)
    (solver : Solver (ProductForm F) F) :
  ∃ degeneratePivots, countDegenerate kind step solver
      = { solver with counters := { solver.counters with degeneratePivots } }
    ∧ (degeneratePivots = solver.counters.degeneratePivots
      ∨ kind = .majorPivot ∧ degeneratePivots = solver.counters.degeneratePivots + 1)
  := by
  unfold countDegenerate
  dsimp only
  split
  · rename_i hcounted
    exact ⟨_, rfl, Or.inr ⟨hcounted.1, rfl⟩⟩
  · exact ⟨_, rfl, Or.inl rfl⟩

/-- The solved column has the size of the one that it replaces. -/
theorem Shaped.loadColumn? (h : solver.Shaped) {entering : ℕ} {iterate : Iterate F}
    (hload : solver.iterate.loadColumn? solver.context solver.model solver.factorization entering
      = some iterate) :
  solver.Loads { solver with iterate }
  := by
  obtain ⟨-, _, _, pivotColumn, -, -, hsolved, rfl⟩ := Iterate.loadColumn?_spec hload
  refine ⟨pivotColumn, ?_, rfl⟩
  rw [h.form.length_ftran? hsolved, h.sized.pivotColumn, h.nrRows]

/-- A candidate is looked at with its column as the pivot column. -/
theorem consider?_spec {degenerate : Bool}
    (h : solver.consider? candidate = some (loaded, degenerate)) :
  ∃ iterate, solver.iterate.loadColumn? solver.context solver.model solver.factorization
      candidate.index = some iterate
    ∧ iterate.isDegenerate? solver.context.tolerances solver.model iterate.pivotColumn
      candidate.direction = some degenerate
    ∧ loaded = { solver with iterate }
  := by
  unfold Solver.consider? at h
  obtain ⟨iterate, hload, h⟩ := Option.bind_eq_some_iff.mp h
  obtain ⟨_, hdegenerate, h⟩ := Option.bind_eq_some_iff.mp h
  cases h
  exact ⟨iterate, hload, hdegenerate, rfl⟩

theorem Shaped.consider? (h : solver.Shaped) {degenerate : Bool}
    (hconsider : solver.consider? candidate = some (loaded, degenerate)) :
  solver.Loads loaded
  := by
  obtain ⟨iterate, hload, -, rfl⟩ := consider?_spec hconsider
  apply h.loadColumn? hload

/-- Looking for an alternative loads columns.  By induction on the number of retries. -/
theorem Shaped.findAlternative? :
    ∀ (retries : ℕ) {solver : Solver (ProductForm F) F} {candidates : List (Candidate F)},
      solver.Shaped →
      solver.findAlternative? retries candidates = some (some (candidate, loaded)) →
      solver.Loads loaded
  | 0, _, _, _, h => by
      cases h
  | retries + 1, solver, candidates, hshaped, h => by
      rw [Solver.findAlternative?] at h
      split at h
      · cases h
      · obtain ⟨first, -, h⟩ := Option.bind_eq_some_iff.mp h
        obtain ⟨⟨next, degenerate⟩, hnext, h⟩ := Option.bind_eq_some_iff.mp h
        have hloads := hshaped.consider? hnext
        dsimp only at h
        split at h
        · apply hloads.trans (findAlternative? retries (hloads.shaped hshaped) h)
        · cases h
          apply hloads

theorem Shaped.avoidDegeneracy? (h : solver.Shaped) {candidates : List (Candidate F)} {place : ℕ}
    (havoid : solver.avoidDegeneracy? candidates place = some (candidate, loaded)) :
  solver.Loads loaded
  := by
  unfold Solver.avoidDegeneracy? at havoid
  obtain ⟨chosen, -, havoid⟩ := Option.bind_eq_some_iff.mp havoid
  obtain ⟨⟨first, degenerate⟩, hfirst, havoid⟩ := Option.bind_eq_some_iff.mp havoid
  have hloads := h.consider? hfirst
  dsimp only at havoid
  split at havoid
  · obtain ⟨found, hfound, havoid⟩ := Option.bind_eq_some_iff.mp havoid
    split at havoid
    · cases havoid
      apply hloads.trans (Shaped.findAlternative? _ (hloads.shaped h) hfound)
    · obtain ⟨⟨reloaded, _⟩, hreloaded, havoid⟩ := Option.bind_eq_some_iff.mp havoid
      cases havoid
      apply h.consider? hreloaded
  · cases havoid
    apply hloads

/-- The entries of the pivot column, row by row. -/
theorem mem_pivotEntries? (hsized : solver.iterate.Sized solver.model)
    {entries : List (PivotEntry F)} (hentries : solver.pivotEntries? = some entries)
    {entry : PivotEntry F} (hentry : entry ∈ entries) :
  entry.row.position ≠ 0 ∧ entry.row.position ≤ solver.model.nrRows
    ∧ solver.iterate.row? solver.model entry.row.position = some entry.row
    ∧ solver.iterate.pivotColumn[entry.row.position]? = some entry.alpha
  := by
  unfold pivotEntries? at hentries
  obtain ⟨rows, hrows, hentries⟩ := Option.bind_eq_some_iff.mp hentries
  cases hentries
  obtain ⟨k, hk⟩ := List.mem_iff_getElem?.mp hentry
  rw [List.getElem?_zipWith] at hk
  cases hrow : rows[k]? with
  | none => simp [hrow] at hk
  | some row =>
      cases halpha : (solver.iterate.pivotColumn.drop 1)[k]? with
      | none =>
          rw [hrow, halpha] at hk
          cases hk
      | some alpha =>
          rw [hrow, halpha] at hk
          cases hk
          have hread := congrArg (fun list => list[k]?) (mapM_eq_some_iff.mp hrows)
          rw [List.getElem?_map, List.getElem?_map, hrow] at hread
          obtain ⟨position, hposition, hread⟩ := Option.map_eq_some_iff.mp hread
          have hk : position = 1 + k := by
            obtain ⟨hlt, hvalue⟩ := List.getElem?_eq_some_iff.mp hposition
            rw [List.getElem_range'] at hvalue
            omega
          have hspec := Iterate.mem_rows? hsized hrows (List.mem_of_getElem? hrow)
          refine ⟨hspec.1, hspec.2.1, hspec.2.2, ?_⟩
          rw [(Iterate.row?_spec hread).1, hk, ← halpha, List.getElem?_drop]

/-- What letting a candidate enter comes to.  Nothing is ahead of it, or it pivots with the step of
the blocking row, and with its range as the step if no row blocks. -/
theorem enter?_cases (h : solver.enter? candidate = some outcome) :
  ∃ entries bounds, solver.pivotEntries? = some entries
    ∧ solver.model.bounds? candidate.index = some bounds
    ∧ ((outcome = solver.conclude .unbounded
        ∧ primalRatioTest? solver.context.tolerances candidate.direction entries = none
        ∧ bounds.finiteRange? = none)
      ∨ ∃ length pivoted,
        ((primalRatioTest? solver.context.tolerances candidate.direction entries).map Prod.snd).or
            bounds.finiteRange? = some length
          ∧ solver.pivot?
              ((primalRatioTest? solver.context.tolerances candidate.direction entries).map
                Prod.fst) candidate.index (candidate.direction * length) true = some pivoted
          ∧ ((∃ kind degeneratePivots, pivoted.result = .ok kind
              ∧ outcome.result = .ok (.iterated kind)
              ∧ outcome.state = { pivoted.state with
                counters := { pivoted.state.counters with degeneratePivots } }
              ∧ (degeneratePivots = pivoted.state.counters.degeneratePivots
                ∨ kind = .majorPivot
                  ∧ degeneratePivots = pivoted.state.counters.degeneratePivots + 1))
            ∨ ∃ e, pivoted.result = .error e ∧ outcome.result = .error e
              ∧ outcome.state = pivoted.state))
  := by
  unfold Solver.enter? at h
  obtain ⟨entries, hentries, h⟩ := Option.bind_eq_some_iff.mp h
  obtain ⟨bounds, hbounds, h⟩ := Option.bind_eq_some_iff.mp h
  refine ⟨entries, bounds, hentries, hbounds, ?_⟩
  dsimp only at h
  split at h
  · rename_i hnone
    cases h
    obtain ⟨hblocking, hrange⟩ := Option.or_eq_none_iff.mp hnone
    exact Or.inl ⟨rfl, Option.map_eq_none_iff.mp hblocking, hrange⟩
  · rename_i length hlength
    obtain ⟨pivoted, hpivoted, h⟩ := Option.bind_eq_some_iff.mp h
    refine Or.inr ⟨length, pivoted, hlength, hpivoted, ?_⟩
    cases hresult : pivoted.result with
    | ok kind =>
        obtain ⟨n, hn, hcounted⟩ := countDegenerate_eq kind
          ((primalRatioTest? solver.context.tolerances candidate.direction entries).map Prod.snd)
          pivoted.state
        rw [hresult] at h
        cases h
        exact Or.inl ⟨kind, n, rfl, rfl, hn, hcounted⟩
    | error e =>
        rw [hresult] at h
        cases h
        exact Or.inr ⟨e, rfl, rfl, rfl⟩

theorem enter?_pivots (h : solver.enter? candidate = some outcome) :
  outcome = solver.conclude .unbounded ∨ solver.Pivots outcome
  := by
  obtain ⟨entries, bounds, -, -, ⟨hunbounded, -⟩ | ⟨length, pivoted, -, hpivoted, hcases⟩⟩ :=
    enter?_cases h
  · exact Or.inl hunbounded
  · refine Or.inr ?_
    rcases hcases with ⟨kind, n, hkind, hresult, hstate, hcounted⟩ | ⟨e, herror, hresult, hstate⟩
    · refine ⟨solver, _, _, _, _, pivoted, n, .refl solver, hpivoted, ?_, hstate, by simp, ?_⟩
      · rw [hresult, hkind]
        rfl
      · rcases hcounted with hsame | ⟨rfl, hmore⟩
        · apply Or.inl hsame
        · apply Or.inr ⟨rfl, hkind, hmore⟩
    · refine ⟨solver, _, _, _, _, pivoted, _, .refl solver, hpivoted, ?_, hstate, by simp,
        Or.inl rfl⟩
      rw [hresult, herror]
      rfl

/-- What may follow a pivot follows as well when columns were loaded before. -/
theorem Loads.pivots (h : solver.Loads loaded) (hpivots : loaded.Pivots outcome) :
  solver.Pivots outcome
  := by
  obtain ⟨last, _, _, _, _, _, _, hlast, hrest⟩ := hpivots
  exact ⟨last, _, _, _, _, _, _, h.trans hlast, hrest⟩

/-- A step finds the status of the model and loads at most a column, or it pivots. -/
def Concludes (solver : Solver (ProductForm F) F)
    (outcome : Outcome (Solver (ProductForm F) F) (Except Error StepResult)) : Prop :=
  ∃ loaded status, solver.Loads loaded ∧ outcome = loaded.conclude status
    ∧ (status = .optimal ∨ status = .unbounded ∨ status = .infeasible)

theorem Shaped.primalStep?_cases (h : solver.Shaped) (hstep : solver.primalStep? = some outcome) :
  solver.Concludes outcome ∨ solver.Pivots outcome
  := by
  unfold Solver.primalStep? at hstep
  obtain ⟨unit, -, hstep⟩ := Option.bind_eq_some_iff.mp hstep
  obtain ⟨multipliers, -, hstep⟩ := Option.bind_eq_some_iff.mp hstep
  obtain ⟨movable, -, hstep⟩ := Option.bind_eq_some_iff.mp hstep
  obtain ⟨candidates, -, hstep⟩ := Option.bind_eq_some_iff.mp hstep
  split at hstep
  · cases hstep
    exact Or.inl ⟨solver, _, .refl solver, rfl, Or.inl rfl⟩
  · obtain ⟨⟨candidate, loaded⟩, havoid, hstep⟩ := Option.bind_eq_some_iff.mp hstep
    have hloads := h.avoidDegeneracy? havoid
    rcases enter?_pivots hstep with hunbounded | hpivots
    · exact Or.inl ⟨loaded, _, hloads, hunbounded, Or.inr (Or.inl rfl)⟩
    · apply Or.inr (hloads.pivots hpivots)

theorem Shaped.repair?_pivots (h : solver.Shaped) {row : BasicRow F} {entering : Eligible F}
    (hstep : solver.repair? row entering = some outcome) :
  solver.Pivots outcome
  := by
  unfold Solver.repair? at hstep
  obtain ⟨iterate, hload, hstep⟩ := Option.bind_eq_some_iff.mp hstep
  obtain ⟨alpha, -, hstep⟩ := Option.bind_eq_some_iff.mp hstep
  obtain ⟨pivoted, hpivoted, hstep⟩ := Option.bind_eq_some_iff.mp hstep
  cases hstep
  exact ⟨_, _, _, _, _, pivoted, _, h.loadColumn? hload, hpivoted, rfl, rfl, by simp, Or.inl rfl⟩

theorem Shaped.dualStep?_cases (h : solver.Shaped) (hstep : solver.dualStep? = some outcome) :
  solver.Concludes outcome ∨ solver.Pivots outcome
  := by
  unfold Solver.dualStep? at hstep
  obtain ⟨violations, -, hstep⟩ := Option.bind_eq_some_iff.mp hstep
  split at hstep
  · apply h.primalStep?_cases hstep
  · obtain ⟨⟨position, _⟩, -, hstep⟩ := Option.bind_eq_some_iff.mp hstep
    obtain ⟨row, -, hstep⟩ := Option.bind_eq_some_iff.mp hstep
    obtain ⟨first, -, hstep⟩ := Option.bind_eq_some_iff.mp hstep
    obtain ⟨second, -, hstep⟩ := Option.bind_eq_some_iff.mp hstep
    obtain ⟨⟨multipliers, pivotRow⟩, -, hstep⟩ := Option.bind_eq_some_iff.mp hstep
    obtain ⟨movable, -, hstep⟩ := Option.bind_eq_some_iff.mp hstep
    obtain ⟨entries, -, hstep⟩ := Option.bind_eq_some_iff.mp hstep
    dsimp only at hstep
    split at hstep
    · cases hstep
      exact Or.inl ⟨solver, _, .refl solver, rfl, Or.inr (Or.inr rfl)⟩
    · apply Or.inr (h.repair?_pivots hstep)

/-- A step finds the status of the model, or it pivots. -/
theorem Shaped.step?_cases (h : solver.Shaped) (hstep : solver.step? = some outcome) :
  solver.Concludes outcome ∨ solver.Pivots outcome
  := by
  unfold Solver.step? at hstep
  obtain ⟨feasible, -, hstep⟩ := Option.bind_eq_some_iff.mp hstep
  cases feasible with
  | true => apply h.primalStep?_cases hstep
  | false => apply h.dualStep?_cases hstep

/-- A step that pivots counts an iteration if the pivot is carried out, and no refusal. -/
theorem Shaped.of_pivots (h : solver.Shaped) (hpivots : solver.Pivots outcome) :
  solver.Follows outcome.state
    ∧ outcome.state.counters.numericFailures = solver.counters.numericFailures
    ∧ ((∃ kind, outcome.result = .ok (.iterated kind)
        ∧ outcome.state.iterate.nrIterations = solver.iterate.nrIterations + 1)
      ∨ ((∃ e, outcome.result = .error e)
        ∧ outcome.state.iterate.nrIterations = solver.iterate.nrIterations))
  := by
  obtain ⟨loaded, _, _, _, primal, pivoted, n, hloads, hpivoted, hresult, hstate, -⟩ := hpivots
  obtain ⟨hfollows, hcases⟩ := (hloads.shaped h).pivot? hpivoted
  have hlast := (hloads.follows h).trans hfollows
  obtain ⟨_, -, rfl⟩ := hloads
  rw [hresult, hstate]
  refine ⟨hlast.with_counters _, ?_⟩
  rcases hcases with ⟨kind, hkind, hcount, hcounters⟩ | ⟨⟨e, he⟩, hiterate, hcounters⟩
  · rw [hkind]
    refine ⟨?_, Or.inl ⟨kind, rfl, hcount⟩⟩
    dsimp only
    rw [hcounters]
    cases primal with
    | true => rfl
    | false => rfl
  · rw [he]
    refine ⟨?_, Or.inr ⟨⟨e, rfl⟩, ?_⟩⟩
    · dsimp only
      rw [hcounters]
    · dsimp only
      rw [hiterate]
      rfl

/-- A step that has found a status has loaded at most a column, and the status is one of three. -/
theorem Shaped.loads_of_step? (h : solver.Shaped) (hstep : solver.step? = some outcome)
    {status : Status} (hresult : outcome.result = .ok (.done status)) :
  ∃ loaded, solver.Loads loaded ∧ outcome = loaded.conclude status
    ∧ (status = .optimal ∨ status = .unbounded ∨ status = .infeasible)
  := by
  rcases h.step?_cases hstep with ⟨loaded, found, hloads, rfl, hstatus⟩ | hpivots
  · cases hresult
    exact ⟨loaded, hloads, rfl, hstatus⟩
  · obtain ⟨-, -, ⟨kind, hkind, -⟩ | ⟨⟨e, he⟩, -⟩⟩ := h.of_pivots hpivots
    · rw [hresult] at hkind
      cases hkind
    · rw [hresult] at he
      cases he

/-! ### Preparing a step -/

/-- Values that are found from scratch have the size of the form. -/
theorem length_of_recompute? {form : ProductForm F} (hform : form.Shaped) {context : Context F}
    {model : Model F} {iterate after : Iterate F}
    (h : iterate.recompute? context model form = some after) :
  ∃ values : DenseVector F, values.length = form.nrRows + 1 ∧ after = { iterate with values }
  := by
  unfold Iterate.recompute? at h
  obtain ⟨start, -, h⟩ := Option.bind_eq_some_iff.mp h
  obtain ⟨moved, -, h⟩ := Option.bind_eq_some_iff.mp h
  obtain ⟨solved, hsolved, h⟩ := Option.bind_eq_some_iff.mp h
  cases h
  refine ⟨_, ?_, rfl⟩
  rw [DenseVector.length_roundAbsolute, hform.length_ftran? hsolved]

/-- A solver is rebuilt with the positions and the values of a factorization from scratch. -/
theorem rebuild?_spec {rebuilt : Outcome (Solver (ProductForm F) F) Factorization}
    (h : solver.rebuild? = some rebuilt) :
  ∃ factorized basis values,
    solver.factorization.factorize? solver.context solver.model solver.iterate.basis.basic
      = some factorized
    ∧ solver.iterate.basis.applyPositions? factorized.result.positions solver.model = some basis
    ∧ values.length = factorized.state.nrRows + 1
    ∧ rebuilt =
      { result := factorized.result
        state :=
          { solver with
            iterate := { solver.iterate with basis, values, current := true }
            factorization := factorized.state
            counters :=
              { solver.counters with
                refactorizations := solver.counters.refactorizations + 1
                singularities :=
                  solver.counters.singularities + factorized.result.singular.length } }
        events := factorized.events }
  := by
  unfold Solver.rebuild? at h
  obtain ⟨outcome, houtcome, h⟩ := Option.bind_eq_some_iff.mp h
  cases h
  obtain ⟨factorized, basis, recomputed, hfactorized, hbasis, hrecomputed, rfl⟩ :=
    Iterate.refactorize?_spec houtcome
  obtain ⟨values, hlength, rfl⟩ :=
    length_of_recompute? (ProductForm.shaped_of_factorize? hfactorized) hrecomputed
  exact ⟨factorized, basis, values, hfactorized, hbasis, hlength, rfl⟩

/-- A factorization from scratch is counted, and is not due again before the next pivot. -/
theorem Shaped.rebuild? (h : solver.Shaped)
    {rebuilt : Outcome (Solver (ProductForm F) F) Factorization}
    (hrebuilt : solver.rebuild? = some rebuilt) :
  solver.Follows rebuilt.state
    ∧ rebuilt.state.counters.numericFailures = solver.counters.numericFailures
    ∧ rebuilt.state.iterate.nrIterations = solver.iterate.nrIterations
    ∧ rebuilt.state.iterate.current = true
    ∧ rebuilt.state.factorization.forced = false ∧ rebuilt.state.factorization.pivots = 0
  := by
  obtain ⟨factorized, basis, values, hfactorized, hbasis, hvalues, rfl⟩ :=
    rebuild?_spec hrebuilt
  have hform := ProductForm.shaped_of_factorize? hfactorized
  obtain ⟨-, _, -, -, hstate⟩ := ProductForm.factorize?_spec hfactorized
  have hrows : factorized.state.nrRows = solver.model.nrRows := by
    rw [hstate, ← h.nrRows]
  obtain ⟨-, hnrRows, hnrVariables, -⟩ := Basis.applyPositions?_eq hbasis
  have hsized := h.sized
  refine ⟨⟨_, _, _, rfl, ⟨hnrRows.trans hsized.nrRows, hnrVariables.trans hsized.nrVariables, ?_,
    hsized.pivotColumn⟩, hrows, hform⟩, rfl, rfl, rfl, ?_, ?_⟩
  · change values.length = _
    rw [hvalues, hrows]
  · change factorized.state.forced = false
    rw [hstate]
  · change factorized.state.pivots = 0
    rw [hstate]

/-- Asking whether a factorization is due changes at most the clock. -/
theorem factorizationDue_snd (solver : Solver (ProductForm F) F) (reading : Reading) :
  ∃ clock, (solver.factorizationDue reading).2
    = { solver with factorization := { solver.factorization with clock } }
  := by
  unfold factorizationDue
  split
  · obtain ⟨clock, hclock⟩ := ProductForm.mustRefactorize_snd solver.context
      reading.sinceFactorization solver.factorization
    refine ⟨clock, ?_⟩
    change { solver with factorization := (solver.factorization.mustRefactorize solver.context
      reading.sinceFactorization).2 } = _
    rw [hclock]
  · exact ⟨solver.factorization.clock, rfl⟩

/-- The clock does not matter for the shape. -/
theorem Shaped.with_clock (h : solver.Shaped) (clock : RefactorizationClock) :
  Shaped { solver with factorization := { solver.factorization with clock } }
  := ⟨h.sized, h.nrRows, h.form.fits, h.form.staged, h.form.counted⟩

theorem Shaped.follows_factorizationDue (h : solver.Shaped) (reading : Reading) :
  solver.Follows (solver.factorizationDue reading).2
  := by
  obtain ⟨clock, hclock⟩ := solver.factorizationDue_snd reading
  rw [hclock]
  exact ⟨_, _, _, rfl, h.with_clock clock⟩

variable {reading : Reading}
  {prepared : Outcome (Solver (ProductForm F) F) (Option Factorization)}

/-- What the preparation of a step comes to.  A factorization that is not due is not forced, and has
fewer changes than the cap; one that is due is made, with the clock as it is after asking. -/
theorem prepare?_cases (h : solver.prepare? reading = some prepared) :
  ∃ clock,
    (prepared.result = none
        ∧ prepared.state = { solver with factorization := { solver.factorization with clock } }
        ∧ solver.iterate.current = true ∧ solver.factorization.forced = false
        ∧ solver.factorization.pivots < solver.context.policy.pivotCap)
      ∨ ∃ rebuilt,
        rebuild? { solver with factorization := { solver.factorization with clock } }
            = some rebuilt
          ∧ prepared.result = some rebuilt.result ∧ prepared.state = rebuilt.state
  := by
  obtain ⟨clock, hclock⟩ := solver.factorizationDue_snd reading
  use clock
  unfold Solver.prepare? at h
  cases hdue : solver.factorizationDue reading with
  | mk due next =>
      rw [hdue] at hclock h
      dsimp only at hclock
      subst hclock
      cases due with
      | true =>
          obtain ⟨rebuilt, hrebuilt, h⟩ := Option.bind_eq_some_iff.mp h
          cases h
          exact Or.inr ⟨rebuilt, hrebuilt, rfl, rfl⟩
      | false =>
          cases h
          unfold factorizationDue at hdue
          split at hdue
          · rename_i hcurrent
            obtain ⟨hforced, hcap⟩ := ProductForm.lt_pivotCap_of_mustRefactorize
              (congrArg Prod.fst hdue)
            exact Or.inl ⟨rfl, rfl, hcurrent, hforced, hcap⟩
          · cases hdue

/-- When a step begins, the factorization represents the basis. -/
theorem Shaped.prepare? (h : solver.Shaped) (hprepared : solver.prepare? reading = some prepared) :
  solver.Follows prepared.state
    ∧ prepared.state.counters.numericFailures = solver.counters.numericFailures
    ∧ prepared.state.iterate.nrIterations = solver.iterate.nrIterations
    ∧ prepared.state.iterate.current = true
  := by
  obtain ⟨clock, hcases⟩ := prepare?_cases hprepared
  have hshaped := h.with_clock clock
  rcases hcases with ⟨-, hstate, hcurrent, -⟩ | ⟨rebuilt, hrebuilt, -, hstate⟩
  · rw [hstate]
    exact ⟨⟨_, _, _, rfl, hshaped⟩, rfl, rfl, hcurrent⟩
  · obtain ⟨⟨_, _, _, hlast, hafter⟩, hfailures, hcount, hcurrent, -⟩ := hshaped.rebuild? hrebuilt
    rw [hstate]
    exact ⟨⟨_, _, _, hlast, hafter⟩, hfailures, hcount, hcurrent⟩

/-- The factorization represents the basis, and none is due for its changes. -/
structure Settled (solver : Solver (ProductForm F) F) : Prop where
  current : solver.iterate.current = true
  forced : solver.factorization.forced = false
  pivots : solver.factorization.pivots < solver.context.policy.pivotCap

/-- After the preparation of a step no factorization is due. -/
theorem Shaped.prepare?_settled (h : solver.Shaped) (hcap : 0 < solver.context.policy.pivotCap)
    (hprepared : solver.prepare? reading = some prepared) :
  prepared.state.Settled
  := by
  obtain ⟨clock, hcases⟩ := prepare?_cases hprepared
  have hshaped := h.with_clock clock
  rcases hcases with ⟨-, hstate, hcurrent, hforced, hpivots⟩ | ⟨rebuilt, hrebuilt, -, hstate⟩
  · rw [hstate]
    exact ⟨hcurrent, hforced, hpivots⟩
  · obtain ⟨⟨_, _, _, hlast, -⟩, -, -, hcurrent, hforced, hpivots⟩ := hshaped.rebuild? hrebuilt
    rw [hstate]
    refine ⟨hcurrent, hforced, ?_⟩
    rw [hpivots, hlast]
    apply hcap

/-! ### Turns -/

/-- A refused pivot is counted, and may force a factorization. -/
theorem Shaped.refuse (h : solver.Shaped) (recovering : Bool) :
  solver.Follows (solver.refuse recovering)
    ∧ (solver.refuse recovering).iterate = solver.iterate
    ∧ (solver.refuse recovering).counters.numericFailures
      = solver.counters.numericFailures + 1
  := by
  cases recovering with
  | true => exact ⟨⟨_, _, _, rfl, h.sized, h.nrRows, h.form⟩, rfl, rfl⟩
  | false =>
      exact ⟨⟨_, _, _, rfl, h.sized, h.nrRows, h.form.fits, h.form.staged, h.form.counted⟩, rfl,
        rfl⟩

variable {recovering : Bool} {turn : Turn (ProductForm F) F}

/-- An interruption is not about the model. -/
theorem interruption?_spec {status : Status}
    (h : solver.interruption? reading = some status) :
  status = .userAbort ∨ status = .timeout ∨ status = .iterationLimit
  := by
  unfold interruption? at h
  split at h
  · cases h
    apply Or.inl rfl
  · split at h
    · cases h
      apply Or.inr (Or.inl rfl)
    · split at h
      · cases h
        apply Or.inr (Or.inr rfl)
      · cases h

/-- After an iteration a solve ends by an interruption or not at all. -/
theorem verdictAfter_iterated (solver : Solver (ProductForm F) F) (reading : Reading)
    (recovering : Bool) (kind : IterationKind) :
  solver.verdictAfter reading recovering (.iterated kind) ≠ .conclude .optimal
    ∧ solver.verdictAfter reading recovering (.iterated kind) ≠ .conclude .infeasible
    ∧ solver.verdictAfter reading recovering (.iterated kind) ≠ .conclude .unbounded
  := by
  unfold verdictAfter
  dsimp only
  cases hstatus : solver.interruption? reading with
  | none => simp
  | some status => rcases interruption?_spec hstatus with rfl | rfl | rfl <;> simp

/-- What a turn comes to: a singular column ends it, or a step is taken.  After a step the turn
ends with what it has found or carried out, with a refused pivot, or with an error. -/
theorem turn?_cases (h : solver.turn? reading recovering = some turn) :
  ∃ prepared, solver.prepare? reading = some prepared ∧ turn.rebuilt = prepared.result
    ∧ ((prepared.state.settings.singularPolicy = .fail ∧ turn.step = none
          ∧ turn.verdict = .conclude .infeasible ∧ turn.solver = prepared.state)
      ∨ ∃ outcome, prepared.state.step? = some outcome ∧ turn.step = some outcome.result
        ∧ ((∃ result, outcome.result = .ok result
              ∧ turn.verdict = outcome.state.verdictAfter reading recovering result
              ∧ turn.solver = outcome.state)
          ∨ (∃ row index value, outcome.result = .error (.numericFailure row index value)
              ∧ turn.verdict = (if recovering then .conclude .numericFailure else .again true)
              ∧ turn.solver = outcome.state.refuse recovering)
          ∨ (∃ e, outcome.result = .error e
              ∧ (∀ row index value, e ≠ .numericFailure row index value)
              ∧ turn.verdict = .fail e ∧ turn.solver = outcome.state)))
  := by
  unfold Solver.turn? at h
  obtain ⟨prepared, hprepared, h⟩ := Option.bind_eq_some_iff.mp h
  refine ⟨prepared, hprepared, ?_⟩
  dsimp only at h
  split at h
  · rename_i hfail
    rw [Bool.and_eq_true, beq_iff_eq] at hfail
    cases h
    exact ⟨rfl, Or.inl ⟨hfail.2, rfl, rfl, rfl⟩⟩
  · unfold Solver.stepTurn? at h
    obtain ⟨outcome, houtcome, h⟩ := Option.bind_eq_some_iff.mp h
    dsimp only at h
    split at h
    · rename_i result hresult
      cases h
      exact ⟨rfl, Or.inr ⟨outcome, houtcome, rfl, Or.inl ⟨result, hresult, rfl, rfl⟩⟩⟩
    · rename_i row index value hresult
      cases recovering with
      | true =>
          cases h
          exact ⟨rfl, Or.inr ⟨outcome, houtcome, rfl,
            Or.inr (Or.inl ⟨row, index, value, hresult, rfl, rfl⟩)⟩⟩
      | false =>
          cases h
          exact ⟨rfl, Or.inr ⟨outcome, houtcome, rfl,
            Or.inr (Or.inl ⟨row, index, value, hresult, rfl, rfl⟩)⟩⟩
    · rename_i e hother hresult
      cases h
      exact ⟨rfl, Or.inr ⟨outcome, houtcome, rfl,
        Or.inr (Or.inr ⟨e, hresult, hother, rfl, rfl⟩)⟩⟩

/-- A status of the model that ends a turn was found by its step, unless a singular column has ended
the turn. -/
theorem found_of_turn? (h : solver.turn? reading recovering = some turn) {status : Status}
    (hverdict : turn.verdict = .conclude status)
    (hstatus : status = .optimal ∨ status = .unbounded ∨ status = .infeasible) :
  ∃ prepared, solver.prepare? reading = some prepared
    ∧ ((prepared.state.settings.singularPolicy = .fail ∧ status = .infeasible)
      ∨ ∃ outcome, prepared.state.step? = some outcome ∧ outcome.result = .ok (.done status)
        ∧ turn.solver = outcome.state)
  := by
  obtain ⟨prepared, hprepared, -, hcases⟩ := turn?_cases h
  refine ⟨prepared, hprepared, ?_⟩
  rcases hcases with ⟨hfail, -, hconclude, -⟩ | ⟨outcome, hstep, -, hcases⟩
  · rw [hverdict] at hconclude
    cases hconclude
    exact Or.inl ⟨hfail, rfl⟩
  · refine Or.inr ⟨outcome, hstep, ?_⟩
    rcases hcases with ⟨result, hresult, hfound, hsolver⟩ | ⟨_, _, _, -, hrefused, -⟩
      | ⟨e, -, -, hfailed, -⟩
    · rw [hverdict] at hfound
      cases result with
      | iterated kind =>
          obtain ⟨hoptimal, hinfeasible, hunbounded⟩ :=
            verdictAfter_iterated outcome.state reading recovering kind
          rcases hstatus with rfl | rfl | rfl
          · cases hoptimal hfound.symm
          · cases hunbounded hfound.symm
          · cases hinfeasible hfound.symm
      | done other =>
          cases hfound
          exact ⟨hresult, hsolver⟩
    · rw [hverdict] at hrefused
      split at hrefused
      · cases hrefused
        simp at hstatus
      · cases hrefused
    · rw [hverdict] at hfailed
      cases hfailed

/-- A step takes back neither iterations nor refused pivots. -/
theorem Shaped.step? (h : solver.Shaped) (hstep : solver.step? = some outcome) :
  solver.Follows outcome.state
    ∧ solver.iterate.nrIterations ≤ outcome.state.iterate.nrIterations
    ∧ outcome.state.counters.numericFailures = solver.counters.numericFailures
  := by
  rcases h.step?_cases hstep with ⟨loaded, status, hloads, rfl, -⟩ | hpivots
  · have hloaded := hloads.follows h
    obtain ⟨_, -, rfl⟩ := hloads
    exact ⟨hloaded, le_rfl, rfl⟩
  · obtain ⟨hfollows, hsame, ⟨_, -, hcount⟩ | ⟨-, hcount⟩⟩ := h.of_pivots hpivots
    · exact ⟨hfollows, by omega, hsame⟩
    · exact ⟨hfollows, hcount.ge, hsame⟩

/-- A turn takes back neither iterations nor refused pivots. -/
theorem Shaped.turn? (h : solver.Shaped) (hturn : solver.turn? reading recovering = some turn) :
  solver.Follows turn.solver
    ∧ solver.iterate.nrIterations ≤ turn.solver.iterate.nrIterations
    ∧ solver.counters.numericFailures ≤ turn.solver.counters.numericFailures
  := by
  obtain ⟨prepared, hprepared, -, hcases⟩ := turn?_cases hturn
  obtain ⟨hfollows, hfailures, hcount, -⟩ := h.prepare? hprepared
  rcases hcases with ⟨-, -, -, hsolver⟩ | ⟨outcome, hstep, -, hcases⟩
  · rw [hsolver]
    exact ⟨hfollows, hcount.ge, hfailures.ge⟩
  · obtain ⟨hnext, hmore, hsame⟩ := hfollows.shaped.step? hstep
    have hlast := hfollows.trans hnext
    rcases hcases with ⟨_, -, -, hsolver⟩ | ⟨_, _, _, -, -, hsolver⟩ | ⟨_, -, -, -, hsolver⟩
    · rw [hsolver]
      exact ⟨hlast, by omega, by omega⟩
    · obtain ⟨hrefused, hiterate, hrefusals⟩ := hlast.shaped.refuse recovering
      rw [hsolver, hiterate, hrefusals]
      exact ⟨hlast.trans hrefused, by omega, by omega⟩
    · rw [hsolver]
      exact ⟨hlast, by omega, by omega⟩

end Solver

end RevisedSimplex
