import RevisedSimplex.Proofs.IterateProgress
import RevisedSimplex.Proofs.SolverHistories
import RevisedSimplex.Proofs.Violations

/-!
# Steps and turns that never fail

The three places of a step that tell a bound flip from an exchange agree.  A step without a
leaving row is taken only when the range of the entering variable is finite; a flip ahead of the
leaving row needs a range that the step exceeds, which again is finite; and an exchange is
performed only after a column was staged for it.  So an error of a pivot is a refusal by the
factorization and nothing else.

A `Guarded` solver has the tolerances and the rules for which nothing else goes wrong either: every
entry that is read is there, every factorization succeeds, and a pivot that was staged can be
committed.
-/

namespace RevisedSimplex

variable {F : Type} [Scalar F]

/-! ### Updates -/

namespace ProductForm

variable {form : ProductForm F} {context : Context F} {row entering : ℕ} {column : DenseVector F}

/-- A solved column can be staged with its pivot in any row of the constraints, or is refused. -/
theorem exists_prepareUpdate? (context : Context F) (entering : ℕ) (hrow : row ≠ 0)
    (hle : row ≤ form.nrRows) (hlength : column.length = form.nrRows + 1) :
  ∃ prepared, form.prepareUpdate? context row entering column = some prepared
  := by
  have hvalid : ¬ (row = 0 ∨ form.nrRows < row ∨ column.length ≠ form.nrRows + 1) := by
    omega
  have hread : column[row]? = some column[row] := List.getElem?_eq_getElem (by omega)
  obtain ⟨staged, hstaged, -⟩ := EtaColumn.exists_ofDense? hread entering
  unfold prepareUpdate?
  rw [if_neg hvalid, hstaged, Option.bind_eq_bind, Option.bind_some]
  dsimp only
  split
  · exact ⟨_, rfl⟩
  · exact ⟨_, rfl⟩

/-- A staged column with a pivot that is not zero can be committed. -/
theorem exists_finishUpdate? {staged : EtaColumn F} (hstaged : form.file.staged = some staged)
    (hpivot : (staged.pivot == 0) = false) :
  ∃ finished, form.finishUpdate? false = some finished ∧ finished.result = true
  := by
  obtain ⟨inverse, hinverse⟩ := EtaColumn.exists_invert? hpivot
  rw [finishUpdate?_of_staged hstaged, if_neg Bool.false_ne_true, hinverse]
  exact ⟨_, rfl, rfl⟩

end ProductForm

/-! ### Iterations -/

namespace Iterate

variable {model : Model F} {context : Context F} {form : ProductForm F} {iterate : Iterate F}
  {leavingRow : Option ℕ} {entering : ℕ} {theta : F} {primal : Bool} {bounds : Bounds F}

/-- It can be told whether a step is a bound flip.  It is one without a leaving row, and otherwise
only if the range of the entering variable is finite. -/
theorem exists_isBoundFlip? [RoundedScalar F] (tolerances : Tolerances F)
    (hbounds : model.bounds? entering = some bounds) (leavingRow : Option ℕ) (theta : F)
    (primal : Bool) :
  ∃ flips, isBoundFlip? tolerances model leavingRow entering theta primal = some flips
    ∧ (flips = true → leavingRow = none ∨ ∃ range, bounds.finiteRange? = some range)
    ∧ (flips = false → ∃ row, leavingRow = some row)
  := by
  cases leavingRow with
  | none => exact ⟨true, rfl, fun _ => Or.inl rfl, (fun hfalse => by cases hfalse)⟩
  | some row =>
      cases primal with
      | false => exact ⟨false, rfl, (fun htrue => by cases htrue), fun _ => ⟨row, rfl⟩⟩
      | true =>
          have hread : isBoundFlip? tolerances model (some row) entering theta true
              = some (!bounds.isFixed tolerances.primal && bounds.range?.any fun range =>
                range - Scalar.magnitude theta < -tolerances.primal) := by
            unfold isBoundFlip?
            rw [hbounds]
            rfl
          refine ⟨_, hread, ?_, fun _ => ⟨row, rfl⟩⟩
          intro hflips
          rw [Bool.and_eq_true] at hflips
          apply Or.inr (Bounds.exists_finiteRange? hflips.2)

/-- A bound flip over a finite range is carried out. -/
theorem Sized.exists_perform?_flip (h : iterate.Sized model) (form : ProductForm F)
    (hcurrent : iterate.current = true) (hentering : iterate.basis.isNonbasic entering = true)
    (hflip : isBoundFlip? context.tolerances model leavingRow entering theta primal = some true)
    (hbounds : model.bounds? entering = some bounds)
    (hrange : ∃ range, bounds.finiteRange? = some range) :
  ∃ performed, iterate.perform? context model form leavingRow entering theta primal
      = some performed
    ∧ ∃ kind, performed.result = .ok kind
  := by
  obtain ⟨range, hrange⟩ := hrange
  obtain ⟨after, hafter⟩ := h.exists_flip? hentering theta range
  unfold perform?
  simp only [hcurrent, hflip, hbounds, hrange, hafter, Bool.not_true, Bool.false_eq_true, if_false,
    if_true, Option.bind_eq_bind, Option.bind_some]
  exact ⟨_, rfl, _, rfl⟩

/-- An exchange for a staged column is carried out. -/
theorem Sized.exists_perform?_exchange (h : iterate.Sized model)
    (hcurrent : iterate.current = true) (hentering : iterate.basis.isNonbasic entering = true)
    {row : ℕ} (hrow : row ≠ 0) (hle : row ≤ model.nrRows)
    (hflip : isBoundFlip? context.tolerances model (some row) entering theta primal = some false)
    {finished : Outcome (ProductForm F) Bool} (hfinished : form.finishUpdate? false = some finished)
    (hdone : finished.result = true) :
  ∃ performed, iterate.perform? context model form (some row) entering theta primal
      = some performed
    ∧ ∃ kind, performed.result = .ok kind
  := by
  have hfinished : BasisFactorization.finishUpdate? false form = some finished := hfinished
  obtain ⟨after, hafter⟩ := h.exists_exchange? context.tolerances hrow hle hentering theta
  unfold perform?
  simp only [hcurrent, hflip, hfinished, hdone, hafter, Bool.not_true, Bool.false_eq_true, if_false,
    if_true, Option.bind_eq_bind, Option.bind_some]
  exact ⟨_, rfl, _, rfl⟩

end Iterate

/-! ### Lists of variables -/

section Lists

variable {model : Model F} {multipliers pivotRow : DenseVector F} {nonbasic : List (Nonbasic F)}

/-- The reduced costs of variables of the model can be found. -/
theorem Candidate.exists_list? (tolerances : Tolerances F)
    (hlength : multipliers.length = model.nrRows + 1)
    (hcolumns : ∀ x ∈ nonbasic, ∃ v, model.column? v = some x.column) :
  ∃ candidates, Candidate.list? tolerances multipliers nonbasic = some candidates
  := by
  have hread : ∃ priced, nonbasic.mapM (fun x => do
      let reducedCost ← x.column.inner? multipliers
      some (x, reducedCost)) = some priced := by
    apply exists_mapM
    intro x hx
    obtain ⟨v, hcolumn⟩ := hcolumns x hx
    obtain ⟨cost, hcost⟩ := SparseVector.exists_inner? (Model.column?_spec hcolumn).2 hlength
    rw [hcost]
    exact ⟨_, rfl⟩
  obtain ⟨priced, hpriced⟩ := hread
  unfold list?
  rw [hpriced]
  exact ⟨_, rfl⟩

/-- The entries of variables of the model in a row can be found. -/
theorem PivotRowEntry.exists_list? (hlength : multipliers.length = model.nrRows + 1)
    (hrow : pivotRow.length = model.nrRows + 1)
    (hcolumns : ∀ x ∈ nonbasic, ∃ v, model.column? v = some x.column) :
  ∃ entries, PivotRowEntry.list? multipliers pivotRow nonbasic = some entries
  := by
  apply exists_mapM
  intro x hx
  obtain ⟨v, hcolumn⟩ := hcolumns x hx
  have hbound := (Model.column?_spec hcolumn).2
  obtain ⟨cost, hcost⟩ := SparseVector.exists_inner? hbound hlength
  obtain ⟨alpha, halpha⟩ := SparseVector.exists_inner? hbound hrow
  rw [hcost, Option.bind_eq_bind, Option.bind_some, halpha]
  exact ⟨_, rfl⟩

end Lists

namespace Solver

variable {solver loaded after : Solver (ProductForm F) F}

/-- The tolerances and rules with which nothing but a refused pivot goes wrong. -/
structure Guarded (solver : Solver (ProductForm F) F) : Prop where
  primal : 0 ≤ solver.context.tolerances.primal
  pivot : 0 < solver.context.tolerances.pivot
  factorizationPivot : 0 < solver.context.tolerances.factorizationPivot
  rowSelection : solver.context.rowSelection = .largestMagnitude
  pricing : solver.pricing.Complete

theorem Guarded.follows (h : solver.Guarded) (hfollows : solver.Follows after) :
  after.Guarded
  := by
  obtain ⟨_, _, _, rfl, -⟩ := hfollows
  exact ⟨h.primal, h.pivot, h.factorizationPivot, h.rowSelection, h.pricing⟩

theorem Guarded.loads (h : solver.Guarded) (hloads : solver.Loads loaded) :
  loaded.Guarded
  := by
  obtain ⟨_, -, rfl⟩ := hloads
  exact ⟨h.primal, h.pivot, h.factorizationPivot, h.rowSelection, h.pricing⟩

/-! ### Pivots -/

/-- A refusal of the factorization. -/
def Refused {Result : Type} (result : Except Error Result) : Prop :=
  ∃ row index value, result = .error (.numericFailure row index value)

/-- Every error of a pivot is a refusal, if a variable without a blocking row has a range. -/
theorem Shaped.exists_pivot? [RoundedScalar F] (h : solver.Shaped) (hguarded : solver.Guarded)
    (hcurrent : solver.iterate.current = true) {leavingRow : Option ℕ} {entering : ℕ}
    {bounds : Bounds F} (hentering : solver.iterate.basis.isNonbasic entering = true)
    (hbounds : solver.model.bounds? entering = some bounds)
    (hrow : ∀ row, leavingRow = some row → row ≠ 0 ∧ row ≤ solver.model.nrRows)
    (hrange : leavingRow = none → ∃ range, bounds.finiteRange? = some range) (theta : F)
    (primal : Bool) :
  ∃ pivoted, solver.pivot? leavingRow entering theta primal = some pivoted
    ∧ ((∃ kind, pivoted.result = .ok kind) ∨ Refused pivoted.result)
  := by
  obtain ⟨flips, hflips, hflipped, hexchanged⟩ := Iterate.exists_isBoundFlip?
    solver.context.tolerances hbounds leavingRow theta primal
  cases flips with
  | true =>
      have hfinite : ∃ range, bounds.finiteRange? = some range :=
        (hflipped rfl).elim hrange id
      obtain ⟨performed, hperformed, kind, hkind⟩ := h.sized.exists_perform?_flip
        solver.factorization hcurrent hentering hflips hbounds hfinite
      have hstage : solver.stage? leavingRow entering theta primal
          = some { result := none, state := solver.factorization } := by
        unfold Solver.stage?
        rw [hflips]
        cases leavingRow with
        | none => rfl
        | some row => rfl
      unfold Solver.pivot?
      simp only [hstage, hperformed, Option.bind_eq_bind, Option.bind_some]
      exact ⟨_, rfl, Or.inl ⟨kind, hkind⟩⟩
  | false =>
      obtain ⟨row, rfl⟩ := hexchanged rfl
      obtain ⟨hne, hle⟩ := hrow row rfl
      have hlength : solver.iterate.pivotColumn.length = solver.factorization.nrRows + 1 := by
        rw [h.sized.pivotColumn, h.nrRows]
      obtain ⟨prepared, hprepared⟩ := ProductForm.exists_prepareUpdate? solver.context entering
        hne (by rw [h.nrRows]; apply hle) hlength
      obtain ⟨-, staged, -, hcases⟩ := ProductForm.prepareUpdate?_spec hprepared
      have hprepared : BasisFactorization.prepareUpdate? solver.context row entering
          solver.iterate.pivotColumn solver.factorization = some prepared := hprepared
      unfold Solver.pivot? Solver.stage?
      rcases hcases with ⟨-, ⟨value, herror⟩, -⟩ | ⟨hlarge, hok, hstate⟩
      · simp only [hflips, hprepared, herror, Bool.false_eq_true, if_false, Option.bind_eq_bind,
          Option.bind_some]
        exact ⟨_, rfl, Or.inr ⟨row, entering, value, rfl⟩⟩
      · have hstaged : prepared.state.file.staged = some staged := by
          rw [hstate]
          apply EtaFile.staged_stage
        obtain ⟨finished, hfinished, hdone⟩ := ProductForm.exists_finishUpdate? hstaged
          (LawfulScalar.beq_zero_eq_false hguarded.pivot hlarge)
        obtain ⟨performed, hperformed, kind, hkind⟩ := h.sized.exists_perform?_exchange hcurrent
          hentering hne hle hflips hfinished hdone
        simp only [hflips, hprepared, hok, hperformed, Bool.false_eq_true, if_false,
          Option.bind_eq_bind, Option.bind_some]
        exact ⟨_, rfl, Or.inl ⟨kind, hkind⟩⟩

/-! ### Steps -/

/-- What a step comes to when nothing is wrong: an iteration, a refused pivot, or a status of some
kind. -/
inductive Regular (expected : Status → Prop) : Except Error StepResult → Prop
  | iterated (kind : IterationKind) : Regular expected (.ok (.iterated kind))
  | done {status : Status} : expected status → Regular expected (.ok (.done status))
  | refused (row index : ℕ) (value : Float) :
      Regular expected (.error (.numericFailure row index value))

theorem Regular.mono {expected wider : Status → Prop} {result : Except Error StepResult}
    (h : Regular expected result) (hwider : ∀ status, expected status → wider status) :
  Regular wider result
  := by
  cases h with
  | iterated kind => apply Regular.iterated
  | done hstatus => apply Regular.done (hwider _ hstatus)
  | refused row index value => apply Regular.refused

/-- The solved column of a nonbasic variable can be loaded. -/
theorem Shaped.exists_consider? (h : solver.Shaped) {candidate : Candidate F}
    (hcandidate : solver.iterate.basis.isNonbasic candidate.index = true) :
  ∃ loaded degenerate, solver.consider? candidate = some (loaded, degenerate)
  := by
  obtain ⟨iterate, hload⟩ :=
    h.sized.exists_loadColumn? solver.context h.form h.nrRows hcandidate
  have hloaded := (h.loadColumn? hload).shaped h
  obtain ⟨degenerate, hdegenerate⟩ := hloaded.sized.exists_isDegenerate?
    solver.context.tolerances hloaded.sized.pivotColumn candidate.direction
  unfold Solver.consider?
  simp only [hload, Option.bind_eq_bind, Option.bind_some]
  dsimp only at hdegenerate
  rw [hdegenerate]
  exact ⟨_, _, rfl⟩

/-- Loading a column keeps the nonbasic variables. -/
theorem Loads.basis (h : solver.Loads loaded) :
  loaded.iterate.basis = solver.iterate.basis
  := by
  obtain ⟨_, -, rfl⟩ := h
  rfl

/-- When a candidate has been looked at, the other ones are nonbasic as before. -/
theorem Loads.nonbasic_eraseIdx (h : solver.Loads loaded) {candidates : List (Candidate F)}
    (hcandidates : ∀ candidate ∈ candidates,
      solver.iterate.basis.isNonbasic candidate.index = true) (place : ℕ) :
  ∀ candidate ∈ candidates.eraseIdx place,
    loaded.iterate.basis.isNonbasic candidate.index = true
  := by
  intro candidate hcandidate
  rw [h.basis]
  apply hcandidates candidate (List.mem_of_mem_eraseIdx hcandidate)

theorem Loads.pricing (h : solver.Loads loaded) :
  loaded.pricing = solver.pricing
  := by
  obtain ⟨_, -, rfl⟩ := h
  rfl

/-- An alternative is one of the candidates, if there is one.  By induction on the number of
retries. -/
theorem Shaped.exists_findAlternative? :
    ∀ (retries : ℕ) {solver : Solver (ProductForm F) F} {candidates : List (Candidate F)},
      solver.Shaped → solver.pricing.Complete →
      (∀ candidate ∈ candidates, solver.iterate.basis.isNonbasic candidate.index = true) →
      ∃ found, solver.findAlternative? retries candidates = some found
        ∧ ∀ candidate loaded, found = some (candidate, loaded) → candidate ∈ candidates
  | 0, _, _, _, _, _ => ⟨none, rfl, fun _ _ h => by cases h⟩
  | retries + 1, solver, candidates, h, hpricing, hcandidates => by
      rw [Solver.findAlternative?]
      cases hplace : solver.pricing.selectEntering candidates with
      | none => exact ⟨none, rfl, fun _ _ h => by cases h⟩
      | some place =>
          have hlt := hpricing.entering_lt candidates place hplace
          have hmem : candidates[place] ∈ candidates := List.getElem_mem hlt
          obtain ⟨loaded, degenerate, hconsider⟩ := h.exists_consider? (hcandidates _ hmem)
          have hloads := h.consider? hconsider
          simp only [List.getElem?_eq_getElem hlt, hconsider, Option.bind_eq_bind,
            Option.bind_some]
          split
          · obtain ⟨found, hfound, hspec⟩ := exists_findAlternative? retries (hloads.shaped h)
              (hloads.pricing ▸ hpricing) (hloads.nonbasic_eraseIdx hcandidates place)
            refine ⟨found, hfound, ?_⟩
            intro candidate last hlast
            apply List.mem_of_mem_eraseIdx (hspec candidate last hlast)
          · refine ⟨_, rfl, ?_⟩
            intro candidate last hlast
            cases hlast
            apply hmem

/-- The candidate that enters in the end is one of the candidates. -/
theorem Shaped.exists_avoidDegeneracy? (h : solver.Shaped) (hpricing : solver.pricing.Complete)
    {candidates : List (Candidate F)} {place : ℕ} (hplace : place < candidates.length)
    (hcandidates : ∀ candidate ∈ candidates,
      solver.iterate.basis.isNonbasic candidate.index = true) :
  ∃ candidate loaded, solver.avoidDegeneracy? candidates place = some (candidate, loaded)
    ∧ candidate ∈ candidates
  := by
  have hmem : candidates[place] ∈ candidates := List.getElem_mem hplace
  obtain ⟨loaded, degenerate, hconsider⟩ := h.exists_consider? (hcandidates _ hmem)
  have hloads := h.consider? hconsider
  unfold Solver.avoidDegeneracy?
  simp only [List.getElem?_eq_getElem hplace, hconsider, Option.bind_eq_bind, Option.bind_some]
  split
  · obtain ⟨found, hfound, hspec⟩ := Shaped.exists_findAlternative?
      solver.settings.degeneracyRetries (hloads.shaped h) (hloads.pricing ▸ hpricing)
      (hloads.nonbasic_eraseIdx hcandidates place)
    rw [hfound, Option.bind_some]
    cases found with
    | none => exact ⟨_, _, rfl, hmem⟩
    | some found =>
        refine ⟨found.1, found.2, rfl, ?_⟩
        apply List.mem_of_mem_eraseIdx (hspec found.1 found.2 rfl)
  · exact ⟨_, _, rfl, hmem⟩

/-- The rows have entries in the pivot column. -/
theorem exists_pivotEntries? (hsized : solver.iterate.Sized solver.model) :
  ∃ entries, solver.pivotEntries? = some entries
  := by
  obtain ⟨rows, hrows⟩ := hsized.exists_rows?
  unfold pivotEntries?
  rw [hrows]
  exact ⟨_, rfl⟩

/-- An entering variable pivots, or shows that the model is unbounded. -/
theorem Shaped.exists_enter? [RoundedScalar F] (h : solver.Shaped) (hguarded : solver.Guarded)
    (hcurrent : solver.iterate.current = true) {candidate : Candidate F}
    (hcandidate : solver.iterate.basis.isNonbasic candidate.index = true) :
  ∃ outcome, solver.enter? candidate = some outcome
    ∧ Regular (· = .unbounded) outcome.result
  := by
  obtain ⟨entries, hentries⟩ := exists_pivotEntries? h.sized
  obtain ⟨bounds, _, hbounds, -⟩ := h.sized.exists_restingValue? hcandidate
  unfold Solver.enter?
  simp only [hentries, hbounds, Option.bind_eq_bind, Option.bind_some]
  generalize hblocking : primalRatioTest? solver.context.tolerances candidate.direction entries
    = blocking
  cases hlength : (blocking.map Prod.snd).or bounds.finiteRange? with
  | none => exact ⟨_, rfl, .done rfl⟩
  | some length =>
      have hrow : ∀ row, blocking.map Prod.fst = some row →
          row ≠ 0 ∧ row ≤ solver.model.nrRows := by
        intro row hrow
        obtain ⟨⟨position, step⟩, hblock, rfl⟩ := Option.map_eq_some_iff.mp hrow
        rw [hblock] at hblocking
        obtain ⟨entry, hentry, rfl, -⟩ := primalRatioTest?_spec hblocking
        obtain ⟨hne, hle, -⟩ := mem_pivotEntries? h.sized hentries hentry
        exact ⟨hne, hle⟩
      have hrange : blocking.map Prod.fst = none → ∃ range, bounds.finiteRange? = some range := by
        intro hnone
        rw [Option.map_eq_none_iff.mp hnone] at hlength
        exact ⟨length, hlength⟩
      obtain ⟨pivoted, hpivoted, hresult⟩ := h.exists_pivot? hguarded hcurrent hcandidate hbounds
        hrow hrange (candidate.direction * length) true
      simp only [hpivoted, Option.bind_some]
      rcases hresult with ⟨kind, hkind⟩ | ⟨row, index, value, herror⟩
      · rw [hkind]
        exact ⟨_, rfl, .iterated kind⟩
      · rw [herror]
        exact ⟨_, rfl, .refused row index value⟩

/-- A primal step pivots, or concludes that the basis is optimal or the model unbounded. -/
theorem Shaped.exists_primalStep? [RoundedScalar F] (h : solver.Shaped)
    (hguarded : solver.Guarded) (hcurrent : solver.iterate.current = true) :
  ∃ outcome, solver.primalStep? = some outcome
    ∧ Regular (fun status => status = .optimal ∨ status = .unbounded) outcome.result
  := by
  obtain ⟨unit, hunit, hunitLength⟩ :=
    DenseVector.exists_unit? (F := F) (Nat.succ_pos solver.model.nrRows)
  rw [← h.nrRows] at hunitLength
  obtain ⟨multipliers, hmultipliers, hlength⟩ :=
    h.form.exists_btran? solver.context hunitLength
  have hmultipliers : BasisFactorization.btran? solver.context solver.factorization unit
      = some multipliers := hmultipliers
  rw [h.nrRows] at hlength
  obtain ⟨movable, hmovable⟩ := h.sized.exists_movable? solver.context.tolerances
  obtain ⟨candidates, hcandidates⟩ := Candidate.exists_list? solver.context.tolerances hlength
    fun x hx => ⟨_, (Iterate.mem_movable? hmovable hx).2.2⟩
  unfold Solver.primalStep?
  simp only [hunit, hmultipliers, hmovable, hcandidates, Option.bind_eq_bind, Option.bind_some]
  cases hplace : solver.pricing.selectEntering candidates with
  | none => exact ⟨_, rfl, .done (Or.inl rfl)⟩
  | some place =>
      have hnonbasic : ∀ candidate ∈ candidates,
          solver.iterate.basis.isNonbasic candidate.index = true := by
        intro candidate hcandidate
        obtain ⟨x, hx, hindex, -⟩ := Candidate.mem_list? hcandidates hcandidate
        rw [← hindex]
        apply (Iterate.mem_movable? hmovable hx).1
      obtain ⟨candidate, loaded, havoid, hmem⟩ := h.exists_avoidDegeneracy? hguarded.pricing
        (hguarded.pricing.entering_lt candidates place hplace) hnonbasic
      have hloads := h.avoidDegeneracy? havoid
      have hloaded : loaded.iterate.current = true := by
        obtain ⟨_, -, rfl⟩ := hloads
        apply hcurrent
      obtain ⟨outcome, houtcome, hregular⟩ := (hloads.shaped h).exists_enter?
        (hguarded.loads hloads) hloaded (by rw [hloads.basis]; apply hnonbasic candidate hmem)
      simp only [havoid, Option.bind_some]
      exact ⟨outcome, houtcome, hregular.mono fun _ => Or.inr⟩

/-- A variable that enters for a row pivots. -/
theorem Shaped.exists_repair? [RoundedScalar F] (h : solver.Shaped) (hguarded : solver.Guarded)
    (hcurrent : solver.iterate.current = true) {row : BasicRow F} {entering : Eligible F}
    (hrow : row.position ≠ 0) (hle : row.position ≤ solver.model.nrRows)
    (hentering : solver.iterate.basis.isNonbasic entering.index = true) :
  ∃ outcome, solver.repair? row entering = some outcome
    ∧ Regular (fun _ => False) outcome.result
  := by
  obtain ⟨iterate, hload⟩ :=
    h.sized.exists_loadColumn? solver.context h.form h.nrRows hentering
  have hloads := h.loadColumn? hload
  have hloaded := hloads.shaped h
  have hbasis : iterate.basis = solver.iterate.basis := hloads.basis
  have hiterate : iterate.current = true := by
    obtain ⟨_, -, heq⟩ := hloads
    cases heq
    apply hcurrent
  have hnonbasic : iterate.basis.isNonbasic entering.index = true := by
    rw [hbasis]
    apply hentering
  obtain ⟨bounds, _, hbounds, -⟩ := hloaded.sized.exists_restingValue? hnonbasic
  have hlt : row.position < iterate.pivotColumn.length := by
    have hlength : iterate.pivotColumn.length = solver.model.nrRows + 1 :=
      hloaded.sized.pivotColumn
    omega
  have hleaving : ∀ position, some row.position = some position →
      position ≠ 0 ∧ position ≤ solver.model.nrRows := by
    rintro _ ⟨⟩
    exact ⟨hrow, hle⟩
  obtain ⟨pivoted, hpivoted, hresult⟩ := hloaded.exists_pivot? (hguarded.loads hloads) hiterate
    hnonbasic hbounds hleaving (fun hnone => by cases hnone)
    (dualStepLength solver.context.tolerances entering.direction
      iterate.pivotColumn[row.position] row) false
  unfold Solver.repair?
  simp only [hload, List.getElem?_eq_getElem hlt, hpivoted, Option.bind_eq_bind, Option.bind_some]
  rcases hresult with ⟨kind, hkind⟩ | ⟨row, index, value, herror⟩
  · rw [hkind]
    exact ⟨_, rfl, .iterated kind⟩
  · rw [herror]
    exact ⟨_, rfl, .refused row index value⟩

/-- Away from feasibility a dual step pivots, or concludes that the model is infeasible. -/
theorem Shaped.exists_dualStep? [RoundedScalar F] (h : solver.Shaped) (hguarded : solver.Guarded)
    (hcurrent : solver.iterate.current = true)
    (hinfeasible : solver.iterate.isFeasible? solver.context.tolerances solver.model
      = some false) :
  ∃ outcome, solver.dualStep? = some outcome ∧ Regular (· = .infeasible) outcome.result
  := by
  obtain ⟨violations, hviolations⟩ := h.sized.exists_violations? solver.context.tolerances
  have hne := Iterate.violations?_ne_nil hguarded.primal hinfeasible
  unfold Solver.dualStep?
  simp only [hviolations, Option.bind_eq_bind, Option.bind_some]
  cases hplace : solver.pricing.selectLeaving violations with
  | none =>
      rw [hviolations, hguarded.pricing.leaving violations hplace] at hne
      cases hne rfl
  | some place =>
      have hlt := hguarded.pricing.leaving_lt violations place hplace
      obtain ⟨⟨position, amount⟩, hread⟩ : ∃ violation, violations[place]? = some violation :=
        ⟨_, List.getElem?_eq_getElem hlt⟩
      obtain ⟨hzero, hle, row, hrow, -⟩ :=
        Iterate.row_of_mem_violations? h.sized hviolations (List.mem_of_getElem? hread)
      obtain ⟨first, hfirst, hfirstLength⟩ :=
        DenseVector.exists_unit? (F := F) (Nat.succ_pos solver.model.nrRows)
      obtain ⟨second, hsecond, hsecondLength⟩ :=
        DenseVector.exists_unit? (F := F) (Nat.lt_succ_of_le hle)
      rw [← h.nrRows] at hfirstLength hsecondLength
      obtain ⟨multipliers, pivotRow, hsolved, hlength, hrowLength⟩ :=
        h.form.exists_btranDouble? solver.context hfirstLength hsecondLength
      have hsolved : BasisFactorization.btranDouble? solver.context solver.factorization first
          second = some (multipliers, pivotRow) := hsolved
      rw [h.nrRows] at hlength hrowLength
      obtain ⟨movable, hmovable⟩ := h.sized.exists_movable? solver.context.tolerances
      obtain ⟨entries, hentries⟩ := PivotRowEntry.exists_list? hlength hrowLength
        fun x hx => ⟨_, (Iterate.mem_movable? hmovable hx).2.2⟩
      simp only [hread, hrow, hfirst, hsecond, hsolved, hmovable, hentries, Option.bind_some]
      cases htest : dualRatioTest? solver.context.tolerances
          (row.bounds.lower.any fun l => row.value < l) entries with
      | none => exact ⟨_, rfl, .done rfl⟩
      | some entering =>
          obtain ⟨entry, hentry, heligible⟩ := dualRatioTest?_spec htest
          obtain ⟨x, hx, hindex, -⟩ := PivotRowEntry.mem_list? hentries hentry
          have hnonbasic : solver.iterate.basis.isNonbasic entering.index = true := by
            rw [PivotRowEntry.index_of_eligible? heligible, ← hindex]
            apply (Iterate.mem_movable? hmovable hx).1
          have hposition := (Iterate.row?_spec hrow).1
          obtain ⟨outcome, houtcome, hregular⟩ := h.exists_repair? hguarded hcurrent
            (by rw [hposition]; apply hzero) (by rw [hposition]; apply hle) hnonbasic
          exact ⟨outcome, houtcome, hregular.mono fun _ => False.elim⟩

/-- The statuses that a step may find, feasible or not. -/
def Expected (feasible : Bool) (status : Status) : Prop :=
  if feasible then status = .optimal ∨ status = .unbounded else status = .infeasible

/-- A step pivots, or concludes what goes with the feasibility of the iterate. -/
theorem Shaped.exists_step? [RoundedScalar F] (h : solver.Shaped) (hguarded : solver.Guarded)
    (hcurrent : solver.iterate.current = true) :
  ∃ feasible outcome,
    solver.iterate.isFeasible? solver.context.tolerances solver.model = some feasible
      ∧ solver.step? = some outcome ∧ Regular (Expected feasible) outcome.result
  := by
  obtain ⟨feasible, hfeasible⟩ := h.sized.exists_isFeasible? solver.context.tolerances
  unfold Solver.step?
  rw [hfeasible]
  cases feasible with
  | true =>
      obtain ⟨outcome, houtcome, hregular⟩ := h.exists_primalStep? hguarded hcurrent
      exact ⟨true, outcome, rfl, houtcome, hregular⟩
  | false =>
      obtain ⟨outcome, houtcome, hregular⟩ := h.exists_dualStep? hguarded hcurrent hfeasible
      exact ⟨false, outcome, rfl, houtcome, hregular⟩

end Solver

end RevisedSimplex
