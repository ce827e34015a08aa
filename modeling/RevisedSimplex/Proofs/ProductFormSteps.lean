import RevisedSimplex.ProductForm
import RevisedSimplex.Proofs.PlacementShape

/-!
# Operations on product forms

What each operation on a product form comes to when it has a result: a fresh file, a staged
column, a committed one, or the form as it was.  None of this asks anything of the numbers.
-/

namespace RevisedSimplex

/-- What has a value is no error. -/
theorem eq_ok_of_toOption {ε α : Type} {result : Except ε α} {a : α}
    (h : result.toOption = some a) :
  result = .ok a
  := by
  cases result with
  | error e => cases h
  | ok value =>
      cases h
      rfl

namespace ProductForm

variable {F : Type} [Scalar F] {form : ProductForm F} {context : Context F}

/-- A factorization replaces the file by that of a placement, and starts counting pivots again. -/
theorem factorize?_spec {model : Model F} {indices : List ℕ}
    {outcome : Outcome (ProductForm F) Factorization}
    (h : form.factorize? context model indices = some outcome) :
  form.nrRows = model.nrRows
    ∧ ∃ placed, PlacedBasis.of? context model indices = some placed
      ∧ outcome.result = ⟨placed.positions, placed.singular⟩
      ∧ outcome.state =
        { nrRows := form.nrRows
          file := placed.file
          statistics :=
            { form.statistics with
              refactorizations := form.statistics.refactorizations + 1
              singularities := form.statistics.singularities + placed.singular.length } }
  := by
  unfold factorize? at h
  split at h
  · cases h
  · rename_i hsize
    obtain ⟨placed, hplaced, h⟩ := Option.bind_eq_some_iff.mp h
    cases h
    exact ⟨(not_not.mp hsize).symm, placed, hplaced, rfl, rfl⟩

/-- A column is staged, unless its pivot is below the tolerance. -/
theorem prepareUpdate?_spec {row entering : ℕ} {column : DenseVector F}
    {prepared : Outcome (ProductForm F) (Except Error F)}
    (h : form.prepareUpdate? context row entering column = some prepared) :
  column.length = form.nrRows + 1
    ∧ ∃ staged, EtaColumn.ofDense? column row entering = some staged
      ∧ ((Scalar.magnitude staged.pivot < context.tolerances.pivot
          ∧ (∃ value, prepared.result = .error (.numericFailure row entering value))
          ∧ prepared.state = { form with file := form.file.discardStaged })
        ∨ (¬ Scalar.magnitude staged.pivot < context.tolerances.pivot
          ∧ prepared.result = .ok staged.pivot
          ∧ prepared.state = { form with file := form.file.stage staged }))
  := by
  unfold prepareUpdate? at h
  split at h
  · cases h
  · rename_i hvalid
    simp only [not_or, not_lt, not_not] at hvalid
    obtain ⟨staged, hstaged, h⟩ := Option.bind_eq_some_iff.mp h
    refine ⟨hvalid.2.2, staged, hstaged, ?_⟩
    dsimp only at h
    split at h
    · rename_i hsmall
      cases h
      exact Or.inl ⟨hsmall, ⟨_, rfl⟩, rfl⟩
    · rename_i hlarge
      cases h
      exact Or.inr ⟨hlarge, rfl, rfl⟩

/-- A pivot below the tolerance is refused and reported, and nothing stays staged. -/
theorem prepareUpdate?_of_lt {row entering : ℕ} {column : DenseVector F} {staged : EtaColumn F}
    (hne : row ≠ 0) (hle : row ≤ form.nrRows) (hlength : column.length = form.nrRows + 1)
    (hstaged : EtaColumn.ofDense? column row entering = some staged)
    (hsmall : Scalar.magnitude staged.pivot < context.tolerances.pivot) :
  form.prepareUpdate? context row entering column = some
    { result := .error (.numericFailure row entering (Scalar.toFloat staged.pivot))
      state := { form with file := form.file.discardStaged }
      events := [.pivotRefused row entering (Scalar.toFloat staged.pivot)] }
  := by
  have hvalid : ¬ (row = 0 ∨ form.nrRows < row ∨ column.length ≠ form.nrRows + 1) := by omega
  unfold prepareUpdate?
  rw [if_neg hvalid, hstaged, Option.bind_eq_bind, Option.bind_some]
  dsimp only
  rw [if_pos hsmall]

/-- The form with another column committed, and counted as a pivot. -/
def extended (form : ProductForm F) (inverse : EtaColumn F) : ProductForm F :=
  { form with
    file := form.file.append inverse
    pivots := form.pivots + 1
    statistics := { form.statistics with pivots := form.statistics.pivots + 1 } }

/-- There is nothing to finish unless a column is staged. -/
theorem finishUpdate?_of_staged_eq_none (h : form.file.staged = none) (flip : Bool) :
  form.finishUpdate? flip = some { result := false, state := form }
  := by
  unfold finishUpdate?
  rw [EtaFile.commit?_of_staged_eq_none h]
  rfl

/-- A staged column is committed, counted and reported unless it cannot be inverted. -/
theorem finishUpdate?_of_staged {column : EtaColumn F} (h : form.file.staged = some column)
    (flip : Bool) :
  form.finishUpdate? flip
    = ((if flip then column.negate else column).invert?).map fun inverse =>
      { result := true
        state := form.extended inverse
        events := [.updateCommitted inverse.pivotRow inverse.owner
          (form.file.append inverse).nrUpdates (form.file.append inverse).nrNonzeros] }
  := by
  unfold finishUpdate?
  rw [EtaFile.commit?_of_staged h]
  cases (if flip then column.negate else column).invert? with
  | none => rfl
  | some inverse =>
      rw [Option.map_some, Option.map_some, Option.bind_eq_bind, Option.bind_some]
      dsimp only
      rw [if_pos rfl, form.file.pivot?_append inverse]
      rfl

/-- The staged column is committed and counted, if there is one. -/
theorem finishUpdate?_spec {flip : Bool} {finished : Outcome (ProductForm F) Bool}
    (h : form.finishUpdate? flip = some finished) :
  (form.file.staged = none ∧ finished.result = false ∧ finished.state = form)
    ∨ ∃ column inverse, form.file.staged = some column
      ∧ (if flip then column.negate else column).invert? = some inverse
      ∧ finished.result = true
      ∧ finished.state = form.extended inverse
  := by
  cases hstaged : form.file.staged with
  | none =>
      rw [finishUpdate?_of_staged_eq_none hstaged] at h
      cases h
      exact Or.inl ⟨rfl, rfl, rfl⟩
  | some column =>
      rw [finishUpdate?_of_staged hstaged] at h
      obtain ⟨inverse, hinverse, rfl⟩ := Option.map_eq_some_iff.mp h
      exact Or.inr ⟨column, inverse, rfl, hinverse, rfl, rfl⟩

/-- A form that commits nothing has no staged column, and is left as it is. -/
theorem finishUpdate?_of_result_false {flip : Bool} {finished : Outcome (ProductForm F) Bool}
    (h : form.finishUpdate? flip = some finished) (hresult : finished.result = false) :
  form.file.staged = none ∧ finished.state = form
  := by
  rcases finishUpdate?_spec h with ⟨hstaged, -, hstate⟩ | ⟨_, _, -, -, hdone, -⟩
  · exact ⟨hstaged, hstate⟩
  · rw [hdone] at hresult
    cases hresult

omit [Scalar F] in
/-- Without a watch on the time a factorization is due when it is forced or the cap is reached, and
asking for it changes nothing. -/
theorem mustRefactorize_eq (h : context.policy.timed = false) (elapsed : ℕ)
    (form : ProductForm F) :
  form.mustRefactorize context elapsed
    = (form.forced || decide (context.policy.pivotCap ≤ form.pivots), form)
  := by
  obtain ⟨nrRows, file, pivots, forced, clock, statistics⟩ := form
  cases forced with
  | true => rfl
  | false =>
      unfold mustRefactorize RefactorizationClock.shouldRefactorize
      by_cases hcap : context.policy.pivotCap ≤ pivots
      · simp [hcap]
      · simp [hcap, h]

omit [Scalar F] in
/-- A factorization that is not due is not forced, and the cap is not reached. -/
theorem lt_pivotCap_of_mustRefactorize {elapsed : ℕ}
    (h : (form.mustRefactorize context elapsed).1 = false) :
  form.forced = false ∧ form.pivots < context.policy.pivotCap
  := by
  unfold mustRefactorize at h
  split at h
  · cases h
  · rename_i hforced
    use Bool.eq_false_iff.mpr hforced
    by_contra hcap
    unfold RefactorizationClock.shouldRefactorize at h
    rw [if_pos (not_lt.mp hcap)] at h
    cases h

omit [Scalar F] in
/-- Asking whether a factorization is due changes at most the clock. -/
theorem mustRefactorize_snd (context : Context F) (elapsed : ℕ) (form : ProductForm F) :
  ∃ clock, (form.mustRefactorize context elapsed).2 = { form with clock }
  := by
  unfold mustRefactorize
  split
  · exact ⟨_, rfl⟩
  · exact ⟨_, rfl⟩

end ProductForm

end RevisedSimplex
