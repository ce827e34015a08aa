import RevisedSimplex.Proofs.InverseForm
import RevisedSimplex.Proofs.IterateSizes

/-!
# Iterations that are refused

An iteration has two exits with an error: a bound flip of a variable without a finite range, and an
exchange while no column is staged.  The second one is taken after the factorization was asked to
commit.  Through both of them the iterate and the factorization come back as they went in.

An iteration that is carried out changes one of the two sides only as far as it has to.  A bound
flip leaves the factorization and the positions of the basis alone, and an exchange commits the
staged column, and no other one.
-/

namespace RevisedSimplex

variable {F : Type} [Scalar F]

namespace Iterate

variable {iterate after : Iterate F} {tolerances : Tolerances F} {context : Context F}
  {model : Model F} {form : ProductForm F} {leavingRow : Option ℕ} {row entering : ℕ}
  {theta range : F} {primal : Bool}
  {performed : Outcome (Iterate F × ProductForm F) (Except Error IterationKind)}

/-! ### Steps -/

/-- The after-state of a bound flip.  Only the values, the side of the entering variable and the
count of flips are others. -/
structure FlipsOnly (iterate : Iterate F) (entering : ℕ) (after : Iterate F) : Prop where
  owners : after.basis.owners = iterate.basis.owners
  sides : ∀ v ≠ entering, after.basis.side? v = iterate.basis.side? v
  pivotColumn : after.pivotColumn = iterate.pivotColumn
  current : after.current = iterate.current
  majorPivots : after.majorPivots = iterate.majorPivots
  boundFlips : after.boundFlips = iterate.boundFlips + 1

theorem flipsOnly_of_flip? (h : iterate.flip? entering theta range = some after) :
  iterate.FlipsOnly entering after
  := by
  obtain ⟨values, basis, -, hbasis, rfl⟩ := flip?_spec h
  obtain ⟨stored, -, -, howners, hsides⟩ := Basis.flip?_eq hbasis
  refine ⟨howners, ?_, rfl, rfl, rfl, rfl⟩
  intro v hv
  unfold BasisTable.side?
  rw [hsides, List.getElem?_set_ne hv.symm]

/-- The after-state of an exchange.  The entering variable has the place of one other variable, and
beside the basis only the values and the count of major pivots are others. -/
structure ExchangesOnly (iterate : Iterate F) (row entering : ℕ) (after : Iterate F) : Prop where
  owners : after.basis.owners = iterate.basis.owners.set row entering
  pivotColumn : after.pivotColumn = iterate.pivotColumn
  current : after.current = iterate.current
  majorPivots : after.majorPivots = iterate.majorPivots + 1
  boundFlips : after.boundFlips = iterate.boundFlips

theorem exchangesOnly_of_exchange?
    (h : iterate.exchange? tolerances model row entering theta = some after) :
  iterate.ExchangesOnly row entering after
  := by
  obtain ⟨_, _, _, _, exchanged, _, basis, _, -, -, -, hexchanged, -, hbasis, -, rfl⟩ :=
    exchange?_spec h
  obtain ⟨-, -, howners, -⟩ := Basis.exchange?_setSide?_eq hexchanged hbasis
  exact ⟨howners, rfl, rfl, rfl, rfl⟩

/-! ### Exits -/

/-- A bound flip without a finite range is refused before anything is changed. -/
theorem perform?_of_unbounded (hcurrent : iterate.current = true)
    (hflip : isBoundFlip? context.tolerances model leavingRow entering theta primal = some true)
    {bounds : Bounds F} (hbounds : model.bounds? entering = some bounds)
    (hrange : bounds.finiteRange? = none) :
  iterate.perform? context model form leavingRow entering theta primal
    = some { result := .error (.unboundedFlip entering), state := (iterate, form) }
  := by
  unfold perform?
  rw [hcurrent, hflip, Option.bind_eq_bind, Option.bind_some, hbounds]
  simp [hrange]

/-- An exchange without a staged column is refused, and the factorization that was asked to commit
is the same. -/
theorem perform?_of_unstaged (hcurrent : iterate.current = true)
    (hflip : isBoundFlip? context.tolerances model leavingRow entering theta primal = some false)
    (hstaged : form.file.staged = none) :
  iterate.perform? context model form leavingRow entering theta primal
    = some { result := .error .noStagedColumn, state := (iterate, form) }
  := by
  have hfinished : BasisFactorization.finishUpdate? false form
      = some { result := false, state := form } :=
    ProductForm.finishUpdate?_of_staged_eq_none hstaged false
  cases leavingRow with
  | none => cases hflip
  | some row =>
      unfold perform?
      rw [hcurrent, hflip, Option.bind_eq_bind, Option.bind_some]
      simp [hfinished]

/-- An iteration that has a result started from a current iterate. -/
theorem current_of_perform?
    (h : iterate.perform? context model form leavingRow entering theta primal = some performed) :
  iterate.current = true
  := by
  unfold perform? at h
  split at h
  · cases h
  · rename_i hcurrent
    simpa using hcurrent

/-- An iteration that is refused changes nothing and reports nothing.  It is a bound flip without a
finite range, or an exchange without a staged column. -/
theorem perform?_of_error
    (h : iterate.perform? context model form leavingRow entering theta primal = some performed)
    {e : Error} (he : performed.result = .error e) :
  performed.state = (iterate, form) ∧ performed.events = []
    ∧ ((e = .unboundedFlip entering
        ∧ isBoundFlip? context.tolerances model leavingRow entering theta primal = some true
        ∧ ∃ bounds, model.bounds? entering = some bounds ∧ bounds.finiteRange? = none)
      ∨ (e = .noStagedColumn
        ∧ isBoundFlip? context.tolerances model leavingRow entering theta primal = some false
        ∧ form.file.staged = none))
  := by
  have hcurrent := current_of_perform? h
  rcases perform?_cases h with ⟨hflip, bounds, hbounds, ⟨_, _, -, -, hok, -⟩ | ⟨hrange, -, -⟩⟩
    | ⟨hflip, _, finished, -, hfinished, ⟨-, _, -, hok, -⟩ | ⟨hdone, -, -⟩⟩
  · rw [hok] at he
    cases he
  · rw [perform?_of_unbounded hcurrent hflip hbounds hrange, Option.some_inj] at h
    rw [← h] at he ⊢
    cases he
    exact ⟨rfl, rfl, Or.inl ⟨rfl, hflip, bounds, hbounds, hrange⟩⟩
  · rw [hok] at he
    cases he
  · obtain ⟨hstaged, -⟩ := ProductForm.finishUpdate?_of_result_false hfinished hdone
    rw [perform?_of_unstaged hcurrent hflip hstaged, Option.some_inj] at h
    rw [← h] at he ⊢
    cases he
    exact ⟨rfl, rfl, Or.inr ⟨rfl, hflip, hstaged⟩⟩

/-- A bound flip does not touch the factorization. -/
theorem perform?_of_boundFlip
    (h : iterate.perform? context model form leavingRow entering theta primal = some performed)
    (hflip : performed.result = .ok .boundFlip) :
  performed.state.2 = form ∧ iterate.FlipsOnly entering performed.state.1
  := by
  rcases perform?_cases h with ⟨-, _, -, ⟨_, after, -, hafter, -, hstate⟩ | ⟨-, hresult, -⟩⟩
    | ⟨-, _, _, -, -, ⟨-, _, -, hresult, -⟩ | ⟨-, hresult, -⟩⟩
  · rw [hstate]
    exact ⟨rfl, flipsOnly_of_flip? hafter⟩
  all_goals
    rw [hflip] at hresult
    cases hresult

/-- A major pivot commits the staged column. -/
theorem perform?_of_majorPivot
    (h : iterate.perform? context model form leavingRow entering theta primal = some performed)
    (hmajor : performed.result = .ok .majorPivot) :
  ∃ row staged inverse, leavingRow = some row
    ∧ iterate.ExchangesOnly row entering performed.state.1
    ∧ form.file.staged = some staged ∧ staged.invert? = some inverse
    ∧ performed.state.2 = form.extended inverse
  := by
  rcases perform?_cases h with ⟨-, _, -, ⟨_, _, -, -, hresult, -⟩ | ⟨-, hresult, -⟩⟩
    | ⟨-, row, finished, hrow, hfinished, ⟨hdone, after, hafter, -, hstate⟩ | ⟨-, hresult, -⟩⟩
  case inr.inl =>
    rcases ProductForm.finishUpdate?_spec hfinished with ⟨-, hnone, -⟩
      | ⟨staged, inverse, hstaged, hinverse, -, hform⟩
    · rw [hdone] at hnone
      cases hnone
    · rw [hstate]
      exact ⟨row, staged, inverse, hrow, exchangesOnly_of_exchange? hafter, hstaged, hinverse, hform⟩
  all_goals
    rw [hmajor] at hresult
    cases hresult

/-- An iteration is carried out, or it is refused and changes nothing.

A bound flip without a finite range and an exchange without a staged column are refused, and
nothing else is.  A bound flip that is carried out keeps the factorization, and every variable
keeps its position.  An exchange commits the inverse of the staged column behind the columns that
were there, and nothing is staged afterwards. -/
theorem perform?_atomic (hcurrent : iterate.current = true) :
  (∀ bounds, isBoundFlip? context.tolerances model leavingRow entering theta primal = some true →
      model.bounds? entering = some bounds → bounds.finiteRange? = none →
      iterate.perform? context model form leavingRow entering theta primal
        = some { result := .error (.unboundedFlip entering), state := (iterate, form) })
    ∧ (isBoundFlip? context.tolerances model leavingRow entering theta primal = some false →
      form.file.staged = none →
      iterate.perform? context model form leavingRow entering theta primal
        = some { result := .error .noStagedColumn, state := (iterate, form) })
    ∧ ∀ performed,
      iterate.perform? context model form leavingRow entering theta primal = some performed →
      (∀ e, performed.result = .error e →
        performed.state = (iterate, form) ∧ performed.events = []
          ∧ ((e = .unboundedFlip entering
              ∧ isBoundFlip? context.tolerances model leavingRow entering theta primal = some true
              ∧ ∃ bounds, model.bounds? entering = some bounds ∧ bounds.finiteRange? = none)
            ∨ (e = .noStagedColumn
              ∧ isBoundFlip? context.tolerances model leavingRow entering theta primal = some false
              ∧ form.file.staged = none)))
      ∧ (performed.result = .ok .boundFlip →
        performed.state.2 = form ∧ iterate.FlipsOnly entering performed.state.1)
      ∧ (performed.result = .ok .majorPivot → ∃ row staged inverse, leavingRow = some row
        ∧ iterate.ExchangesOnly row entering performed.state.1
        ∧ form.file.staged = some staged ∧ staged.invert? = some inverse
        ∧ performed.state.2 = form.extended inverse
        ∧ performed.state.2.file.columns = form.file.columns ++ [inverse]
        ∧ performed.state.2.file.nrColumns = form.file.nrColumns + 1
        ∧ performed.state.2.file.staged = none)
  := by
  refine ⟨?_, perform?_of_unstaged hcurrent, ?_⟩
  · intro bounds hflip hbounds hrange
    apply perform?_of_unbounded hcurrent hflip hbounds hrange
  intro performed h
  refine ⟨fun e => perform?_of_error h, perform?_of_boundFlip h, ?_⟩
  intro hmajor
  obtain ⟨row, staged, inverse, hrow, hexchanges, hstaged, hinverse, hform⟩ :=
    perform?_of_majorPivot h hmajor
  refine ⟨row, staged, inverse, hrow, hexchanges, hstaged, hinverse, hform, ?_⟩
  rw [hform]
  exact ⟨form.file.columns_append inverse, form.file.nrColumns_append inverse,
    form.file.staged_append inverse⟩

/-- From the slack basis the first structural variable cannot be flipped, and cannot enter before
its column is staged. -/
theorem perform?_atomic_sample :
  ∃ (iterate : Iterate ℚ) (form : ProductForm ℚ) (column : EtaColumn ℚ)
      (performed : Outcome (Iterate ℚ × ProductForm ℚ) (Except Error IterationKind)),
    iterate.current = true ∧ iterate.basis.isNonbasic 3 = true
      ∧ iterate.perform? Context.sample Model.sample form none 3 1 true
        = some { result := .error (.unboundedFlip 3), state := (iterate, form) }
      ∧ iterate.perform? Context.sample Model.sample form (some 1) 3 1 false
        = some { result := .error .noStagedColumn, state := (iterate, form) }
      ∧ iterate.perform? Context.sample Model.sample { form with file := form.file.stage column }
          (some 1) 3 1 false = some performed
      ∧ performed.result = .ok .majorPivot
      ∧ performed.state.2.file.nrColumns = form.file.nrColumns + 1
      ∧ performed.state.2.file.staged = none
  := by
  let iterate : Iterate ℚ :=
    { basis := .slack Model.sample, values := [0, 4, 6], pivotColumn := [1, 2, 1], current := true }
  let form : ProductForm ℚ := .identity 2
  let column : EtaColumn ℚ := ⟨1, 3, [(0, 1), (2, 1)], 2⟩
  let staged : ProductForm ℚ := { form with file := form.file.stage column }
  have hcurrent : iterate.current = true := rfl
  have hunbounded : iterate.perform? Context.sample Model.sample form none 3 1 true
      = some { result := .error (.unboundedFlip 3), state := (iterate, form) } :=
    (perform?_atomic hcurrent).1 (.atLeast 0) rfl rfl rfl
  have hunstaged : iterate.perform? Context.sample Model.sample form (some 1) 3 1 false
      = some { result := .error .noStagedColumn, state := (iterate, form) } :=
    (perform?_atomic hcurrent).2.1 rfl rfl
  have hperforms : ((iterate.perform? Context.sample Model.sample staged (some 1) 3 1 false).bind
      fun performed => performed.result.toOption) = some .majorPivot := by
    decide +kernel
  obtain ⟨performed, hperformed, hkind⟩ := Option.bind_eq_some_iff.mp hperforms
  have hmajor : performed.result = .ok .majorPivot := eq_ok_of_toOption hkind
  obtain ⟨_, _, _, -, -, -, -, -, -, hcount, hnone⟩ :=
    ((perform?_atomic hcurrent).2.2 performed hperformed).2.2 hmajor
  refine ⟨iterate, form, column, performed, hcurrent, ?_, hunbounded, hunstaged, hperformed, hmajor,
    hcount, hnone⟩
  decide

end Iterate

end RevisedSimplex
