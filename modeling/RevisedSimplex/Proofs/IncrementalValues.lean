import RevisedSimplex.Proofs.Edges
import RevisedSimplex.Proofs.Refactorizations
import RevisedSimplex.Proofs.SolverProgress

/-!
# Incremental values

An iteration does not solve for the values again, it subtracts a multiple of the pivot column from
them.  What it comes to is what solving from scratch would have found.

For a bound flip this needs that the step leads away from the bound at which the entering variable
rests, since the flip goes to the other bound whatever the step is.  For an exchange it needs
nothing, as long as the leaving variable is held at the value with which it has left.  The side
that is stored for it is that of the nearest bound, and so its value is read off this bound from
then on: it is the same value if the step has ended there.
-/

namespace RevisedSimplex

variable {F : Type} [ExactScalar F]

/-! ### Held variables -/

/-- A variable can be held at any value. -/
theorem Model.exists_setBounds {model : Model F} {v : ℕ} (hv : v ≠ 0)
    (hlt : v < model.nrVariables) (value : F) :
  ∃ bounds hlength, model.setBounds v (.value value) (.value value)
      = .ok { model with bounds, bounds_length := hlength }
    ∧ (Bounds.free :: bounds)[v]? = some (.between value value le_rfl)
    ∧ ∀ w ≠ v, (Bounds.free :: bounds)[w]? = model.bounds? w
  := by
  obtain ⟨k, rfl⟩ := Nat.exists_eq_succ_of_ne_zero hv
  have hlength := model.bounds_length
  have hk : k < model.bounds.length := by
    unfold nrVariables nrRows nrColumns at hlt
    omega
  refine ⟨model.bounds.set k (.between value value le_rfl), by rw [List.length_set, hlength], ?_,
    ?_, ?_⟩
  · unfold setBounds
    rw [if_neg (by omega)]
    simp [boundsFor, Bounds.ofEndpoints?]
    rfl
  · rw [List.getElem?_cons_succ, List.getElem?_set_self hk]
  · intro w hw
    unfold bounds?
    cases w with
    | zero => rfl
    | succ j =>
        rw [List.getElem?_cons_succ, List.getElem?_cons_succ, List.getElem?_set_ne]
        omega

namespace Iterate

variable {context : Context F} {model : Model F} {form later : ProductForm F}
  {iterate after : Iterate F} {row entering leaving : ℕ} {theta : F} {bounds : Bounds F}

/-- The values of an iterate are those from scratch: the exact solution for the values of its
nonbasic variables, and what is found by solving, but for the values that are zeroed then. -/
structure FromScratch (context : Context F) (model : Model F) (form : ProductForm F)
    (iterate : Iterate F) : Prop extends Exact model form iterate where
  recomputed : iterate.recompute? context model form
    = some { iterate with
      values := DenseVector.roundAbsolute context.tolerances.primal iterate.values }

theorem Exact.fromScratch (h : iterate.Exact model form)
    (hdrop : context.tolerances.drop = 0) :
  iterate.FromScratch context model form
  := ⟨h, h.recompute?_eq hdrop⟩

/-- After an exchange the values are those from scratch for the model in which the leaving variable
is held where it has left. -/
theorem Exchanged.fromScratch_held {tolerances : Tolerances F}
    (h : iterate.Exchanged tolerances model row entering theta leaving bounds after)
    (hexact : iterate.Exact model form) (hloaded : iterate.Loaded model form entering)
    (hlater : after.Represented model later) (hdrop : context.tolerances.drop = 0) :
  ∃ held, model.setBounds leaving
      (.value (iterate.alongEdge model entering theta leaving))
      (.value (iterate.alongEdge model entering theta leaving)) = .ok held
    ∧ after.FromScratch context held later
  := by
  have hlt := Model.lt_of_bounds? h.bounds_eq
  obtain ⟨list, hlength, hset, hleaving, hothers⟩ :=
    Model.exists_setBounds h.leaving_ne_zero hlt (iterate.alongEdge model entering theta leaving)
  refine ⟨_, hset, Exact.fromScratch ?_ hdrop⟩
  let held : Model F := { model with bounds := list, bounds_length := hlength }
  have hrepresented : after.Represented held later :=
    ⟨⟨hlater.sized.nrRows, hlater.sized.nrVariables, hlater.sized.values,
      hlater.sized.pivotColumn⟩, hlater.inverse⟩
  have hsolves : held.Solves (iterate.alongEdge model entering theta) :=
    hexact.solves_alongEdge hloaded theta
  refine ⟨hrepresented, hsolves.congr ?_⟩
  intro v hv
  by_cases hne : v = leaving
  · rw [hne, hrepresented.sized.point_of_side? h.isNonbasic_leaving hleaving h.side]
    apply Bounds.restingValue_of_at?
    cases bounds.closestSide tolerances.primal _ <;> rfl
  · rw [← h.point v hv hne]
    have hsame : held.bounds? v = model.bounds? v := hothers v hne
    unfold Iterate.point value? restingValue?
    rw [hsame]

/-! ### Iterations -/

/-- The step of a bound flip that leads away from the bound at which a variable rests. -/
theorem flipStep_eq {range : F} {side : Side} (h : (theta < 0 ↔ side = .upper) ∨ range = 0) :
  (if theta < 0 then -range else range) = side.direction * range
  := by
  rcases h with h | rfl
  · cases side with
    | lower =>
        rw [if_neg fun hlt => by cases h.mp hlt]
        apply (one_mul range).symm
    | upper =>
        rw [if_pos (h.mpr rfl)]
        apply (neg_one_mul range).symm
  · rw [neg_zero, ite_self, mul_zero]

/-- Iterations refine solving from scratch.

Let the values of an iterate be exact and the solved column of a nonbasic variable be loaded, in
exact numbers without a drop tolerance.

A bound flip, with a step that leads away from the bound at which the entering variable rests or
over a range of zero, leaves the factorization as it is, and the values are those from scratch
again.

An exchange for which the column was staged commits a factorization that represents the new basis.
The values are those from scratch for the model in which the leaving variable is held at the value
`w` that it has at the end of the step.  If this variable is not fixed, the side that is stored for
it is that of a bound nearest to `w`.  If `w` is the bound on the stored side, the values are those
from scratch for the model itself. -/
theorem Exact.perform?_fromScratch (h : iterate.Exact model form)
    (hcurrent : iterate.current = true) (hdrop : context.tolerances.drop = 0)
    (hloaded : iterate.Loaded model form entering) (theta : F) (primal : Bool) :
  (∀ leavingRow bounds range side,
      isBoundFlip? context.tolerances model leavingRow entering theta primal = some true →
      model.bounds? entering = some bounds → bounds.finiteRange? = some range →
      iterate.restingSide? model entering = some (some side) →
      (theta < 0 ↔ side = .upper) ∨ range = 0 →
      ∃ performed after,
        iterate.perform? context model form leavingRow entering theta primal = some performed
          ∧ performed.result = .ok .boundFlip ∧ performed.state = (after, form)
          ∧ iterate.Flipped model entering (side.direction * range) after
          ∧ after.FromScratch context model form)
    ∧ ∀ row prepared pivot,
      form.prepareUpdate? context row entering iterate.pivotColumn = some prepared →
      prepared.result = .ok pivot →
      isBoundFlip? context.tolerances model (some row) entering theta primal = some false →
      (pivot ≠ 0 → ∃ performed, iterate.perform? context model prepared.state (some row) entering
        theta primal = some performed)
      ∧ ∀ performed,
        iterate.perform? context model prepared.state (some row) entering theta primal
          = some performed →
        ∃ after later leaving bounds value w, performed.result = .ok .majorPivot
          ∧ performed.state = (after, later)
          ∧ iterate.Exchanged context.tolerances model row entering theta leaving bounds after
          ∧ after.Represented model later
          ∧ iterate.values[row]? = some value ∧ w = value - theta * pivot
          ∧ (∃ held, model.setBounds leaving (.value w) (.value w) = .ok held
            ∧ after.FromScratch context held later)
          ∧ ∃ stored, after.basis.side? leaving = some stored
            ∧ (bounds.isFixed context.tolerances.primal = false →
              ∀ side bound, bounds.at? side = some bound →
                ∃ nearest, bounds.at? stored = some nearest ∧ |w - nearest| ≤ |w - bound|)
            ∧ (bounds.at? stored = some w → after.FromScratch context model later)
  := by
  constructor
  · intro leavingRow bounds range side hflip hbounds hrange hside hdirection
    obtain ⟨performed, hperformed, kind, hkind⟩ := h.sized.exists_perform?_flip form hcurrent
      hloaded.nonbasic hflip hbounds ⟨range, hrange⟩
    rcases perform?_cases hperformed with
      ⟨-, other, hother, ⟨length, after, hlength, hafter, hresult, hstate⟩ | ⟨-, herror, -⟩⟩
      | ⟨hnot, -⟩
    · have hsame := Option.some_inj.mp (hother.symm.trans hbounds)
      subst hsame
      have hsame := Option.some_inj.mp (hlength.symm.trans hrange)
      subst hsame
      rw [Bounds.finiteRange?_eq] at hrange
      have hflipped := h.sized.flipped hafter
      rw [flipStep_eq hdirection] at hflipped
      exact ⟨performed, after, hperformed, hresult, hstate, hflipped,
        (hflipped.exact h hloaded hbounds hrange hside rfl).fromScratch hdrop⟩
    · rw [hkind] at herror
      cases herror
    · rw [hflip] at hnot
      cases hnot
  · intro row prepared pivot hprepared hok hflip
    obtain ⟨i, hi, hne, hpivot, hexists, hcommitted⟩ :=
      h.inverse.update hloaded.column.symm hprepared hok false
    constructor
    · intro hnonzero
      obtain ⟨finished, hfinished⟩ := hexists hnonzero
      obtain ⟨-, hdone, -⟩ := hcommitted finished hfinished
      obtain ⟨performed, hperformed, -⟩ := h.sized.exists_perform?_exchange hcurrent
        hloaded.nonbasic hne (by omega) hflip hfinished hdone
      exact ⟨performed, hperformed⟩
    · intro performed hperformed
      rcases perform?_cases hperformed with ⟨hnot, -⟩ | ⟨-, other, finished, hother, hfinished,
        ⟨-, after, hafter, hresult, hstate⟩ | ⟨hrefused, -⟩⟩
      · rw [hflip] at hnot
        cases hnot
      · cases hother
        obtain ⟨hlater, leaving, bounds, hexchanged⟩ :=
          h.toRepresented.exchanged hloaded hprepared hok hfinished hafter
        have hvalue := DenseVector.getElem?_eq_entries h.sized.values i
        have hleft : iterate.alongEdge model entering theta leaving
            = iterate.values.entries (model.nrRows + 1) i - theta * pivot := by
          have hleaves := hexchanged.leaves
          rw [← hi] at hleaves
          rw [alongEdge_of_variableAt? hleaves, point_of_variableAt? hleaves, hpivot]
          rfl
        rw [hi] at hvalue
        refine ⟨after, finished.state, leaving, bounds, _, _, hresult, hstate, hexchanged, hlater,
          hvalue, rfl, ?_⟩
        rw [← hleft]
        refine ⟨hexchanged.fromScratch_held h hloaded hlater hdrop, _, hexchanged.side, ?_, ?_⟩
        · intro hfixed side bound hbound
          apply Bounds.closestSide_nearest hfixed hbound
        · intro hbound
          apply (hexchanged.exact h hloaded hlater hbound).fromScratch hdrop
      · obtain ⟨-, hdone, -⟩ := hcommitted finished hfinished
        rw [hdone] at hrefused
        cases hrefused

/-- The model `x + 2y ≤ 2` in variables between zero and three. -/
def boxed : Model ℚ where
  matrix := ⟨[[(0, 1)], [(0, 2)]], 1, by decide +kernel⟩
  cost := [-1, -4]
  rightHandSide := [2]
  relations := [.less]
  goal := .minimize
  bounds := [.atLeast 0, .between 0 3 (by decide +kernel), .between 0 3 (by decide +kernel)]
  cost_length := rfl
  rightHandSide_length := rfl
  relations_length := rfl
  bounds_length := rfl

/-- From the slack basis `x` can flip to three, and it can go to two and take the place of the slack,
which ends at its bound of zero. -/
theorem Exact.perform?_fromScratch_boxed :
  ∃ (iterate : Iterate ℚ) (form : ProductForm ℚ), iterate.Exact boxed form
    ∧ iterate.current = true ∧ Context.sample.tolerances.drop = 0 ∧ iterate.Loaded boxed form 2
    ∧ (∃ performed after, iterate.perform? Context.sample boxed form none 2 3 true = some performed
      ∧ performed.result = .ok .boundFlip ∧ performed.state = (after, form)
      ∧ after.FromScratch Context.sample boxed form)
    ∧ ∃ prepared performed after later,
      form.prepareUpdate? Context.sample 1 2 iterate.pivotColumn = some prepared
        ∧ iterate.perform? Context.sample boxed prepared.state (some 1) 2 2 true = some performed
        ∧ performed.result = .ok .majorPivot ∧ performed.state = (after, later)
        ∧ after.FromScratch Context.sample boxed later
  := by
  have hsized : Sized boxed (start (Basis.slack boxed)) := ⟨rfl, rfl, rfl, rfl⟩
  have hsize : (ProductForm.identity 1 : ProductForm ℚ).nrRows = boxed.nrRows := rfl
  have hdrop : Context.sample.tolerances.drop = 0 := rfl
  obtain ⟨outcome, houtcome, hrepresented, hcurrent, hsolves, -⟩ :=
    hsized.refactorize?_eq Context.sample_exact hsize
  have hcomputed : (((start (Basis.slack boxed)).refactorize? Context.sample boxed
      (.identity 1 : ProductForm ℚ)).bind fun outcome =>
        (outcome.state.1.loadColumn? Context.sample boxed outcome.state.2 2).bind fun loaded =>
          (outcome.state.2.prepareUpdate? Context.sample 1 2 loaded.pivotColumn).map fun prepared =>
            (loaded.restingSide? boxed 2, loaded.basis.variableAt? 1, loaded.values[1]?,
              prepared.result.toOption))
      = some (some (some .lower), some 1, some 2, some 1) := by
    decide +kernel
  rw [houtcome, Option.bind_some] at hcomputed
  obtain ⟨loaded, hload, hcomputed⟩ := Option.bind_eq_some_iff.mp hcomputed
  obtain ⟨prepared, hprepared, hcomputed⟩ := Option.map_eq_some_iff.mp hcomputed
  simp only [Prod.mk.injEq] at hcomputed
  obtain ⟨hside, hvariable, hvalue, hpivot⟩ := hcomputed
  obtain ⟨pivotColumn, hsolved, hrepresented, hloaded⟩ :=
    hrepresented.loadColumn?_eq hdrop (isNonbasic_of_loadColumn? hload)
  rw [hload, Option.some_inj] at hsolved
  subst hsolved
  have hexact : Exact boxed outcome.state.2 { outcome.state.1 with pivotColumn } :=
    ⟨hrepresented, hsolves rfl⟩
  have hok : prepared.result = .ok 1 := by
    cases hresult : prepared.result with
    | ok pivot =>
        rw [hresult] at hpivot
        cases hpivot
        rfl
    | error e =>
        rw [hresult] at hpivot
        cases hpivot
  obtain ⟨hflips, -⟩ :=
    Exact.perform?_fromScratch hexact hcurrent hdrop hloaded 3 true
  obtain ⟨-, hexchanges⟩ :=
    Exact.perform?_fromScratch hexact hcurrent hdrop hloaded 2 true
  obtain ⟨flipped, after, hflipped, hflip, hstate, -, hfresh⟩ :=
    hflips none (.between 0 3 (by decide +kernel)) 3 .lower rfl rfl (by decide +kernel) hside
      (Or.inl (by decide))
  obtain ⟨hexists, hexchanged⟩ := hexchanges 1 prepared 1 hprepared hok (by decide +kernel)
  obtain ⟨performed, hperformed⟩ := hexists one_ne_zero
  obtain ⟨next, later, leaving, bounds, value, w, hmajor, hnext, hexchanged, -, hread, rfl, -,
    stored, hstored, -, hlast⟩ := hexchanged performed hperformed
  have hleaving := Option.some_inj.mp (hvariable.symm.trans hexchanged.leaves)
  subst hleaving
  have hbounds := Option.some_inj.mp (hexchanged.bounds_eq.symm.trans
    (show boxed.bounds? 1 = some (.atLeast 0) from rfl))
  subst hbounds
  have hvalue := Option.some_inj.mp (hread.symm.trans hvalue)
  subst hvalue
  refine ⟨_, _, hexact, hcurrent, rfl, hloaded, ⟨flipped, after, hflipped, hflip, hstate, hfresh⟩,
    prepared, performed, next, later, hprepared, hperformed, hmajor, hnext, ?_⟩
  apply hlast
  -- The slack has a lower bound only.
  have hlower : stored = .lower := by
    apply Option.some_inj.mp (hstored.symm.trans (hexchanged.side.trans _))
    unfold Bounds.closestSide
    rw [ite_eq_left_iff.mpr]
    intro _
    rfl
  rw [hlower]
  norm_num [Bounds.at?, Bounds.atLeast]

end Iterate

end RevisedSimplex
