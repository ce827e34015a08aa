import RevisedSimplex.Proofs.BoundTests
import RevisedSimplex.Proofs.Moves

/-!
# Moving along edges

When a nonbasic variable moves by a step and the basic variables follow along its solved column,
the equations go on to hold.  A bound flip is such a move as long as the step has the direction
that leads from the one bound to the other.  An exchange is such a move as long as the leaving
variable has come to rest at one of its bounds exactly, since its value is read off that bound
from then on.
-/

open Matrix

namespace RevisedSimplex

variable {F : Type} [ExactScalar F]

namespace Iterate

variable {model : Model F} {iterate after : Iterate F} {form later : ProductForm F}
  {context : Context F} {tolerances : Tolerances F} {entering leaving row : ℕ}
  {theta step range : F} {bounds : Bounds F}

/-! ### Loaded columns -/

/-- The pivot column is the solved column of a nonbasic variable. -/
structure Loaded (model : Model F) (form : ProductForm F) (entering : ℕ) (iterate : Iterate F) :
    Prop where
  nonbasic : iterate.basis.isNonbasic entering = true
  column : iterate.pivotColumn.entries (model.nrRows + 1)
    = form.file.matrix (model.nrRows + 1) *ᵥ model.vector entering

/-- Only a nonbasic variable can have its column loaded. -/
theorem isNonbasic_of_loadColumn? {loaded : Iterate F}
    (h : iterate.loadColumn? context model form entering = some loaded) :
  iterate.basis.isNonbasic entering = true
  := (loadColumn?_spec h).1

/-- Loading a column leaves everything else as it is. -/
theorem Represented.loadColumn?_eq (h : iterate.Represented model form)
    (hdrop : context.tolerances.drop = 0)
    (hentering : iterate.basis.isNonbasic entering = true) :
  ∃ pivotColumn,
    iterate.loadColumn? context model form entering = some { iterate with pivotColumn }
      ∧ Represented model form { iterate with pivotColumn }
      ∧ Loaded model form entering { iterate with pivotColumn }
  := by
  have hlt : entering < model.nrVariables := by
    rw [← h.sized.nrVariables]
    apply (Basis.isNonbasic_iff.mp hentering).1
  obtain ⟨column, hcolumn, hordered, hbound⟩ := model.column?_eq hlt
  obtain ⟨dense, hdense, hlength, hentries⟩ := SparseVector.toDense?_eq hordered hbound
  obtain ⟨solved, hsolved, hsolvedLength, hsolvedEntries⟩ :=
    ProductForm.ftran?_eq hdrop h.inverse.size h.inverse.fits hlength
  refine ⟨solved, ?_, ⟨⟨h.sized.nrRows, h.sized.nrVariables, h.sized.values, hsolvedLength⟩,
    h.inverse⟩, hentering, ?_⟩
  · unfold loadColumn?
    rw [if_pos hentering, hcolumn, Option.bind_eq_bind, Option.bind_some, h.sized.pivotColumn,
      hdense, Option.bind_eq_bind, Option.bind_some]
    change (form.ftran? context dense).bind _ = _
    rw [hsolved]
    rfl
  · change solved.entries (model.nrRows + 1) = _
    rw [hsolvedEntries, hentries]
    unfold Model.vector
    rw [hcolumn]
    rfl

/-- The equations hold all along the edge. -/
theorem Exact.solves_alongEdge (h : iterate.Exact model form)
    (hloaded : iterate.Loaded model form entering) (theta : F) :
  model.Solves (iterate.alongEdge model entering theta)
  := by
  have hdifference :
      model.combination (iterate.alongEdge model entering theta - iterate.point model) = 0 := by
    rw [h.sized.combination_eq]
    have hpositions : ∑ i : Fin (model.nrRows + 1),
        (iterate.alongEdge model entering theta - iterate.point model)
            (iterate.basis.owners[i.val]?.getD 0)
          • ProductForm.basisColumns model iterate.basis.owners i
        = -theta • model.vector entering := by
      rw [← h.inverse.sum_smul (model.vector entering), ← hloaded.column, Finset.smul_sum]
      apply Finset.sum_congr rfl
      intro i _
      rw [Pi.sub_apply, alongEdge_of_variableAt? (h.sized.variableAt?_eq i), smul_smul,
        sub_sub_cancel_left, neg_mul]
      rfl
    have hnonbasic : (iterate.basis.nonbasic.map fun v =>
        (iterate.alongEdge model entering theta - iterate.point model) v
          • model.vector v).sum = theta • model.vector entering := by
      rw [← List.sum_toFinset _ iterate.basis.nodup_nonbasic, Finset.sum_eq_single entering]
      · rw [Pi.sub_apply, alongEdge_entering hloaded.nonbasic, add_sub_cancel_left]
      · intro v hv hne
        rw [Pi.sub_apply, alongEdge_of_isNonbasic (Basis.mem_nonbasic.mp (List.mem_toFinset.mp hv))
          hne, sub_self, zero_smul]
      · intro hnot
        exfalso
        apply hnot
        apply List.mem_toFinset.mpr (Basis.mem_nonbasic.mpr hloaded.nonbasic)
    rw [hpositions, hnonbasic, neg_smul, neg_add_cancel]
  rw [Model.combination_sub] at hdifference
  have hequal := sub_eq_zero.mp hdifference
  unfold Model.Solves
  rw [hequal]
  apply h.solves

/-! ### Bound flips -/

/-- A step that is at least as long as the range, cut off at the other bound. -/
theorem step_eq_direction_mul {direction length range : F} (hunit : |direction| = 1)
    (hnonneg : 0 ≤ range) (htheta : theta = direction * length) (hlength : range ≤ length) :
  (if theta < 0 then -range else range) = direction * range
  := by
  rw [htheta]
  rcases (abs_eq zero_le_one).mp hunit with rfl | rfl
  · rw [if_neg]
    · rw [one_mul]
    · rw [one_mul, not_lt]
      linarith
  · rw [neg_one_mul, neg_one_mul]
    split
    · rfl
    · linarith

/-- A bound flip takes the entering variable over its range. -/
theorem Flipped.point_entering (h : iterate.Flipped model entering step after)
    (hsized : iterate.Sized model) (hbounds : model.bounds? entering = some bounds)
    (hrange : bounds.range? = some range) {side : Side}
    (hside : iterate.restingSide? model entering = some (some side)) :
  after.point model entering = iterate.point model entering + side.direction * range
  := by
  obtain ⟨stored, hstored, hother⟩ := h.side
  obtain ⟨hresting, hvalue⟩ := Bounds.restingValue_other stored hrange
  have hsame : side = stored := by
    rw [restingSide?_eq hbounds hstored, hresting, Option.some_inj, Option.some_inj] at hside
    apply hside.symm
  have hnonbasic : after.basis.isNonbasic entering = true := by
    apply Basis.isNonbasic_iff.mpr
    rw [h.owners, h.sized.nrVariables, ← hsized.nrVariables]
    apply Basis.isNonbasic_iff.mp h.nonbasic
  rw [h.sized.point_of_side? hnonbasic hbounds hother,
    hsized.point_of_side? h.nonbasic hbounds hstored, hvalue, hsame]

/-- The form of the basis is that of the basis after a bound flip. -/
theorem Flipped.represented (h : iterate.Flipped model entering step after)
    (hrepresented : iterate.Represented model form) :
  after.Represented model form
  := by
  refine ⟨h.sized, ?_⟩
  rw [h.owners]
  apply hrepresented.inverse

/-- A bound flip in the direction that leads to the other bound. -/
theorem Flipped.exact (h : iterate.Flipped model entering step after)
    (hexact : iterate.Exact model form) (hloaded : iterate.Loaded model form entering)
    (hbounds : model.bounds? entering = some bounds) (hrange : bounds.range? = some range)
    {side : Side} (hside : iterate.restingSide? model entering = some (some side))
    (hstep : step = side.direction * range) :
  after.Exact model form
  := by
  refine ⟨h.represented hexact.toRepresented, ?_⟩
  apply (hexact.solves_alongEdge hloaded step).congr
  intro v hv
  by_cases hne : v = entering
  · rw [hne, h.point_entering hexact.sized hbounds hrange hside,
      alongEdge_entering hloaded.nonbasic, hstep]
  · apply h.point v hv hne

/-! ### Exchanges -/

/-- The form after the update is that of the basis after the exchange. -/
theorem Exchanged.represented
    (h : iterate.Exchanged tolerances model row entering theta leaving bounds after)
    (hrepresented : iterate.Represented model form) {i : Fin (model.nrRows + 1)}
    (hi : i.val = row) (hlater : later.IsInverse (Function.update
      (ProductForm.basisColumns model iterate.basis.owners) i (model.vector entering))) :
  after.Represented model later
  := by
  refine ⟨h.sized, ?_⟩
  rw [h.owners, ← hi, ProductForm.basisColumns_set]
  · apply hlater
  · rw [Basis.length_owners, hrepresented.sized.nrRows]

/-- An exchange that follows an accepted update commits the form of the new basis. -/
theorem Represented.exchanged (h : iterate.Represented model form)
    (hloaded : iterate.Loaded model form entering)
    {prepared : Outcome (ProductForm F) (Except Error F)} {pivot : F}
    (hprepared : form.prepareUpdate? context row entering iterate.pivotColumn = some prepared)
    (hok : prepared.result = .ok pivot) {finished : Outcome (ProductForm F) Bool}
    (hfinished : prepared.state.finishUpdate? false = some finished)
    (hafter : iterate.exchange? tolerances model row entering theta = some after) :
  after.Represented model finished.state
    ∧ ∃ leaving bounds, iterate.Exchanged tolerances model row entering theta leaving bounds after
  := by
  obtain ⟨i, hi, -, -, -, hcommitted⟩ :=
    h.inverse.update hloaded.column.symm hprepared hok false
  obtain ⟨-, -, hlater⟩ := hcommitted finished hfinished
  obtain ⟨leaving, bounds, hexchanged⟩ := h.sized.exchanged hafter
  exact ⟨hexchanged.represented h hi hlater, leaving, bounds, hexchanged⟩

/-- An exchange after which the leaving variable is exactly at the bound that it is put to. -/
theorem Exchanged.exact
    (h : iterate.Exchanged tolerances model row entering theta leaving bounds after)
    (hexact : iterate.Exact model form) (hloaded : iterate.Loaded model form entering)
    (hlater : after.Represented model later)
    (hbound : bounds.at? (bounds.closestSide tolerances.primal
        (iterate.alongEdge model entering theta leaving))
      = some (iterate.alongEdge model entering theta leaving)) :
  after.Exact model later
  := by
  refine ⟨hlater, ?_⟩
  apply (hexact.solves_alongEdge hloaded theta).congr
  intro v hv
  by_cases hne : v = leaving
  · rw [hne, h.sized.point_of_side? h.isNonbasic_leaving h.bounds_eq h.side,
      Bounds.restingValue_of_at? hbound]
  · apply h.point v hv hne

end Iterate

end RevisedSimplex
