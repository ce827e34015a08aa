import RevisedSimplex.Iterate
import RevisedSimplex.Proofs.AugmentedSystem
import RevisedSimplex.Proofs.BasisPositions
import RevisedSimplex.Proofs.InverseForm
import RevisedSimplex.Proofs.IterateSizes

/-!
# The point of an iterate

An iterate gives every variable a value: a basic variable has that of its position, and a
nonbasic one rests at a bound.  The iterate is `Exact` when the product form is the inverse of its
basis and this point solves the augmented system.  Finding the values from scratch makes an
iterate exact.
-/

open Matrix

namespace RevisedSimplex

variable {F : Type} [ExactScalar F]

namespace Iterate

variable {model : Model F} {iterate : Iterate F} {form : ProductForm F} {context : Context F}
  {v : ℕ}

/-- The value of every variable. -/
def point (model : Model F) (iterate : Iterate F) : ℕ → F :=
  fun v => (iterate.value? model v).getD 0

/-! ### Values -/

/-- The value of a nonbasic variable. -/
theorem Sized.restingValue?_eq (h : iterate.Sized model)
    (hv : iterate.basis.isNonbasic v = true) :
  ∃ bounds stored, model.bounds? v = some bounds ∧ iterate.basis.side? v = some stored
    ∧ iterate.restingValue? model v = some (bounds.restingValue stored)
    ∧ iterate.point model v = bounds.restingValue stored
  := by
  obtain ⟨bounds, stored, hbounds, hstored, hresting⟩ := h.exists_restingValue? hv
  refine ⟨bounds, stored, hbounds, hstored, hresting, ?_⟩
  unfold point
  rw [value?_of_isNonbasic hv, hresting]
  rfl

/-- A nonbasic variable rests at the side that is stored for it. -/
theorem Sized.point_of_side? (h : iterate.Sized model) (hv : iterate.basis.isNonbasic v = true)
    {bounds : Bounds F} {stored : Side} (hbounds : model.bounds? v = some bounds)
    (hstored : iterate.basis.side? v = some stored) :
  iterate.point model v = bounds.restingValue stored
  := by
  obtain ⟨_, _, hbounds', hstored', -, hpoint⟩ := h.restingValue?_eq hv
  rw [hbounds, Option.some_inj] at hbounds'
  rw [hstored, Option.some_inj] at hstored'
  rw [hbounds', hstored', hpoint]

/-- A variable that is nonbasic with the same side in two iterates has the same value in both. -/
theorem Sized.point_congr {other : Iterate F} (h : iterate.Sized model)
    (hother : other.Sized model) (hv : iterate.basis.isNonbasic v = true)
    (hv' : other.basis.isNonbasic v = true)
    (hside : other.basis.side? v = iterate.basis.side? v) :
  other.point model v = iterate.point model v
  := by
  obtain ⟨bounds, stored, hbounds, hstored, -, hpoint⟩ := h.restingValue?_eq hv
  rw [hpoint]
  apply hother.point_of_side? hv' hbounds
  rw [hside, hstored]

/-- Every variable has a value. -/
theorem Sized.value?_eq (h : iterate.Sized model) (hv : v < model.nrVariables) :
  iterate.value? model v = some (iterate.point model v)
  := by
  obtain ⟨x, hx⟩ := h.exists_value? hv
  unfold point
  rw [hx]
  rfl

/-- The variable at a position has the value there. -/
theorem point_of_variableAt? {n : ℕ} {i : Fin n}
    (h : iterate.basis.variableAt? i.val = some v) :
  iterate.point model v = iterate.values.entries n i
  := by
  unfold point DenseVector.entries
  rw [value?_of_variableAt? h]

/-- The objective is minus the value of the dummy. -/
theorem objective_eq (model : Model F) (iterate : Iterate F) :
  iterate.objective = -iterate.point model 0
  := by
  have hdummy : iterate.basis.variableAt? (0 : Fin 1).val = some 0 := Basis.variableAt?_zero _
  unfold objective
  rw [point_of_variableAt? hdummy, DenseVector.headD_eq_entries]

/-- The values by variable, listed. -/
theorem Sized.mapM_value?_eq (h : iterate.Sized model) {list : List ℕ}
    (hlist : ∀ v ∈ list, v < model.nrVariables) :
  list.mapM (iterate.value? model) = some (list.map (iterate.point model))
  := by
  rw [mapM_eq_some_iff, List.map_map]
  apply List.map_congr_left
  intro v hv
  apply h.value?_eq (hlist v hv)

/-! ### Combinations -/

/-- The variables at the positions of a basis of the size of the model. -/
theorem Sized.variableAt?_eq (h : iterate.Sized model) (i : Fin (model.nrRows + 1)) :
  iterate.basis.variableAt? i.val = some (iterate.basis.owners[i.val]?.getD 0)
  := by
  have hi : i.val < iterate.basis.owners.length := by
    rw [Basis.length_owners, h.nrRows]
    apply i.isLt
  rw [Basis.variableAt?_eq, List.getElem?_eq_getElem hi]
  rfl

/-- The columns of the nonbasic variables, multiplied with their values and added up. -/
def nonbasicSum (model : Model F) (iterate : Iterate F) : Fin (model.nrRows + 1) → F :=
  (iterate.basis.nonbasic.map fun v => iterate.point model v • model.vector v).sum

/-- A combination of all columns, split into basic and nonbasic ones. -/
theorem Sized.combination_eq (h : iterate.Sized model) (x : ℕ → F) :
  model.combination x
    = ∑ i : Fin (model.nrRows + 1), x (iterate.basis.owners[i.val]?.getD 0)
        • ProductForm.basisColumns model iterate.basis.owners i
      + (iterate.basis.nonbasic.map fun v => x v • model.vector v).sum
  := by
  have hsize : iterate.basis.nrRows + 1 = model.nrRows + 1 := by
    rw [h.nrRows]
  unfold Model.combination
  rw [← h.nrVariables, Basis.sum_range_eq, Basis.sum_owners hsize]
  rfl

/-- The combination for the point of the iterate. -/
theorem Sized.combination_point (h : iterate.Sized model) :
  model.combination (iterate.point model)
    = ∑ i, iterate.values.entries (model.nrRows + 1) i
        • ProductForm.basisColumns model iterate.basis.owners i
      + iterate.nonbasicSum model
  := by
  rw [h.combination_eq]
  congr 1
  apply Finset.sum_congr rfl
  intro i _
  rw [point_of_variableAt? (h.variableAt?_eq i)]

/-! ### Exact iterates -/

/-- The iterate has the size of the model, and the form is the inverse of its basis. -/
structure Represented (model : Model F) (form : ProductForm F) (iterate : Iterate F) : Prop where
  sized : iterate.Sized model
  inverse : form.IsInverse (ProductForm.basisColumns model iterate.basis.owners)

/-- Besides, the point solves the augmented system. -/
structure Exact (model : Model F) (form : ProductForm F) (iterate : Iterate F) : Prop
    extends Represented model form iterate where
  solves : model.Solves (iterate.point model)

/-- The values are the solution for the values of the nonbasic variables. -/
theorem Represented.solves_iff (h : iterate.Represented model form) :
  model.Solves (iterate.point model)
    ↔ iterate.values.entries (model.nrRows + 1)
      = form.file.matrix (model.nrRows + 1)
        *ᵥ (model.rightHandSideVector - iterate.nonbasicSum model)
  := by
  unfold Model.Solves
  rw [h.sized.combination_point, ← eq_sub_iff_add_eq]
  constructor
  · intro hsum
    rw [← hsum, mulVec_sum]
    funext i
    simp only [mulVec_smul, h.inverse.mulVec, Finset.sum_apply, Pi.smul_apply, smul_eq_mul,
      Pi.single_apply, mul_ite, mul_one, mul_zero]
    rw [Finset.sum_ite_eq, if_pos (Finset.mem_univ i)]
  · intro hvalues
    rw [hvalues, h.inverse.sum_smul]

/-! ### Values from scratch -/

/-- The right hand side of the augmented system. -/
theorem augmentedRightHandSide?_eq (model : Model F) :
  ∃ start, augmentedRightHandSide? model model.nrRows = some start
    ∧ start.length = model.nrRows + 1
    ∧ start.entries (model.nrRows + 1) = model.rightHandSideVector
  := by
  have hlist : (List.range' 1 model.nrRows).mapM model.rightHandSide?
      = some model.rightHandSide := by
    rw [mapM_eq_some_iff]
    apply List.ext_getElem?
    intro i
    have hlength := model.rightHandSide_length
    rw [List.getElem?_map, List.getElem?_map]
    by_cases hi : i < model.nrRows
    · have hb : i < model.rightHandSide.length := by
        rw [hlength]
        apply hi
      rw [List.getElem?_range' hi, List.getElem?_eq_getElem hb]
      have hpos : 1 + 1 * i ≠ 0 := by omega
      have hsub : 1 + 1 * i - 1 = i := by omega
      simp only [Option.map_some, Model.rightHandSide?, hpos, if_false, hsub]
      rw [List.getElem?_eq_getElem hb]
    · have hnone : (List.range' 1 model.nrRows)[i]? = none := by
        rw [List.getElem?_eq_none]
        simpa using hi
      rw [hnone, List.getElem?_eq_none (by rw [hlength]; apply not_lt.mp hi)]
      rfl
  refine ⟨0 :: model.rightHandSide, ?_, ?_, ?_⟩
  · unfold augmentedRightHandSide?
    rw [hlist]
    rfl
  · rw [List.length_cons, model.rightHandSide_length]
    rfl
  · funext i
    refine Fin.cases ?_ ?_ i
    · rfl
    · intro i
      rfl

/-- Moving a nonbasic variable to the right hand side. -/
theorem Sized.moveToRight?_eq (h : iterate.Sized model) (hv : iterate.basis.isNonbasic v = true)
    {vector : DenseVector F} (hvector : vector.length = model.nrRows + 1) :
  ∃ moved, iterate.moveToRight? model vector v = some moved
    ∧ moved.length = model.nrRows + 1
    ∧ moved.entries (model.nrRows + 1)
      = vector.entries (model.nrRows + 1) - iterate.point model v • model.vector v
  := by
  obtain ⟨bounds, stored, -, -, hresting, hpoint⟩ := h.restingValue?_eq hv
  have hlt : v < model.nrVariables := by
    rw [← h.nrVariables]
    apply (Basis.isNonbasic_iff.mp hv).1
  obtain ⟨column, hcolumn, -, hbound⟩ := model.column?_eq hlt
  unfold moveToRight?
  rw [hresting, hpoint, Option.bind_eq_bind, Option.bind_some]
  by_cases hzero : bounds.restingValue stored = 0
  · refine ⟨vector, ?_, hvector, ?_⟩
    · rw [if_pos (by simpa using hzero)]
    · rw [hzero, zero_smul, sub_zero]
  · rw [if_neg (by simpa using hzero), hcolumn]
    obtain ⟨moved, hmoved, hlength, hentries⟩ := SparseVector.foldlM_modify?_eq
      (-bounds.restingValue stored) (fun value x => x - value * bounds.restingValue stored)
      (fun value x => by ring) hbound hvector
    refine ⟨moved, hmoved, hlength, ?_⟩
    rw [hentries, neg_smul, ← sub_eq_add_neg]
    unfold Model.vector
    rw [hcolumn]
    rfl

/-- Moving a list of nonbasic variables to the right hand side, one after the other. -/
theorem Sized.foldlM_moveToRight?_eq (h : iterate.Sized model) :
    ∀ {list : List ℕ} {vector : DenseVector F},
      (∀ v ∈ list, iterate.basis.isNonbasic v = true) → vector.length = model.nrRows + 1 →
      ∃ moved, list.foldlM (iterate.moveToRight? model) vector = some moved
        ∧ moved.length = model.nrRows + 1
        ∧ moved.entries (model.nrRows + 1) = vector.entries (model.nrRows + 1)
          - (list.map fun v => iterate.point model v • model.vector v).sum
  | [], vector, _, hvector => ⟨vector, rfl, hvector, by simp⟩
  | v :: list, vector, hlist, hvector => by
      obtain ⟨hv, hlist⟩ := List.forall_mem_cons.mp hlist
      obtain ⟨next, hnext, hlength, hentries⟩ := h.moveToRight?_eq hv hvector
      obtain ⟨moved, hmoved, hmovedLength, hmovedEntries⟩ :=
        foldlM_moveToRight?_eq h hlist hlength
      refine ⟨moved, ?_, hmovedLength, ?_⟩
      · rw [List.foldlM_cons, hnext]
        apply hmoved
      · rw [hmovedEntries, hentries, List.map_cons, List.sum_cons, sub_sub]

/-- Values that are found from scratch make an iterate exact, but for those that are zeroed. -/
theorem Represented.recompute?_eq (h : iterate.Represented model form)
    (hdrop : context.tolerances.drop = 0) :
  ∃ values, iterate.recompute? context model form
      = some { iterate with
        values := DenseVector.roundAbsolute context.tolerances.primal values }
    ∧ Exact model form { iterate with values }
  := by
  obtain ⟨start, hstart, hstartLength, hstartEntries⟩ := augmentedRightHandSide?_eq model
  obtain ⟨moved, hmoved, hmovedLength, hmovedEntries⟩ :=
    h.sized.foldlM_moveToRight?_eq (fun v hv => Basis.mem_nonbasic.mp hv) hstartLength
  obtain ⟨values, hvalues, hvaluesLength, hvaluesEntries⟩ :=
    ProductForm.ftran?_eq hdrop h.inverse.size h.inverse.fits hmovedLength
  have hrepresented : Represented model form { iterate with values } :=
    ⟨⟨h.sized.nrRows, h.sized.nrVariables, hvaluesLength, h.sized.pivotColumn⟩, h.inverse⟩
  refine ⟨values, ?_, hrepresented, ?_⟩
  · unfold recompute?
    change (do
      let start ← augmentedRightHandSide? model iterate.basis.nrRows
      let moved ← iterate.basis.nonbasic.foldlM (iterate.moveToRight? model) start
      let solved ← form.ftran? context moved
      some { iterate with
        values := DenseVector.roundAbsolute context.tolerances.primal solved }) = _
    simp only [h.sized.nrRows, hstart, hmoved, hvalues, Option.bind_eq_bind, Option.bind_some]
  · apply hrepresented.solves_iff.mpr
    rw [hvaluesEntries, hmovedEntries, hstartEntries]
    congr 3
    apply List.map_congr_left
    intro v hv
    have hnonbasic := Basis.mem_nonbasic.mp hv
    congr 1
    unfold point
    rw [value?_of_isNonbasic hnonbasic, value?_of_isNonbasic (by apply hnonbasic)]
    rfl

/-- The values of an exact iterate are those from scratch. -/
theorem Exact.recompute?_eq (h : iterate.Exact model form)
    (hdrop : context.tolerances.drop = 0) :
  iterate.recompute? context model form
    = some { iterate with
      values := DenseVector.roundAbsolute context.tolerances.primal iterate.values }
  := by
  obtain ⟨values, hvalues, hexact⟩ := h.toRepresented.recompute?_eq hdrop
  have hsum : nonbasicSum model { iterate with values } = iterate.nonbasicSum model := by
    unfold nonbasicSum
    congr 1
    apply List.map_congr_left
    intro v hv
    have hnonbasic := Basis.mem_nonbasic.mp hv
    rw [h.sized.point_congr hexact.sized hnonbasic hnonbasic rfl]
  have hsame : values = iterate.values := by
    apply DenseVector.eq_of_entries_eq hexact.sized.values h.sized.values
    rw [hexact.toRepresented.solves_iff.mp hexact.solves, hsum,
      h.toRepresented.solves_iff.mp h.solves]
  rw [hvalues, hsame]

end Iterate

end RevisedSimplex
