import RevisedSimplex.Proofs.IteratePoint

/-!
# The tableau of a basis

Any solution of the augmented system is determined by the values of the nonbasic variables.  Its
basic variables differ from those of an exact iterate by the differences of the nonbasic ones,
each multiplied with its entry of the tableau, which is the inverse times the column.

Hence two exact iterates with the same basic variables and the same sides have the same point.
-/

open Matrix

namespace RevisedSimplex

namespace Iterate

variable {F : Type} [ExactScalar F] {model : Model F} {iterate other : Iterate F}
  {form later : ProductForm F} {v : ℕ}

/-- The entry of the tableau in the row of a position and the column of a variable. -/
def tableau (model : Model F) (form : ProductForm F) (i : Fin (model.nrRows + 1)) (v : ℕ) : F :=
  (form.file.matrix (model.nrRows + 1) *ᵥ model.vector v) i

/-- The inner product of a row of the inverse with a column is an entry of the tableau. -/
theorem inner?_pivotRow {i : Fin (model.nrRows + 1)} {pivotRow : DenseVector F}
    (hlength : pivotRow.length = model.nrRows + 1)
    (hpivotRow : pivotRow.entries (model.nrRows + 1)
      = Pi.single i 1 ᵥ* form.file.matrix (model.nrRows + 1))
    {column : SparseVector F} (hcolumn : model.column? v = some column) :
  column.inner? pivotRow = some (tableau model form i v)
  := by
  unfold tableau
  rw [Model.inner?_column hcolumn hlength, hpivotRow, dotProduct_comm, ← dotProduct_mulVec,
    single_one_dotProduct]

/-- The basic variables of a solution, by the differences of its nonbasic ones. -/
theorem Exact.solution_at (h : iterate.Exact model form) {y : ℕ → F} (hy : model.Solves y)
    {i : Fin (model.nrRows + 1)} (hv : iterate.basis.variableAt? i.val = some v) :
  y v = iterate.point model v - (iterate.basis.nonbasic.map fun w =>
    tableau model form i w * (y w - iterate.point model w)).sum
  := by
  have howner := h.sized.variableAt?_eq i
  rw [hv, Option.some_inj] at howner
  have hzero : model.combination (y - iterate.point model) = 0 := by
    rw [Model.combination_sub, hy, h.solves, sub_self]
  have hrow := congrFun (congrArg (form.file.matrix (model.nrRows + 1) *ᵥ ·) hzero) i
  rw [h.sized.combination_eq, mulVec_add, mulVec_sum, mulVec_zero] at hrow
  have hbasic : (∑ j : Fin (model.nrRows + 1), form.file.matrix (model.nrRows + 1)
      *ᵥ ((y - iterate.point model) (iterate.basis.owners[j.val]?.getD 0)
        • ProductForm.basisColumns model iterate.basis.owners j)) i
      = y v - iterate.point model v := by
    simp only [mulVec_smul, h.inverse.mulVec, Finset.sum_apply, Pi.smul_apply, smul_eq_mul,
      Pi.single_apply, mul_ite, mul_one, mul_zero]
    rw [Finset.sum_ite_eq, if_pos (Finset.mem_univ i), ← howner]
    rfl
  have hnonbasic : (form.file.matrix (model.nrRows + 1)
      *ᵥ (iterate.basis.nonbasic.map fun w =>
        (y - iterate.point model) w • model.vector w).sum) i
      = (iterate.basis.nonbasic.map fun w =>
        tableau model form i w * (y w - iterate.point model w)).sum := by
    rw [← List.sum_toFinset _ iterate.basis.nodup_nonbasic,
      ← List.sum_toFinset _ iterate.basis.nodup_nonbasic, mulVec_sum, Finset.sum_apply]
    apply Finset.sum_congr rfl
    intro w _
    rw [mulVec_smul, Pi.smul_apply, smul_eq_mul, mul_comm]
    rfl
  rw [Pi.add_apply, hbasic, hnonbasic, Pi.zero_apply] at hrow
  linarith

/-- Exact iterates with the same basic variables and the same sides for the other ones have the same
point. -/
theorem Exact.point_eq (h : iterate.Exact model form) (hother : other.Exact model later)
    (howners : ∀ w, w ∈ other.basis.owners ↔ w ∈ iterate.basis.owners)
    (hsides : ∀ w, iterate.basis.isNonbasic w = true →
      other.basis.side? w = iterate.basis.side? w)
    (hv : v < model.nrVariables) :
  other.point model v = iterate.point model v
  := by
  have hnonbasic (w : ℕ) (hw : iterate.basis.isNonbasic w = true) :
      other.point model w = iterate.point model w := by
    have hw' : other.basis.isNonbasic w = true := by
      rw [Basis.isNonbasic_iff, howners, hother.sized.nrVariables, ← h.sized.nrVariables]
      apply Basis.isNonbasic_iff.mp hw
    apply h.sized.point_congr hother.sized hw hw' (hsides w hw)
  rcases h.sized.position_or_nonbasic hv with ⟨i, hi⟩ | hv
  · rw [h.solution_at hother.solves hi]
    have hsum : (iterate.basis.nonbasic.map fun w => tableau model form i w
        * (other.point model w - iterate.point model w)).sum = 0 := by
      apply List.sum_eq_zero
      intro x hx
      obtain ⟨w, hw, rfl⟩ := List.mem_map.mp hx
      rw [hnonbasic w (Basis.mem_nonbasic.mp hw), sub_self, mul_zero]
    rw [hsum, sub_zero]
  · apply hnonbasic v hv

/-- Exact iterates with the same basic variables have the same row of reduced costs, whatever their
product forms are made of. -/
theorem Exact.tableau_zero_eq (h : iterate.Exact model form) (hother : other.Exact model later)
    (howners : ∀ w, w ∈ other.basis.owners ↔ w ∈ iterate.basis.owners) (v : ℕ) :
  tableau model later 0 v = tableau model form 0 v
  := by
  -- The positions of one basis in the other one, the dummy being at position zero in both.
  have hposition (i : Fin (model.nrRows + 1)) : ∃ j : Fin (model.nrRows + 1),
      ProductForm.basisColumns model other.basis.owners i
        = ProductForm.basisColumns model iterate.basis.owners j
        ∧ iterate.basis.owners[j.val]? = other.basis.owners[i.val]? := by
    have hi := hother.sized.variableAt?_eq i
    rw [Basis.variableAt?_eq] at hi
    obtain ⟨j, hj⟩ := List.mem_iff_getElem?.mp ((howners _).mp (List.mem_of_getElem? hi))
    have hlt := h.sized.lt_of_variableAt? hj
    refine ⟨⟨j, hlt⟩, ?_, hj.trans hi.symm⟩
    unfold ProductForm.basisColumns
    dsimp only
    rw [hj]
    rfl
  choose σ hσ hsame using hposition
  have hzero : σ 0 = 0 := by
    apply h.inverse.injective
    rw [← hσ]
    unfold ProductForm.basisColumns
    rw [Fin.val_zero, iterate.basis.consistent.first, other.basis.consistent.first]
  unfold tableau
  rw [hother.inverse.solved_eq h.inverse σ hσ, hzero]

end Iterate

end RevisedSimplex
