import RevisedSimplex.Proofs.ModelColumns
import Mathlib.Algebra.BigOperators.Intervals

/-!
# The augmented system

A point gives every variable of a model a value, and `Solves` says that these values combine the
columns of the augmented system to its right hand side.  This says the same as `A x + s = b`
together with the value of the objective dummy, which is minus the cost of the minimization:
`satisfies_of_solves` and `solves_of_satisfies` go from one form to the other.
-/

namespace RevisedSimplex

variable {F : Type} [ExactScalar F]

/-! ### Inner products -/

/-- The inner product of two vectors. -/
def DenseVector.inner (first second : DenseVector F) : F :=
  (List.zipWith (· * ·) first second).sum

/-- An inner product as a sum over the positions below the length of the second vector. -/
theorem DenseVector.inner_eq_sum :
    ∀ (first second : DenseVector F),
      first.inner second = ∑ j ∈ Finset.range second.length,
        first[j]?.getD 0 * second[j]?.getD 0
  | first, [] => by
      cases first <;> rfl
  | [], y :: second => by
      rw [Finset.sum_eq_zero]
      · rfl
      · intro j _
        simp
  | x :: first, y :: second => by
      have ih := inner_eq_sum first second
      rw [List.length_cons, Finset.sum_range_succ']
      simp only [List.getElem?_cons_succ, List.getElem?_cons_zero, Option.getD_some]
      rw [← ih, add_comm]
      rfl

/-- An inner product of two vectors of one length as the product of their entries. -/
theorem DenseVector.inner_eq_dotProduct {first second : DenseVector F} {n : ℕ}
    (hfirst : first.length = n) (hsecond : second.length = n) :
  first.inner second = first.entries n ⬝ᵥ second.entries n
  := by
  rw [inner_eq_sum, hsecond, Finset.sum_range]
  apply Finset.sum_congr rfl
  intro j _
  rw [getElem?_eq_entries hfirst j, getElem?_eq_entries hsecond j]
  rfl

/-- The inner product with the negated first vector. -/
theorem DenseVector.inner_map_neg (first second : DenseVector F) :
  inner (first.map fun value => -value) second = -first.inner second
  := by
  rw [inner_eq_sum, inner_eq_sum, ← Finset.sum_neg_distrib]
  apply Finset.sum_congr rfl
  intro j _
  rw [List.getElem?_map]
  cases first[j]? <;> simp

/-- A matrix times a vector. -/
def ColumnMatrix.product (matrix : ColumnMatrix F) (vector : DenseVector F) : DenseVector F :=
  matrix.rows.map fun row => row.inner vector

theorem ColumnMatrix.length_product (matrix : ColumnMatrix F) (vector : DenseVector F) :
  (matrix.product vector).length = matrix.nrRows
  := by
  simp [product, rows]

theorem ColumnMatrix.getElem?_product {matrix : ColumnMatrix F} {vector : DenseVector F} {i : ℕ}
    (h : i < matrix.nrRows) :
  (matrix.product vector)[i]? = some ((matrix.row i).inner vector)
  := by
  simp [product, rows, h]

namespace Model

variable {model : Model F}

/-! ### Equations -/

/-- The structural values and the slacks satisfy `A x + s = b`. -/
structure Satisfies (model : Model F) (structural slack : DenseVector F) : Prop where
  structural_length : structural.length = model.nrColumns
  slack_length : slack.length = model.nrRows
  equations : List.zipWith (· + ·) (model.matrix.product structural) slack = model.rightHandSide

/-- The costs in the direction of the goal of the model. -/
def ownCost (model : Model F) : DenseVector F :=
  model.goal.minimizationCost model.cost

/-- The slacks are what is left of the right hand side. -/
theorem Satisfies.slack_eq {structural slack : DenseVector F}
    (h : model.Satisfies structural slack) :
  slack = List.zipWith (· - ·) model.rightHandSide (model.matrix.product structural)
  := by
  apply List.ext_getElem?
  intro i
  rw [← h.equations, List.getElem?_zipWith, List.getElem?_zipWith]
  have hlength : slack.length = (model.matrix.product structural).length := by
    rw [ColumnMatrix.length_product, h.slack_length]
    rfl
  by_cases hi : i < slack.length
  · rw [List.getElem?_eq_getElem hi, List.getElem?_eq_getElem (by rw [← hlength]; apply hi)]
    change some _ = some _
    rw [add_sub_cancel_left]
  · rw [List.getElem?_eq_none (not_lt.mp hi),
      List.getElem?_eq_none (by rw [← hlength]; apply not_lt.mp hi)]

/-- The cost of a point in the direction of the goal. -/
theorem ownCost_inner (structural : DenseVector F) :
  model.ownCost.inner structural = match model.goal with
    | .minimize => model.cost.inner structural
    | .maximize => -model.cost.inner structural
  := by
  unfold ownCost
  cases model.goal with
  | minimize => rfl
  | maximize => apply DenseVector.inner_map_neg

/-- The right hand side of the augmented system, zero in row `0`. -/
def rightHandSideVector (model : Model F) : Fin (model.nrRows + 1) → F :=
  Fin.cons 0 fun i => model.rightHandSide[i.val]?.getD 0

/-- The columns of all variables, multiplied with their values and added up. -/
def combination (model : Model F) (x : ℕ → F) : Fin (model.nrRows + 1) → F :=
  ∑ v ∈ Finset.range model.nrVariables, x v • model.vector v

/-- The values solve the augmented system. -/
def Solves (model : Model F) (x : ℕ → F) : Prop :=
  model.combination x = model.rightHandSideVector

/-- A combination of the unit columns and of the structural ones. -/
theorem combination_apply (x : ℕ → F) (i : Fin (model.nrRows + 1)) :
  model.combination x i = x i.val + ∑ j ∈ Finset.range model.nrColumns,
    model.vector (1 + model.nrRows + j) i * x (1 + model.nrRows + j)
  := by
  unfold combination nrVariables
  rw [Finset.sum_apply, Finset.sum_range_add, Finset.sum_eq_single i.val]
  · rw [Pi.smul_apply, model.vector_of_le i, Pi.single_eq_same, smul_eq_mul, mul_one]
    congr 1
    apply Finset.sum_congr rfl
    intro j _
    rw [Pi.smul_apply, smul_eq_mul, mul_comm]
  · intro v hv hne
    have hlt : v < model.nrRows + 1 := by
      rw [add_comm]
      apply Finset.mem_range.mp hv
    rw [Pi.smul_apply, model.vector_of_le ⟨v, hlt⟩, Pi.single_eq_of_ne, smul_zero]
    intro he
    apply hne
    rw [he]
  · intro hi
    exfalso
    apply hi
    have hlt := i.isLt
    rw [Finset.mem_range]
    omega

/-- Combinations are linear in the point. -/
theorem combination_sub (y x : ℕ → F) :
  model.combination (y - x) = model.combination y - model.combination x
  := by
  unfold combination
  rw [← Finset.sum_sub_distrib]
  apply Finset.sum_congr rfl
  intro v _
  rw [Pi.sub_apply, sub_smul]

/-- Only the values of the variables of the model count. -/
theorem Solves.congr {x y : ℕ → F} (h : model.Solves x)
    (hxy : ∀ v < model.nrVariables, y v = x v) :
  model.Solves y
  := by
  have hsame : model.combination y = model.combination x := by
    unfold combination
    apply Finset.sum_congr rfl
    intro v hv
    rw [hxy v (Finset.mem_range.mp hv)]
  unfold Solves
  rw [hsame, h]

/-- Row `0` of a combination. -/
theorem combination_zero (x : ℕ → F) :
  model.combination x 0 = x 0 + ∑ j ∈ Finset.range model.nrColumns,
    model.cost[j]?.getD 0 * x (1 + model.nrRows + j)
  := by
  rw [combination_apply]
  congr 1
  apply Finset.sum_congr rfl
  intro j hj
  obtain ⟨cost, _, hcost, -⟩ := model.exists_structural (Finset.mem_range.mp hj)
  rw [vector_structural_zero (Finset.mem_range.mp hj) hcost, hcost]
  rfl

/-- The other rows of a combination. -/
theorem combination_succ (x : ℕ → F) (i : Fin model.nrRows) :
  model.combination x i.succ = x (i.val + 1) + ∑ j ∈ Finset.range model.nrColumns,
    (model.matrix.row i.val)[j]?.getD 0 * x (1 + model.nrRows + j)
  := by
  rw [combination_apply]
  congr 1
  apply Finset.sum_congr rfl
  intro j hj
  obtain ⟨_, entries, -, hentries, hproper⟩ := model.exists_structural (Finset.mem_range.mp hj)
  have hrow : (model.matrix.row i.val)[j]? = some ((entries.valueAt? i.val).getD 0) := by
    unfold ColumnMatrix.row
    rw [List.getElem?_map, hentries]
    rfl
  rw [vector_structural_succ (Finset.mem_range.mp hj) hentries, hrow, Option.getD_some,
    SparseVector.valueAt?_eq_entries hproper.1.nodup]

/-! ### Points -/

/-- The structural values of a point. -/
def structuralPart (model : Model F) (x : ℕ → F) : DenseVector F :=
  (List.range' (model.nrRows + 1) model.nrColumns).map x

/-- The slacks of a point. -/
def slackPart (model : Model F) (x : ℕ → F) : DenseVector F :=
  (List.range' 1 model.nrRows).map x

/-- The parts of a point depend on the variables of the model alone. -/
theorem parts_congr {x y : ℕ → F} (h : ∀ v < model.nrVariables, x v = y v) :
  model.structuralPart x = model.structuralPart y ∧ model.slackPart x = model.slackPart y
  := by
  have hrange (first length : ℕ) (hlast : first + length ≤ model.nrVariables) :
      (List.range' first length).map x = (List.range' first length).map y := by
    apply List.map_congr_left
    intro v hv
    rw [List.mem_range'_1] at hv
    apply h v (hv.2.trans_le hlast)
  constructor <;> apply hrange <;> unfold nrVariables <;> omega

theorem length_structuralPart (x : ℕ → F) :
  (model.structuralPart x).length = model.nrColumns
  := by
  simp [structuralPart]

theorem length_slackPart (x : ℕ → F) :
  (model.slackPart x).length = model.nrRows
  := by
  simp [slackPart]

theorem getElem?_structuralPart (x : ℕ → F) {j : ℕ} (h : j < model.nrColumns) :
  (model.structuralPart x)[j]? = some (x (1 + model.nrRows + j))
  := by
  simp [structuralPart, h, add_comm]

theorem getElem?_slackPart (x : ℕ → F) {i : ℕ} (h : i < model.nrRows) :
  (model.slackPart x)[i]? = some (x (i + 1))
  := by
  simp [slackPart, h, add_comm]

/-- An inner product with the structural values of a point. -/
theorem inner_structuralPart (vector : DenseVector F) (x : ℕ → F) :
  vector.inner (model.structuralPart x) = ∑ j ∈ Finset.range model.nrColumns,
    vector[j]?.getD 0 * x (1 + model.nrRows + j)
  := by
  rw [DenseVector.inner_eq_sum, length_structuralPart]
  apply Finset.sum_congr rfl
  intro j hj
  rw [getElem?_structuralPart x (Finset.mem_range.mp hj)]
  rfl

/-- A point that solves the augmented system satisfies the equations, and its dummy is minus the
cost. -/
theorem satisfies_of_solves {x : ℕ → F} (h : model.Solves x) :
  model.Satisfies (model.structuralPart x) (model.slackPart x)
    ∧ x 0 = -model.cost.inner (model.structuralPart x)
  := by
  constructor
  · constructor
    · apply length_structuralPart
    · apply length_slackPart
    · apply List.ext_getElem?
      intro i
      by_cases hi : i < model.nrRows
      · have hrow := congrFun h (Fin.succ ⟨i, hi⟩)
        have hb : i < model.rightHandSide.length := by
          rw [model.rightHandSide_length]
          apply hi
        rw [combination_succ, rightHandSideVector, Fin.cons_succ, ← inner_structuralPart,
          List.getElem?_eq_getElem hb, Option.getD_some] at hrow
        rw [List.getElem?_zipWith, ColumnMatrix.getElem?_product hi, getElem?_slackPart x hi,
          List.getElem?_eq_getElem hb, ← hrow]
        change some _ = some _
        rw [add_comm]
      · have hb : model.rightHandSide.length ≤ i := by
          rw [model.rightHandSide_length]
          apply not_lt.mp hi
        rw [List.getElem?_eq_none hb, List.getElem?_eq_none]
        rw [List.length_zipWith, length_slackPart]
        apply le_trans (min_le_right _ _) (not_lt.mp hi)
  · have hrow := congrFun h 0
    rw [combination_zero, rightHandSideVector, Fin.cons_zero, ← inner_structuralPart] at hrow
    apply eq_neg_of_add_eq_zero_left hrow

/-- The point with the given structural values and slacks. -/
def pointOf (model : Model F) (structural slack : DenseVector F) : ℕ → F :=
  fun v => (-(model.cost.inner structural) :: (slack ++ structural))[v]?.getD 0

theorem pointOf_zero (structural slack : DenseVector F) :
  model.pointOf structural slack 0 = -model.cost.inner structural
  := rfl

theorem pointOf_slack {structural slack : DenseVector F} (h : slack.length = model.nrRows)
    {i : ℕ} (hi : i < model.nrRows) :
  model.pointOf structural slack (i + 1) = slack[i]?.getD 0
  := by
  unfold pointOf
  rw [List.getElem?_cons_succ, List.getElem?_append_left (by rw [h]; apply hi)]

theorem pointOf_structural {structural slack : DenseVector F} (h : slack.length = model.nrRows)
    (j : ℕ) :
  model.pointOf structural slack (1 + model.nrRows + j) = structural[j]?.getD 0
  := by
  unfold pointOf
  rw [show 1 + model.nrRows + j = (model.nrRows + j) + 1 by omega, List.getElem?_cons_succ,
    List.getElem?_append_right (by omega)]
  congr 2
  omega

/-- A point that satisfies the equations solves the augmented system. -/
theorem solves_of_satisfies {structural slack : DenseVector F}
    (h : model.Satisfies structural slack) :
  model.Solves (model.pointOf structural slack)
  := by
  have hsum (vector : DenseVector F) : vector.inner structural
      = ∑ j ∈ Finset.range model.nrColumns,
        vector[j]?.getD 0 * model.pointOf structural slack (1 + model.nrRows + j) := by
    rw [DenseVector.inner_eq_sum, h.structural_length]
    apply Finset.sum_congr rfl
    intro j _
    rw [pointOf_structural h.slack_length]
  funext i
  refine Fin.cases ?_ ?_ i
  · rw [combination_zero, pointOf_zero, ← hsum, rightHandSideVector, Fin.cons_zero]
    apply neg_add_cancel
  · intro i
    have hs : i.val < slack.length := by
      rw [h.slack_length]
      apply i.isLt
    have hrow := congrArg (fun list : DenseVector F => list[i.val]?) h.equations
    rw [List.getElem?_zipWith, ColumnMatrix.getElem?_product i.isLt,
      List.getElem?_eq_getElem hs] at hrow
    rw [combination_succ, ← hsum, pointOf_slack h.slack_length i.isLt, rightHandSideVector,
      Fin.cons_succ, ← hrow, List.getElem?_eq_getElem hs, add_comm]
    rfl

end Model

end RevisedSimplex
