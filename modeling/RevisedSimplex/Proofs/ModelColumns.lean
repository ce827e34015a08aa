import RevisedSimplex.Model
import RevisedSimplex.Proofs.Entries

/-!
# Columns of a model

`Model.vector` reads the column of a variable in the augmented system as a function on the rows
`0` to `m`.  The objective dummy and the slacks have the unit vectors of their rows, a structural
variable has its cost in row `0` and its column of the constraint matrix below it.
-/

namespace RevisedSimplex

namespace Model

variable {F : Type} [ExactScalar F]

/-! ### Parts -/

/-- The inversion of making a model. -/
theorem ofParts_eq_ok {G : Type} [Scalar G] {model : Model G} {matrix : ColumnMatrix G}
    {cost rightHandSide : DenseVector G} {relations : List Relation} {goal : Goal}
    {ends : List (Endpoint G × Endpoint G)}
    (h : ofParts matrix cost rightHandSide relations goal ends = .ok model) :
  model.matrix = matrix ∧ model.cost = goal.minimizationCost cost ∧ model.goal = goal
    ∧ ∃ result, boundsFrom (1 + matrix.nrRows) ends = .ok result
      ∧ model.bounds = relations.map Relation.slackBounds ++ result.val
  := by
  unfold ofParts at h
  split at h
  · split at h
    · split at h
      · split at h
        · split at h
          · rename_i structural hs hbounds
            cases h
            exact ⟨rfl, rfl, rfl, _, hbounds, rfl⟩
          · cases h
        · cases h
      · cases h
    · cases h
  · cases h

/-! ### Kinds -/

section Kinds

variable {G : Type} [Scalar G] {model : Model G}

theorem kind?_zero (model : Model G) :
  model.kind? 0 = some .objective
  := if_pos rfl

theorem kind?_succ {i : ℕ} (h : i < model.nrRows) :
  model.kind? (i + 1) = some (.slack i)
  := by
  unfold kind?
  rw [if_neg (Nat.succ_ne_zero i), if_pos (Nat.succ_le_of_lt h)]
  rfl

theorem kind?_add {j : ℕ} (h : j < model.nrColumns) :
  model.kind? (1 + model.nrRows + j) = some (.structural j)
  := by
  unfold kind?
  rw [if_neg (by omega), if_neg (by omega), if_pos (by unfold nrVariables; omega)]
  congr 2
  omega

/-- A variable is the dummy, a slack or structural. -/
theorem variable_cases {v : ℕ} (h : v < model.nrVariables) :
  v = 0 ∨ (∃ i, i < model.nrRows ∧ v = i + 1)
    ∨ ∃ j, j < model.nrColumns ∧ v = 1 + model.nrRows + j
  := by
  unfold nrVariables at h
  obtain hle | hgt := le_or_gt v model.nrRows
  · cases v with
    | zero => exact Or.inl rfl
    | succ i => exact Or.inr (Or.inl ⟨i, hle, rfl⟩)
  · exact Or.inr (Or.inr ⟨v - 1 - model.nrRows, by omega, by omega⟩)

/-- The cost and the entries of a structural variable. -/
theorem exists_structural (model : Model G) {j : ℕ} (h : j < model.nrColumns) :
  ∃ cost entries, model.cost[j]? = some cost ∧ model.matrix.columns[j]? = some entries
    ∧ entries.Proper model.nrRows
  := by
  have hcost : j < model.cost.length := by
    rw [model.cost_length]
    apply h
  refine ⟨_, _, List.getElem?_eq_getElem hcost, List.getElem?_eq_getElem h, ?_⟩
  apply model.matrix.proper
  apply List.getElem_mem

theorem column?_zero (model : Model G) :
  model.column? 0 = some [(0, 1)]
  := by
  simp [column?, kind?_zero]

theorem column?_succ {i : ℕ} (h : i < model.nrRows) :
  model.column? (i + 1) = some [(i + 1, 1)]
  := by
  simp [column?, kind?_succ h]

theorem column?_add {j : ℕ} {cost : G} {entries : SparseVector G} (h : j < model.nrColumns)
    (hcost : model.cost[j]? = some cost) (hentries : model.matrix.columns[j]? = some entries) :
  model.column? (1 + model.nrRows + j)
    = some ((if cost == 0 then [] else [(0, cost)]) ++ entries.shift 1)
  := by
  simp [column?, kind?_add h, hcost, hentries]

/-- The rows below row `0` are those of the constraint matrix. -/
theorem ordered_structural {cost : G} {entries : SparseVector G} {m : ℕ}
    (h : entries.Proper m) :
  SparseVector.Ordered ((if cost == 0 then [] else [(0, cost)]) ++ entries.shift 1)
    ∧ ∀ entry ∈ (if cost == 0 then [] else [(0, cost)]) ++ entries.shift 1, entry.1 < m + 1
  := by
  obtain ⟨hordered, hall⟩ := h
  have hrow (entry : ℕ × G) (hentry : entry ∈ entries.shift 1) :
      0 < entry.1 ∧ entry.1 < m + 1 := by
    obtain ⟨original, horiginal, rfl⟩ := List.mem_map.mp hentry
    have hlt := List.all_eq_true.mp hall original horiginal
    simp only [Bool.and_eq_true, decide_eq_true_eq] at hlt
    constructor
    · apply Nat.succ_pos
    · apply Nat.succ_lt_succ hlt.1
  have hshift : (entries.shift 1).Ordered := by
    unfold SparseVector.Ordered SparseVector.positions at hordered ⊢
    unfold SparseVector.shift
    rw [List.map_map, List.pairwise_map]
    rw [List.pairwise_map] at hordered
    apply hordered.imp
    intro a b hab
    apply Nat.succ_lt_succ hab
  split
  · exact ⟨hshift, fun entry hentry => (hrow entry hentry).2⟩
  · constructor
    · apply List.pairwise_cons.mpr
      refine ⟨?_, hshift⟩
      intro position hposition
      obtain ⟨entry, hentry, rfl⟩ := List.mem_map.mp hposition
      apply (hrow entry hentry).1
    · intro entry hentry
      rcases List.mem_cons.mp hentry with rfl | hentry
      · apply Nat.succ_pos
      · apply (hrow entry hentry).2

/-- Every variable has a column, with increasing rows. -/
theorem column?_eq (model : Model G) {v : ℕ} (hv : v < model.nrVariables) :
  ∃ column, model.column? v = some column ∧ column.Ordered
    ∧ ∀ entry ∈ column, entry.1 < model.nrRows + 1
  := by
  obtain rfl | ⟨i, hi, rfl⟩ | ⟨j, hj, rfl⟩ := variable_cases hv
  · exact ⟨_, model.column?_zero, List.pairwise_singleton _ _, by simp⟩
  · exact ⟨_, column?_succ hi, List.pairwise_singleton _ _, by simpa using hi⟩
  · obtain ⟨cost, entries, hcost, hentries, hproper⟩ := model.exists_structural hj
    exact ⟨_, column?_add hj hcost hentries, ordered_structural hproper⟩

/-- Only variables have columns. -/
theorem lt_of_column? {v : ℕ} {column : SparseVector G} (h : model.column? v = some column) :
  v < model.nrVariables
  := by
  by_contra hge
  have hkind : model.kind? v = none := by
    unfold kind?
    unfold nrVariables at hge
    rw [if_neg (by omega), if_neg (by omega), if_neg (by unfold nrVariables; omega)]
  simp [column?, hkind] at h

/-- The rows of a column are those of the augmented system, in increasing order. -/
theorem column?_spec {v : ℕ} {column : SparseVector G} (h : model.column? v = some column) :
  column.Ordered ∧ ∀ entry ∈ column, entry.1 < model.nrRows + 1
  := by
  obtain ⟨other, hother, hspec⟩ := model.column?_eq (lt_of_column? h)
  rw [h, Option.some_inj] at hother
  subst hother
  apply hspec

theorem lt_of_denseColumn? {v : ℕ} {dense : DenseVector G}
    (h : model.denseColumn? v = some dense) :
  v < model.nrVariables
  := by
  obtain ⟨column, hcolumn, -⟩ := Option.bind_eq_some_iff.mp h
  apply lt_of_column? hcolumn

end Kinds

/-! ### Vectors -/

/-- The column of a variable in the augmented system. -/
def vector (model : Model F) (v : ℕ) : Fin (model.nrRows + 1) → F :=
  SparseVector.entries (model.nrRows + 1) ((model.column? v).getD [])

theorem denseColumn?_eq (model : Model F) {v : ℕ} (hv : v < model.nrVariables) :
  ∃ dense, model.denseColumn? v = some dense ∧ dense.length = model.nrRows + 1
    ∧ dense.entries (model.nrRows + 1) = model.vector v
  := by
  obtain ⟨column, hcolumn, hordered, hbound⟩ := model.column?_eq hv
  obtain ⟨dense, hdense, hlength, hentries⟩ := SparseVector.toDense?_eq hordered hbound
  use dense
  constructor
  · unfold denseColumn?
    rw [hcolumn]
    apply hdense
  · use hlength
    rw [hentries, vector, hcolumn]
    rfl

/-- The inner product with the column of a variable. -/
theorem inner?_column {model : Model F} {v : ℕ} {column : SparseVector F}
    (h : model.column? v = some column) {dense : DenseVector F}
    (hd : dense.length = model.nrRows + 1) :
  column.inner? dense = some (model.vector v ⬝ᵥ dense.entries (model.nrRows + 1))
  := by
  unfold vector
  rw [h, SparseVector.inner?_eq (column?_spec h).2 hd]
  rfl

/-- The dummy and the slacks have unit vectors. -/
theorem vector_of_le (model : Model F) (i : Fin (model.nrRows + 1)) :
  model.vector i.val = Pi.single i 1
  := by
  have hcolumn : model.column? i.val = some [(i.val, 1)] := by
    obtain ⟨i, hi⟩ := i
    cases i with
    | zero => apply column?_zero
    | succ i => apply column?_succ (Nat.lt_of_succ_lt_succ hi)
  unfold vector
  rw [hcolumn]
  funext j
  by_cases hj : j = i
  · subst hj
    simp [SparseVector.entries]
  · have hval : i.val ≠ j.val := fun e => hj (Fin.ext e.symm)
    simp [SparseVector.entries, hval, Pi.single_eq_of_ne hj]

/-- A structural variable has its cost in row `0`. -/
theorem vector_structural_zero {model : Model F} {j : ℕ} {cost : F} (hj : j < model.nrColumns)
    (hcost : model.cost[j]? = some cost) :
  model.vector (1 + model.nrRows + j) 0 = cost
  := by
  obtain ⟨_, entries, _, hentries, -⟩ := model.exists_structural hj
  unfold vector
  rw [column?_add hj hcost hentries, Option.getD_some]
  have hshift := SparseVector.entries_shift_zero (n := model.nrRows) entries
  by_cases hzero : cost = 0
  · simp [hzero, hshift]
  · simp only [beq_iff_eq, hzero, if_false, List.singleton_append]
    rw [SparseVector.entries_cons, Pi.add_apply, hshift]
    simp

/-- A structural variable has its column of the constraint matrix below row `0`. -/
theorem vector_structural_succ {model : Model F} {j : ℕ} {entries : SparseVector F}
    (hj : j < model.nrColumns) (hentries : model.matrix.columns[j]? = some entries)
    (i : Fin model.nrRows) :
  model.vector (1 + model.nrRows + j) i.succ = entries.entries model.nrRows i
  := by
  obtain ⟨cost, _, hcost, _, -⟩ := model.exists_structural hj
  unfold vector
  rw [column?_add hj hcost hentries, Option.getD_some]
  have hshift := SparseVector.entries_shift_succ entries i
  by_cases hzero : cost = 0
  · simp [hzero, hshift]
  · simp only [beq_iff_eq, hzero, if_false, List.singleton_append]
    rw [SparseVector.entries_cons, Pi.add_apply, hshift]
    simp

/-! ### A small model -/

/-- The model `2x + y ≤ 4`, `x + 3y ≤ 6` in nonnegative variables, with the sum of both to be
maximized. -/
def sample : Model ℚ where
  matrix := ⟨[[(0, 2), (1, 1)], [(0, 1), (1, 3)]], 2, by decide +kernel⟩
  cost := [-1, -1]
  rightHandSide := [4, 6]
  relations := [.less, .less]
  goal := .maximize
  bounds := [.atLeast 0, .atLeast 0, .atLeast 0, .atLeast 0]
  cost_length := rfl
  rightHandSide_length := rfl
  relations_length := rfl
  bounds_length := rfl

end Model

end RevisedSimplex
