import RevisedSimplex.Proofs.BoundEdits
import RevisedSimplex.Proofs.EtaShape
import Mathlib.Data.Set.Function

/-!
# What a model stores

A matrix is given by dense rows and stored by sparse columns, and a model puts the costs above the
columns and the unit vectors of the dummy and of the slacks beside them.  Nothing is lost on the
way: every entry of the rows is read back from the matrix (`ColumnMatrix.Represents`), and the
columns of the model are the ones that the augmented system should have (`Model.Holds`), whichever
numbers the entries are.  A number that is equal to zero is not stored, so that it comes back as
`Scalar.plain`, the zero of the method.
-/

namespace RevisedSimplex

variable {F : Type} [Scalar F]

/-- The number, or the zero of the method if the number is equal to it. -/
def Scalar.plain (x : F) : F :=
  if x == 0 then 0 else x

theorem Scalar.plain_of_ne {x : F} (h : (x == 0) = false) :
  plain x = x
  := by
  simp [plain, h]

/-! ### Sparse vectors -/

namespace SparseVector

variable {vector : SparseVector F} {dense target result : DenseVector F} {i n : ℕ} {x : F}

omit [Scalar F] in
theorem valueAt?_cons (entry : ℕ × F) (vector : SparseVector F) (i : ℕ) :
  valueAt? (entry :: vector) i = if entry.1 = i then some entry.2 else vector.valueAt? i
  := by
  unfold valueAt?
  by_cases h : entry.1 = i <;> simp [h]

omit [Scalar F] in
theorem valueAt?_eq_none (h : i ∉ vector.positions) :
  vector.valueAt? i = none
  := by
  simp only [valueAt?, Option.map_eq_none_iff, List.find?_eq_none, beq_iff_eq]
  rintro entry hentry rfl
  apply h
  apply List.mem_map_of_mem hentry

omit [Scalar F] in
/-- The entry that is found at a position is the one listed there. -/
theorem valueAt?_eq_some_iff :
    ∀ {vector : SparseVector F}, vector.positions.Nodup →
      (vector.valueAt? i = some x ↔ (i, x) ∈ vector)
  | [], _ => by simp [valueAt?]
  | entry :: vector, hnodup => by
      obtain ⟨hnot, hnodup⟩ := List.nodup_cons.mp hnodup
      rw [valueAt?_cons, List.mem_cons]
      split
      · rename_i hi
        constructor
        · rintro ⟨⟩
          rw [← hi]
          apply Or.inl rfl
        · rintro (rfl | hmem)
          · rfl
          · exfalso
            apply hnot
            rw [hi]
            apply List.mem_map_of_mem hmem
      · rename_i hi
        rw [valueAt?_eq_some_iff hnodup]
        constructor
        · apply Or.inr
        · rintro (rfl | hmem)
          · cases hi rfl
          · apply hmem

omit [Scalar F] in
/-- Adding to the positions moves the entries. -/
theorem valueAt?_shift (offset : ℕ) (vector : SparseVector F) (i : ℕ) :
  (vector.shift offset).valueAt? (i + offset) = vector.valueAt? i
  := by
  induction vector with
  | nil => rfl
  | cons entry vector ih =>
      unfold shift at ih ⊢
      rw [List.map_cons, valueAt?_cons, valueAt?_cons, ih]
      simp

omit [Scalar F] in
/-- Writing a vector with distinct positions: its entries, and those written over elsewhere. -/
theorem getElem?_scatter? :
    ∀ {vector : SparseVector F} {target : DenseVector F}, vector.positions.Nodup →
      vector.scatter? target = some result →
      ∀ i, result[i]? = (vector.valueAt? i).or target[i]?
  | [], target, _, h, i => by
      cases h
      rfl
  | entry :: vector, target, hnodup, h, i => by
      obtain ⟨hnot, hnodup⟩ := List.nodup_cons.mp hnodup
      unfold scatter? at h
      rw [List.foldlM_cons] at h
      obtain ⟨next, hnext, hrest⟩ := Option.bind_eq_some_iff.mp h
      have ih := getElem?_scatter? hnodup hrest i
      unfold DenseVector.set? at hnext
      split at hnext
      · rename_i hlt
        cases hnext
        rw [ih, valueAt?_cons]
        split
        · rename_i hi
          subst hi
          rw [valueAt?_eq_none hnot, List.getElem?_set_self hlt]
          rfl
        · rename_i hi
          rw [List.getElem?_set_ne hi]
      · cases hnext

/-- The dense vector has the listed entries and zeros elsewhere. -/
theorem getElem?_toDense? (hnodup : vector.positions.Nodup) (h : vector.toDense? n = some dense)
    (hi : i < n) :
  dense[i]? = some ((vector.valueAt? i).getD 0)
  := by
  rw [getElem?_scatter? hnodup h, DenseVector.zero, List.getElem?_replicate, if_pos hi]
  cases vector.valueAt? i <;> rfl

/-- What the nonzeros of a vector have at a position. -/
theorem valueAt?_nonzeros (h : dense[i]? = some x) :
  ((nonzeros dense).valueAt? i).getD 0 = Scalar.plain x
  := by
  unfold Scalar.plain
  split
  · rename_i hzero
    rw [valueAt?_eq_none]
    · rfl
    · intro hmem
      obtain ⟨entry, hentry, rfl⟩ := List.mem_map.mp hmem
      obtain ⟨hget, hne⟩ := mem_nonzeros_iff.mp hentry
      rw [h, Option.some_inj] at hget
      rw [hget, hne] at hzero
      cases hzero
  · rename_i hne
    have hmem : (i, x) ∈ nonzeros dense := mem_nonzeros_iff.mpr ⟨h, by simpa using hne⟩
    rw [(valueAt?_eq_some_iff (ordered_nonzeros dense).nodup).mpr hmem]
    rfl

theorem length_nonzeros (dense : DenseVector F) :
  (nonzeros dense).length = dense.countP fun value => !(value == 0)
  := by
  have hkeep : (fun entry : F × ℕ =>
      (if entry.1 == 0 then none else some (entry.2, entry.1)).isSome)
        = (fun value => !(value == 0)) ∘ Prod.fst := by
    funext entry
    cases h : entry.1 == 0 <;> simp [h]
  unfold nonzeros
  rw [List.length_filterMap_eq_countP, hkeep, ← List.countP_map, List.zipIdx_map_fst]

/-- The nonzeros of a vector are proper for its length. -/
theorem proper_nonzeros (dense : DenseVector F) :
  (nonzeros dense).Proper dense.length
  := by
  use ordered_nonzeros dense
  rw [List.all_eq_true]
  intro entry hentry
  obtain ⟨hget, hne⟩ := mem_nonzeros_iff.mp hentry
  obtain ⟨hlt, -⟩ := List.getElem?_eq_some_iff.mp hget
  simp [hlt, hne]

theorem proper_iff {size : ℕ} :
  vector.Proper size
    ↔ vector.Ordered ∧ ∀ entry ∈ vector, entry.1 < size ∧ (entry.2 == 0) = false
  := by
  simp [Proper]

end SparseVector

/-! ### Matrices -/

namespace ColumnMatrix

variable {matrix : ColumnMatrix F} {rows : List (DenseVector F)} {n : ℕ}

/-- The entry in a row and a column of a matrix given by its rows. -/
def entryAt? (rows : List (DenseVector F)) (i j : ℕ) : Option F :=
  rows[i]?.bind fun row => row[j]?

/-- The matrix stores the given rows of length `n`: its columns are in order and without zeros,
every entry of the rows is read back, zeros as the zero of the method, and the nonzeros are
counted. -/
structure Represents (matrix : ColumnMatrix F) (rows : List (DenseVector F)) (n : ℕ) : Prop where
  nrRows : matrix.nrRows = rows.length
  nrColumns : matrix.nrColumns = n
  ordered : ∀ column ∈ matrix.columns, column.Ordered
  nonzero : ∀ column ∈ matrix.columns, ∀ entry ∈ column,
    entry.1 < rows.length ∧ (entry.2 == 0) = false
  get : ∀ i < rows.length, ∀ j < n, ∃ x, entryAt? rows i j = some x
    ∧ matrix.get? i j = some (Scalar.plain x)
  nrNonzeros : matrix.nrNonzeros = rows.flatten.countP fun value => !(value == 0)

/-- A column of a matrix given by its rows. -/
def columnOf (rows : List (DenseVector F)) (j : ℕ) : DenseVector F :=
  rows.filterMap fun row => row[j]?

omit [Scalar F] in
theorem columnOf_cons {row : DenseVector F} {j : ℕ} (h : j < row.length)
    (rows : List (DenseVector F)) :
  columnOf (row :: rows) j = row[j] :: columnOf rows j
  := by
  unfold columnOf
  rw [List.filterMap_cons, List.getElem?_eq_getElem h]

omit [Scalar F] in
/-- A column of rows that are long enough has an entry in each of them. -/
theorem getElem?_columnOf {j : ℕ} :
    ∀ {rows : List (DenseVector F)}, (∀ row ∈ rows, j < row.length) →
      ∀ i, (columnOf rows j)[i]? = entryAt? rows i j
  | [], _, i => rfl
  | row :: rows, h, i => by
      obtain ⟨hrow, hrest⟩ := List.forall_mem_cons.mp h
      rw [columnOf_cons hrow]
      cases i with
      | zero => simp [entryAt?, hrow]
      | succ i => apply getElem?_columnOf hrest

omit [Scalar F] in
theorem length_columnOf {j : ℕ} (h : ∀ row ∈ rows, j < row.length) :
  (columnOf rows j).length = rows.length
  := by
  unfold columnOf
  rw [List.length_filterMap_eq_countP, List.countP_eq_length]
  intro row hrow
  rw [List.getElem?_eq_getElem (h row hrow)]
  rfl

omit [Scalar F] in
/-- Counting in a row, position by position. -/
theorem sum_indicator (p : F → Bool) :
    ∀ row : DenseVector F,
      ((List.range row.length).map fun j => row[j]?.elim 0 fun x => if p x then 1 else 0).sum
        = row.countP p
  | [] => rfl
  | x :: row => by
      have ih := sum_indicator p row
      rw [List.length_cons, List.range_succ_eq_map, List.map_cons, List.map_map, List.sum_cons,
        List.countP_cons, Nat.add_comm]
      simp only [Function.comp_def, List.getElem?_cons_succ, ih]
      rfl

omit [Scalar F] in
/-- Counting along the columns is counting along the rows. -/
theorem sum_countP_columnOf (p : F → Bool) :
    ∀ {rows : List (DenseVector F)}, (∀ row ∈ rows, row.length = n) →
      ((List.range n).map fun j => (columnOf rows j).countP p).sum = rows.flatten.countP p
  | [], _ => by simp [columnOf]
  | row :: rows, h => by
      obtain ⟨hrow, hrest⟩ := List.forall_mem_cons.mp h
      have hcolumn (j : ℕ) (hj : j ∈ List.range n) :
          (columnOf (row :: rows) j).countP p
            = (row[j]?.elim 0 fun x => if p x then 1 else 0) + (columnOf rows j).countP p := by
        have hlt : j < row.length := by
          rw [hrow]
          apply List.mem_range.mp hj
        rw [columnOf_cons hlt, List.countP_cons, List.getElem?_eq_getElem hlt, Nat.add_comm]
        rfl
      have hfirst := sum_indicator p row
      rw [hrow] at hfirst
      rw [List.map_congr_left hcolumn, List.sum_map_add, sum_countP_columnOf p hrest, hfirst,
        List.flatten_cons, List.countP_append]

/-- The columns of a matrix that is made from rows of one length. -/
theorem exists_columns (h : ∀ row ∈ rows, row.length = n) :
  ∃ matrix : ColumnMatrix F, ofRows? rows n = some matrix ∧ matrix.nrRows = rows.length
    ∧ matrix.columns = (List.range n).map fun j => SparseVector.nonzeros (columnOf rows j)
  := by
  have hlength {j : ℕ} (hj : j < n) : ∀ row ∈ rows, j < row.length := by
    intro row hrow
    rw [h row hrow]
    apply hj
  unfold ofRows? ofColumns?
  rw [if_pos (by simpa using h), dif_pos]
  · exact ⟨_, rfl, rfl, rfl⟩
  · rw [List.all_eq_true]
    intro column hcolumn
    obtain ⟨j, hj, rfl⟩ := List.mem_map.mp hcolumn
    rw [decide_eq_true_iff, ← length_columnOf (hlength (List.mem_range.mp hj))]
    apply SparseVector.proper_nonzeros

/-- A matrix with the nonzeros of the columns has lost nothing. -/
theorem represents_of_columns (h : ∀ row ∈ rows, row.length = n)
    (hrows : matrix.nrRows = rows.length)
    (hcolumns : matrix.columns = (List.range n).map fun j =>
      SparseVector.nonzeros (columnOf rows j)) :
  matrix.Represents rows n
  := by
  have hproper (column : SparseVector F) (hcolumn : column ∈ matrix.columns) :=
    SparseVector.proper_iff.mp (matrix.proper column hcolumn)
  constructor
  · apply hrows
  · unfold nrColumns
    rw [hcolumns, List.length_map, List.length_range]
  · intro column hcolumn
    apply (hproper column hcolumn).1
  · intro column hcolumn
    rw [← hrows]
    apply (hproper column hcolumn).2
  · intro i hi j hj
    have hlength : ∀ row ∈ rows, j < row.length := by
      intro row hrow
      rw [h row hrow]
      apply hj
    have hlt : i < (columnOf rows j).length := by
      rw [length_columnOf hlength]
      apply hi
    have hget := List.getElem?_eq_getElem hlt
    refine ⟨_, (getElem?_columnOf hlength i).symm.trans hget, ?_⟩
    unfold get?
    rw [hcolumns, List.getElem?_map, List.getElem?_range hj]
    simp only [Option.map_some, Option.bind_eq_bind, Option.bind_some, hrows, hi, if_true]
    rw [SparseVector.valueAt?_nonzeros hget]
  · unfold nrNonzeros
    rw [hcolumns, ← sum_countP_columnOf _ h, List.sum_eq_foldl, List.foldl_map, List.foldl_map]
    simp only [SparseVector.length_nonzeros]

end ColumnMatrix

/-! ### Models -/

/-- What a variable can be in a model with `m` rows and `n` columns. -/
def VariableKind.Within (m n : ℕ) : VariableKind → Prop
  | objective => True
  | slack i => i < m
  | structural j => j < n

/-- A cost of the minimization with the same solutions. -/
def Goal.signed (cost : F) : Goal → F
  | minimize => cost
  | maximize => -cost

theorem Goal.getElem?_minimizationCost (goal : Goal) (cost : DenseVector F) (j : ℕ) :
  (goal.minimizationCost cost)[j]? = cost[j]?.map fun c => goal.signed c
  := by
  cases goal with
  | minimize => simp [minimizationCost, signed]
  | maximize => simp [minimizationCost, signed]

namespace Model

variable {model : Model F} {rows : List (DenseVector F)} {cost : DenseVector F} {goal : Goal}
  {n : ℕ}

/-- Numbers and kinds of variables correspond to each other. -/
theorem bijOn_kind? (model : Model F) :
  Set.BijOn model.kind? {v | v < model.nrVariables}
    (some '' {kind | kind.Within model.nrRows model.nrColumns})
  := by
  refine ⟨?_, ?_, ?_⟩
  · intro v hv
    obtain rfl | ⟨i, hi, rfl⟩ | ⟨j, hj, rfl⟩ := variable_cases hv
    · exact ⟨.objective, trivial, (kind?_zero model).symm⟩
    · exact ⟨_, hi, (kind?_succ hi).symm⟩
    · exact ⟨_, hj, (kind?_add hj).symm⟩
  · intro v hv w hw h
    obtain rfl | ⟨i, hi, rfl⟩ | ⟨j, hj, rfl⟩ := variable_cases hv <;>
      obtain rfl | ⟨i', hi', rfl⟩ | ⟨j', hj', rfl⟩ := variable_cases hw <;>
      simp_all [kind?_zero, kind?_succ, kind?_add]
  · rintro _ ⟨kind, hkind, rfl⟩
    cases kind with
    | objective =>
        refine ⟨0, ?_, kind?_zero model⟩
        change 0 < 1 + model.nrRows + model.nrColumns
        omega
    | slack i =>
        refine ⟨i + 1, ?_, kind?_succ hkind⟩
        change i < model.nrRows at hkind
        change i + 1 < 1 + model.nrRows + model.nrColumns
        omega
    | structural j =>
        refine ⟨1 + model.nrRows + j, ?_, kind?_add hkind⟩
        apply Nat.add_lt_add_left hkind

/-- The column of a variable is in order and without zeros, it is the given one as a dense vector,
and the entries below row `0` are counted. -/
structure HasColumn (model : Model F) (v : ℕ) (dense : DenseVector F) : Prop where
  column : ∃ column, model.column? v = some column ∧ column.Ordered
    ∧ (∀ entry ∈ column, entry.1 ≤ model.nrRows ∧ (entry.2 == 0) = false)
    ∧ model.nonzeros? v = some (column.countP fun entry => decide (0 < entry.1))
  denseColumn : model.denseColumn? v = some dense
  length : dense.length = model.nrRows + 1

/-- A variable with a unit vector, which counts unless it is that of row `0`. -/
theorem exists_hasColumn_unit [NontrivialScalar F] {v i : ℕ}
    (hcolumn : model.column? v = some [(i, 1)]) (hi : i < model.nrRows + 1)
    (hnonzeros : model.nonzeros? v = some (if 0 < i then 1 else 0)) :
  ∃ unit, DenseVector.unit? i (model.nrRows + 1) = some unit ∧ model.HasColumn v unit
  := by
  obtain ⟨unit, hunit, hlength⟩ := DenseVector.exists_unit? (F := F) hi
  refine ⟨unit, hunit, ⟨_, hcolumn, List.pairwise_singleton _ _, ?_, ?_⟩, ?_, hlength⟩
  · intro entry hentry
    rw [List.mem_singleton.mp hentry]
    exact ⟨Nat.le_of_lt_succ hi, NontrivialScalar.one_beq_zero⟩
  · rw [hnonzeros, List.countP_singleton]
    simp
  · unfold denseColumn? SparseVector.toDense? SparseVector.scatter?
    rw [hcolumn]
    unfold DenseVector.unit? at hunit
    simp [hunit]

/-- The entries of a structural variable, the cost above them. -/
theorem valueAt?_structural (c : F) (entries : SparseVector F) :
  (SparseVector.valueAt? ((if c == 0 then [] else [(0, c)]) ++ entries.shift 1) 0).getD 0
      = Scalar.plain c
    ∧ ∀ i, SparseVector.valueAt? ((if c == 0 then [] else [(0, c)]) ++ entries.shift 1) (i + 1)
      = entries.valueAt? i
  := by
  have hshift : (entries.shift 1).valueAt? 0 = none := by
    apply SparseVector.valueAt?_eq_none
    intro hmem
    obtain ⟨entry, hentry, hzero⟩ := List.mem_map.mp hmem
    obtain ⟨original, -, rfl⟩ := List.mem_map.mp hentry
    cases hzero
  cases hc : c == 0 with
  | true =>
      simp only [if_true, List.nil_append, hshift, SparseVector.valueAt?_shift, implies_true,
        and_true]
      simp [Scalar.plain, hc]
  | false =>
      simp only [Bool.false_eq_true, if_false, List.singleton_append, SparseVector.valueAt?_cons,
        if_true, Nat.zero_ne_add_one, SparseVector.valueAt?_shift, implies_true, and_true]
      rw [Scalar.plain_of_ne hc]
      rfl

/-- The entries of a structural variable below row `0` are those of its column. -/
theorem countP_structural (c : F) (entries : SparseVector F) :
  List.countP (fun entry => decide (0 < entry.1))
      ((if c == 0 then [] else [(0, c)]) ++ entries.shift 1) = entries.length
  := by
  have hcost : List.countP (fun entry : ℕ × F => decide (0 < entry.1))
      (if c == 0 then [] else [(0, c)]) = 0 := by
    split <;> rfl
  have hshift : List.countP (fun entry : ℕ × F => decide (0 < entry.1)) (entries.shift 1)
      = (entries.shift 1).length := by
    rw [List.countP_eq_length]
    intro entry hentry
    obtain ⟨original, -, rfl⟩ := List.mem_map.mp hentry
    simp
  rw [List.countP_append, hcost, hshift, Nat.zero_add]
  apply List.length_map

/-- A structural variable has its cost above its column of the matrix. -/
theorem exists_hasColumn_structural {j : ℕ} {c : F} {entries : SparseVector F}
    (hj : j < model.nrColumns) (hcost : model.cost[j]? = some c)
    (hentries : model.matrix.columns[j]? = some entries) :
  ∃ dense, model.HasColumn (1 + model.nrRows + j) dense
    ∧ dense[0]? = some (Scalar.plain c)
    ∧ ∀ i < model.nrRows, dense[i + 1]? = some ((entries.valueAt? i).getD 0)
  := by
  have hproper := model.matrix.proper entries (List.mem_of_getElem? hentries)
  have hcolumn := column?_add hj hcost hentries
  have hstructural : SparseVector.Ordered ((if c == 0 then [] else [(0, c)]) ++ entries.shift 1)
      ∧ ∀ entry ∈ (if c == 0 then [] else [(0, c)]) ++ entries.shift 1,
        entry.1 < model.matrix.nrRows + 1 := ordered_structural hproper
  obtain ⟨hordered, hbound⟩ := hstructural
  obtain ⟨dense, hdense, hlength⟩ := SparseVector.exists_toDense? hbound
  obtain ⟨hzero, hsucc⟩ := valueAt?_structural c entries
  have hget {i : ℕ} (hi : i < model.nrRows + 1) :=
    SparseVector.getElem?_toDense? hordered.nodup hdense hi
  refine ⟨dense, ⟨⟨_, hcolumn, hordered, ?_, ?_⟩, ?_, hlength⟩, ?_, ?_⟩
  · intro entry hentry
    use Nat.le_of_lt_succ (hbound entry hentry)
    rcases List.mem_append.mp hentry with hentry | hentry
    · split at hentry
      · cases hentry
      · rename_i hne
        rw [List.mem_singleton.mp hentry]
        simpa using hne
    · obtain ⟨original, horiginal, rfl⟩ := List.mem_map.mp hentry
      apply ((SparseVector.proper_iff.mp hproper).2 original horiginal).2
  · rw [countP_structural]
    simp [nonzeros?, kind?_add hj, hentries]
  · unfold denseColumn?
    rw [hcolumn]
    apply hdense
  · rw [hget (Nat.succ_pos _), hzero]
  · intro i hi
    rw [hget (Nat.succ_lt_succ hi), hsucc]

/-- The model has the columns of the rows of length `n` with the costs above them, which are negated
if they are to be maximized, and the unit vectors of the dummy and of the slacks. -/
structure Holds (model : Model F) (rows : List (DenseVector F)) (n : ℕ) (cost : DenseVector F)
    (goal : Goal) : Prop where
  nrRows : model.nrRows = rows.length
  nrColumns : model.nrColumns = n
  kinds : Set.BijOn model.kind? {v | v < model.nrVariables}
    (some '' {kind | kind.Within rows.length n})
  objective : ∃ unit, DenseVector.unit? 0 (rows.length + 1) = some unit ∧ model.HasColumn 0 unit
  slack : ∀ i < rows.length, ∃ unit, DenseVector.unit? (i + 1) (rows.length + 1) = some unit
    ∧ model.kind? (i + 1) = some (.slack i) ∧ model.HasColumn (i + 1) unit
  structural : ∀ j < n, ∃ dense c, cost[j]? = some c
    ∧ model.kind? (1 + rows.length + j) = some (.structural j)
    ∧ model.HasColumn (1 + rows.length + j) dense
    ∧ dense[0]? = some (Scalar.plain (goal.signed c))
    ∧ ∀ i < rows.length, ∃ x, ColumnMatrix.entryAt? rows i j = some x
      ∧ dense[i + 1]? = some (Scalar.plain x)

/-- Nonnegative variables have bounds. -/
theorem exists_boundsFrom_replicate (first count : ℕ) :
  ∃ result, boundsFrom first (List.replicate count (.value (0 : F), .plusInfinity)) = .ok result
  := by
  induction count generalizing first with
  | zero => exact ⟨_, rfl⟩
  | succ count ih =>
      obtain ⟨result, hresult⟩ := ih (first + 1)
      simp only [List.replicate_succ, boundsFrom, boundsFor, Bounds.ofEndpoints?, hresult]
      exact ⟨_, rfl⟩

/-- A model with nonnegative variables is made of all parts that fit together. -/
theorem exists_nonnegative {matrix : ColumnMatrix F} {rightHandSide : DenseVector F}
    {relations : List Relation} (hcost : cost.length = matrix.nrColumns)
    (hrhs : rightHandSide.length = matrix.nrRows) (hrelations : relations.length = matrix.nrRows)
    (goal : Goal) :
  ∃ model, nonnegative matrix cost rightHandSide relations goal = .ok model
  := by
  obtain ⟨result, hresult⟩ :=
    exists_boundsFrom_replicate (F := F) (1 + matrix.nrRows) matrix.nrColumns
  unfold nonnegative ofParts
  rw [dif_pos hcost, dif_pos hrhs, dif_pos hrelations, dif_pos List.length_replicate, hresult]
  exact ⟨_, rfl⟩

/-- A model holds what its matrix has lost nothing of. -/
theorem holds_of_columns [NontrivialScalar F] (h : ∀ row ∈ rows, row.length = n)
    (hrows : model.nrRows = rows.length)
    (hcolumns : model.matrix.columns = (List.range n).map fun j =>
      SparseVector.nonzeros (ColumnMatrix.columnOf rows j))
    (hcost : model.cost = goal.minimizationCost cost) :
  model.Holds rows n cost goal
  := by
  have hn : model.nrColumns = n := by
    unfold Model.nrColumns ColumnMatrix.nrColumns
    rw [hcolumns, List.length_map, List.length_range]
  constructor
  · apply hrows
  · apply hn
  · rw [← hrows, ← hn]
    apply bijOn_kind?
  · rw [← hrows]
    apply exists_hasColumn_unit model.column?_zero (Nat.succ_pos _)
    simp [nonzeros?, kind?_zero]
  · rw [← hrows]
    intro i hi
    obtain ⟨unit, hunit, hhas⟩ := exists_hasColumn_unit (column?_succ hi) (Nat.succ_lt_succ hi)
      (by simp [nonzeros?, kind?_succ hi])
    exact ⟨unit, hunit, kind?_succ hi, hhas⟩
  · rw [← hrows]
    intro j hj
    have hlength : ∀ row ∈ rows, j < row.length := by
      intro row hrow
      rw [h row hrow]
      apply hj
    rw [← hn] at hj
    obtain ⟨c, entries, hc, hentries, -⟩ := model.exists_structural hj
    obtain ⟨dense, hhas, hzero, hsucc⟩ := exists_hasColumn_structural hj hc hentries
    rw [hcost, Goal.getElem?_minimizationCost] at hc
    obtain ⟨own, hown, rfl⟩ := Option.map_eq_some_iff.mp hc
    refine ⟨dense, own, hown, kind?_add hj, hhas, hzero, ?_⟩
    intro i hi
    rw [hcolumns, List.getElem?_map, List.getElem?_range (by rw [← hn]; apply hj)] at hentries
    cases hentries
    have hlt : i < (ColumnMatrix.columnOf rows j).length := by
      rw [ColumnMatrix.length_columnOf hlength, ← hrows]
      apply hi
    have hget := List.getElem?_eq_getElem hlt
    refine ⟨_, (ColumnMatrix.getElem?_columnOf hlength i).symm.trans hget, ?_⟩
    rw [hsucc i hi, SparseVector.valueAt?_nonzeros hget]

end Model

/-- Storing rows of one length, and making a model of them, loses nothing: the matrix has the
entries of the rows and no others, and the model has the columns of the rows with the costs above
them and the unit vectors of the dummy and of the slacks, also after edits of its bounds. -/
theorem ColumnMatrix.stores_rows [NontrivialScalar F] {rows : List (DenseVector F)} {n : ℕ}
    (h : ∀ row ∈ rows, row.length = n) :
  ∃ matrix, ofRows? rows n = some matrix ∧ matrix.Represents rows n
    ∧ ∀ cost rightHandSide relations goal ends model,
      Model.ofParts matrix cost rightHandSide relations goal ends = .ok model →
      ∀ edits, (model.afterEdits edits).Holds rows n cost goal
  := by
  obtain ⟨matrix, hmatrix, hrows, hcolumns⟩ := exists_columns h
  refine ⟨matrix, hmatrix, represents_of_columns h hrows hcolumns, ?_⟩
  intro cost rightHandSide relations goal ends model hmodel edits
  obtain ⟨hparts, hcost, -⟩ := Model.ofParts_eq_ok hmodel
  have hdata := Model.sameData_afterEdits edits model
  have hsame := hdata.matrix.trans hparts
  apply Model.holds_of_columns h
  · unfold Model.nrRows
    rw [hsame, hrows]
  · rw [hsame, hcolumns]
  · rw [hdata.cost, hcost]

/-- Two rows with an empty column between two others, and costs of which one is zero, to be
maximized. -/
theorem ColumnMatrix.stores_rows_with_gaps :
  ∃ matrix : ColumnMatrix Float, ofRows? [[2, 0, 1], [0, 0, 3]] 3 = some matrix
    ∧ matrix.Represents [[2, 0, 1], [0, 0, 3]] 3
    ∧ ∃ model, Model.nonnegative matrix [1, 2, 0] [4, 6] [.less, .equal] .maximize = .ok model
      ∧ model.Holds [[2, 0, 1], [0, 0, 3]] 3 [1, 2, 0] .maximize
  := by
  have hrows : ∀ row ∈ ([[2, 0, 1], [0, 0, 3]] : List (DenseVector Float)), row.length = 3 := by
    decide +kernel
  obtain ⟨matrix, hmatrix, hrepresents, hholds⟩ := stores_rows hrows
  have hmade : ∃ model,
      Model.nonnegative matrix [1, 2, 0] [4, 6] [.less, .equal] .maximize = .ok model := by
    apply Model.exists_nonnegative
    · apply hrepresents.nrColumns.symm
    · apply hrepresents.nrRows.symm
    · apply hrepresents.nrRows.symm
  obtain ⟨model, hmodel⟩ := hmade
  exact ⟨matrix, hmatrix, hrepresents, model, hmodel, hholds _ _ _ _ _ _ hmodel []⟩

end RevisedSimplex
