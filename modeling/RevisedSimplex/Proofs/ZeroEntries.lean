import RevisedSimplex.Proofs.EtaShape
import RevisedSimplex.Proofs.LawfulScalar

/-!
# Zero entries

What stays zero on the way of a column through a file.  An eta column leaves a vector as it is when
the vector is zero in the pivot row, and otherwise changes it in its own rows only.  A row in which
a column is zero is none of the rows of the eta column made of it.  Zero is what the equality test
takes for zero, so this holds of machine numbers too.
-/

namespace RevisedSimplex

variable {F : Type} [Scalar F] {i row owner : ℕ}

/-! ### Vectors -/

/-- The entry of a vector at a position is zero, if there is one. -/
def DenseVector.VanishesAt (vector : DenseVector F) (i : ℕ) : Prop :=
  ∀ value, vector[i]? = some value → (value == 0) = true

namespace DenseVector

variable {vector : DenseVector F}

theorem vanishesAt_zero [ReflexiveZero F] (size i : ℕ) :
  (zero size : DenseVector F).VanishesAt i
  := by
  intro value h
  unfold zero at h
  rw [List.getElem?_replicate] at h
  split at h
  · cases h
    apply ReflexiveZero.zero_beq_zero
  · cases h

theorem VanishesAt.roundRelative [ReflexiveZero F] (h : vector.VanishesAt i) (tolerance : F) :
  (vector.roundRelative tolerance).VanishesAt i
  := by
  intro value hvalue
  dsimp only [DenseVector.roundRelative] at hvalue
  split at hvalue
  · unfold roundAbsolute at hvalue
    rw [List.getElem?_map] at hvalue
    obtain ⟨old, hold, rfl⟩ := Option.map_eq_some_iff.mp hvalue
    split
    · apply ReflexiveZero.zero_beq_zero
    · apply h old hold
  · apply h value hvalue

omit [Scalar F] in
/-- Another entry is what it was after one has been set. -/
theorem getElem?_of_set? {position : ℕ} {value : F} {result : DenseVector F}
    (h : vector.set? position value = some result) (hne : i ≠ position) :
  result[i]? = vector[i]?
  := by
  unfold set? at h
  split at h
  · cases h
    apply List.getElem?_set_ne hne.symm
  · cases h

end DenseVector

namespace SparseVector

/-- Writing zeros at a position of zero. -/
theorem vanishesAt_of_scatter? :
    ∀ {vector : SparseVector F} {target result : DenseVector F},
      (∀ entry ∈ vector, entry.1 = i → (entry.2 == 0) = true) → target.VanishesAt i →
      vector.scatter? target = some result → result.VanishesAt i
  | [], target, result, _, htarget, h => by
      cases h
      apply htarget
  | entry :: vector, target, result, hzero, htarget, h => by
      obtain ⟨hentry, hzero⟩ := List.forall_mem_cons.mp hzero
      unfold scatter? at h
      rw [List.foldlM_cons] at h
      obtain ⟨next, hnext, h⟩ := Option.bind_eq_some_iff.mp h
      apply vanishesAt_of_scatter? hzero _ h
      intro value hvalue
      by_cases hi : i = entry.1
      · unfold DenseVector.set? at hnext
        split at hnext
        · rename_i hlt
          cases hnext
          rw [hi, List.getElem?_set_self hlt, Option.some_inj] at hvalue
          rw [← hvalue, hentry hi.symm]
        · cases hnext
      · rw [DenseVector.getElem?_of_set? hnext hi] at hvalue
        apply htarget value hvalue

/-- A column without a nonzero in a row is zero there. -/
theorem vanishesAt_of_toDense? [ReflexiveZero F] {vector : SparseVector F} {size : ℕ}
    {dense : DenseVector F} (hzero : ∀ entry ∈ vector, entry.1 = i → (entry.2 == 0) = true)
    (h : vector.toDense? size = some dense) :
  dense.VanishesAt i
  := vanishesAt_of_scatter? hzero (DenseVector.vanishesAt_zero size i) h

omit [Scalar F] in
/-- Changing entries at other positions. -/
theorem getElem?_of_foldlM_modify? (change : F → F → F) :
    ∀ {vector : SparseVector F} {dense result : DenseVector F}, i ∉ vector.positions →
      vector.foldlM
          (fun (v : DenseVector F) entry => v.modify? entry.1 (change entry.2)) dense
        = some result →
      result[i]? = dense[i]?
  | [], dense, result, _, h => by
      cases h
      rfl
  | entry :: vector, dense, result, hi, h => by
      unfold positions at hi
      rw [List.map_cons, List.mem_cons, not_or] at hi
      rw [List.foldlM_cons] at h
      obtain ⟨next, hnext, h⟩ := Option.bind_eq_some_iff.mp h
      rw [getElem?_of_foldlM_modify? change hi.2 h]
      unfold DenseVector.modify? at hnext
      obtain ⟨value, -, hnext⟩ := Option.bind_eq_some_iff.mp hnext
      apply DenseVector.getElem?_of_set? hnext hi.1

end SparseVector

/-! ### Columns -/

namespace EtaColumn

variable {column inverse : EtaColumn F} {vector result dense : DenseVector F}

/-- Applying a column changes nothing outside its rows. -/
theorem getElem?_of_applyRight? (hrow : i ≠ column.pivotRow)
    (hoff : i ∉ column.offPivot.positions) (h : column.applyRight? vector = some result) :
  result[i]? = vector[i]?
  := by
  unfold applyRight? at h
  obtain ⟨theta, -, h⟩ := Option.bind_eq_some_iff.mp h
  split at h
  · cases h
    rfl
  · obtain ⟨moved, hmoved, h⟩ := Option.bind_eq_some_iff.mp h
    rw [DenseVector.getElem?_of_set? h hrow]
    apply SparseVector.getElem?_of_foldlM_modify? (fun value x => x + theta * value) hoff hmoved

/-- Applying a column to a vector that is zero in the pivot row. -/
theorem applyRight?_of_vanishesAt (hrow : column.pivotRow < vector.length)
    (h : vector.VanishesAt column.pivotRow) :
  column.applyRight? vector = some vector
  := by
  have hget := List.getElem?_eq_getElem hrow
  unfold applyRight?
  rw [hget, Option.bind_eq_bind, Option.bind_some, if_pos (h _ hget)]

/-- A row where a vector is zero is no row of an inverse that is made of it. -/
theorem not_mem_of_vanishesAt (h : dense.VanishesAt i)
    (hcolumn : ofDense? dense row owner = some column) (hinverse : column.invert? = some inverse) :
  i ≠ inverse.pivotRow ∧ i ∉ inverse.offPivot.positions
  := by
  obtain ⟨-, hrow, -, hpivot⟩ := ofDense?_spec hcolumn
  obtain ⟨hinverseRow, -, hpositions⟩ := invert?_spec hinverse
  have hnonzero := pivot_of_invert? hinverse
  constructor
  · rw [hinverseRow, hrow]
    rintro rfl
    rw [h _ hpivot] at hnonzero
    cases hnonzero
  · rw [hpositions]
    intro hmem
    unfold ofDense? at hcolumn
    obtain ⟨pivot, -, hcolumn⟩ := Option.bind_eq_some_iff.mp hcolumn
    cases hcolumn
    obtain ⟨entry, hentry, rfl⟩ := List.mem_map.mp hmem
    obtain ⟨⟨value, j⟩, hvalue, hkeep⟩ := List.mem_filterMap.mp (List.mem_filter.mp hentry).1
    have hget := List.mem_zipIdx_iff_getElem?.mp hvalue
    dsimp only at hkeep hget
    split at hkeep
    · cases hkeep
    · rename_i hne
      cases hkeep
      rw [h value hget] at hne
      apply hne rfl

end EtaColumn

/-- Applying a file to a vector that is zero in all pivot rows. -/
theorem EtaFile.applyRight?_of_vanishesAt {file : EtaFile F} {vector : DenseVector F}
    (h : ∀ column ∈ file.columns,
      column.pivotRow < vector.length ∧ vector.VanishesAt column.pivotRow) :
  file.applyRight? vector = some vector
  := by
  rw [applyRight?_eq_foldlM]
  generalize file.columns = columns at h
  induction columns with
  | nil => rfl
  | cons column columns ih =>
      obtain ⟨⟨hrow, hzero⟩, hcolumns⟩ := List.forall_mem_cons.mp h
      rw [List.foldlM_cons, EtaColumn.applyRight?_of_vanishesAt hrow hzero]
      apply ih hcolumns

/-- Applying a file with another column. -/
theorem EtaFile.applyRight?_of_columns {file later : EtaFile F} {column : EtaColumn F}
    (h : later.columns = file.columns ++ [column]) (vector : DenseVector F) :
  later.applyRight? vector = (file.applyRight? vector).bind column.applyRight?
  := by
  rw [applyRight?_eq_foldlM, applyRight?_eq_foldlM, h, List.foldlM_append]
  congr 1
  funext solved
  rw [List.foldlM_cons]
  cases column.applyRight? solved <;> rfl

end RevisedSimplex
