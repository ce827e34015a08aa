import RevisedSimplex.ColumnMatrix
import RevisedSimplex.Proofs.ExactScalar
import Mathlib.Algebra.BigOperators.Fin
import Mathlib.Data.Matrix.Mul
import Mathlib.Tactic.Ring

/-!
# Entries of vectors

Both kinds of vectors are read as functions on the positions below `n`: a dense vector by its
list, a sparse one by adding up what is listed at a position.  The operations on vectors are
the operations on these functions: `scatter?` and `nonzeros` keep the entries, `inner?` is the
inner product, a fold of `modify?` adds a multiple, and rounding with tolerance zero changes
nothing.
-/

namespace RevisedSimplex

/-! ### Lists -/

/-- A function that is defined on all elements of a list. -/
theorem mapM_eq_some_iff {α β : Type} {f : α → Option β} :
    ∀ {list : List α} {results : List β},
      list.mapM f = some results ↔ list.map f = results.map some
  | [], results => by
      cases results <;> simp
  | a :: list, results => by
      rw [List.mapM_cons]
      cases hf : f a with
      | none => cases results <;> simp [hf]
      | some b =>
          cases hrest : list.mapM f with
          | none =>
              have hnone : ∀ rest : List β, list.map f ≠ rest.map some := by
                intro rest h
                rw [mapM_eq_some_iff.mpr h] at hrest
                cases hrest
              cases results <;> simp [hf, hnone]
          | some rest =>
              have hmap := mapM_eq_some_iff.mp hrest
              cases results with
              | nil => simp
              | cons c results =>
                  simp only [Option.bind_eq_bind, Option.bind_some, List.map_cons, hf, hmap,
                    List.cons.injEq, Option.some.injEq]
                  change some (b :: rest) = some (c :: results) ↔ _
                  rw [Option.some_inj, List.cons.injEq,
                    (List.map_injective_iff.mpr (Option.some_injective β)).eq_iff]

theorem exists_of_mem_mapM {α β : Type} {f : α → Option β} {list : List α} {results : List β}
    (h : list.mapM f = some results) {b : β} (hb : b ∈ results) :
  ∃ a ∈ list, f a = some b
  := by
  have hmem := List.mem_map_of_mem (f := some) hb
  rw [← mapM_eq_some_iff.mp h] at hmem
  apply List.mem_map.mp hmem

theorem mem_mapM_of_mem {α β : Type} {f : α → Option β} {list : List α} {results : List β}
    (h : list.mapM f = some results) {a : α} (ha : a ∈ list) :
  ∃ b ∈ results, f a = some b
  := by
  have hmem := List.mem_map_of_mem (f := f) ha
  rw [mapM_eq_some_iff.mp h] at hmem
  obtain ⟨b, hb, heq⟩ := List.mem_map.mp hmem
  exact ⟨b, hb, heq.symm⟩

/-- A function that is defined on all elements of a list is defined on the list. -/
theorem exists_mapM {α β : Type} {f : α → Option β} :
    ∀ {list : List α}, (∀ a ∈ list, ∃ b, f a = some b) → ∃ results, list.mapM f = some results
  | [], _ => ⟨[], rfl⟩
  | a :: list, h => by
      obtain ⟨⟨b, hb⟩, hrest⟩ := List.forall_mem_cons.mp h
      obtain ⟨results, hresults⟩ := exists_mapM hrest
      refine ⟨b :: results, ?_⟩
      rw [List.mapM_cons, hb, hresults]
      rfl

/-- A fold comes to an end if each of its steps keeps what the next one needs. -/
theorem exists_foldlM {α β : Type} {f : β → α → Option β} {motive : β → Prop} :
    ∀ {list : List α} {b : β},
      (∀ a ∈ list, ∀ b, motive b → ∃ next, f b a = some next ∧ motive next) → motive b →
      ∃ last, list.foldlM f b = some last ∧ motive last
  | [], b, _, hb => ⟨b, rfl, hb⟩
  | a :: list, b, h, hb => by
      obtain ⟨ha, hrest⟩ := List.forall_mem_cons.mp h
      obtain ⟨next, hnext, hmotive⟩ := ha b hb
      obtain ⟨last, hlast, hmotive⟩ := exists_foldlM hrest hmotive
      refine ⟨last, ?_, hmotive⟩
      rw [List.foldlM_cons, hnext]
      apply hlast

/-- A fold that keeps the best element so far or takes the next one ends with an element of the
list. -/
theorem foldl_select_mem {α : Type} {select : Option α → α → Option α}
    (hselect : ∀ best a, select best a = best ∨ select best a = some a) :
    ∀ (list : List α) {best : Option α} {a : α}, list.foldl select best = some a →
      best = some a ∨ a ∈ list
  | [], _, _, h => Or.inl h
  | head :: list, best, a, h => by
      rcases foldl_select_mem hselect list h with hbest | hmem
      · rcases hselect best head with hkeep | htake
        · rw [hkeep] at hbest
          apply Or.inl hbest
        · rw [htake, Option.some_inj] at hbest
          rw [hbest]
          apply Or.inr List.mem_cons_self
      · apply Or.inr (List.mem_cons_of_mem _ hmem)

/-- A fold that never gives up an element ends with one unless the list is empty. -/
theorem foldl_select_ne_none {α : Type} {select : Option α → α → Option α}
    (hselect : ∀ best a, select best a ≠ none) :
    ∀ (list : List α) {best : Option α}, list.foldl select best = none → list = []
  | [], _, _ => rfl
  | head :: list, best, h => by
      rw [List.foldl_cons] at h
      have hrest := foldl_select_ne_none hselect list h
      subst hrest
      cases hselect best head h

/-- A fold that never takes a smaller element ends with one as large as all others. -/
theorem foldl_select_le {α β : Type} [Preorder β] (size : α → β) {select : Option α → α → Option α}
    (hselect : ∀ best a, ∃ next, select best a = some next ∧ size a ≤ size next
      ∧ ∀ b, best = some b → size b ≤ size next) :
    ∀ (list : List α) {best : Option α} {last : α}, list.foldl select best = some last →
      (∀ b, best = some b → size b ≤ size last) ∧ ∀ a ∈ list, size a ≤ size last
  | [], best, last, h => by
      constructor
      · intro b hb
        rw [List.foldl_nil, hb, Option.some_inj] at h
        rw [h]
      · intro a ha
        cases ha
  | head :: list, best, last, h => by
      obtain ⟨next, hnext, hhead, hbest⟩ := hselect best head
      rw [List.foldl_cons, hnext] at h
      obtain ⟨hfirst, hrest⟩ := foldl_select_le size hselect list h
      have hlast := hfirst next rfl
      constructor
      · intro b hb
        apply (hbest b hb).trans hlast
      · intro a ha
        rcases List.mem_cons.mp ha with rfl | ha
        · apply hhead.trans hlast
        · apply hrest a ha

variable {F : Type} [ExactScalar F] {n : ℕ}

/-! ### Dense vectors -/

namespace DenseVector

/-- The entries at the positions below `n`, zero beyond the end of the vector. -/
def entries (n : ℕ) (vector : DenseVector F) : Fin n → F :=
  fun i => vector[i.val]?.getD 0

theorem getElem?_eq_entries {vector : DenseVector F} (h : vector.length = n) (i : Fin n) :
  vector[i.val]? = some (vector.entries n i)
  := by
  have hi : i.val < vector.length := by
    rw [h]
    apply i.isLt
  simp [entries, List.getElem?_eq_getElem hi]

/-- The first entry. -/
theorem headD_eq_entries (vector : DenseVector F) :
  vector.headD 0 = vector.entries (n + 1) 0
  := by
  cases vector <;> rfl

/-- Vectors of one length with the same entries are equal. -/
theorem eq_of_entries_eq {v w : DenseVector F} (hv : v.length = n) (hw : w.length = n)
    (h : v.entries n = w.entries n) :
  v = w
  := by
  apply List.ext_getElem?
  intro i
  by_cases hi : i < n
  · rw [getElem?_eq_entries hv ⟨i, hi⟩, getElem?_eq_entries hw ⟨i, hi⟩, h]
  · rw [List.getElem?_eq_none (by omega), List.getElem?_eq_none (by omega)]

@[simp]
theorem entries_zero (size : ℕ) :
  (zero size : DenseVector F).entries n = 0
  := by
  funext i
  simp only [entries, zero, List.getElem?_replicate, Pi.zero_apply]
  split <;> rfl

theorem entries_set {vector : DenseVector F} (h : vector.length = n) (position : Fin n)
    (value : F) :
  entries n (List.set vector position.val value) = Function.update (vector.entries n) position value
  := by
  funext i
  have hp : position.val < vector.length := by
    rw [h]
    apply position.isLt
  by_cases hi : i = position
  · subst hi
    simp [entries, List.getElem?_set_self hp]
  · have hval : position.val ≠ i.val := fun e => hi (Fin.ext e.symm)
    simp [entries, List.getElem?_set_ne hval, Function.update_of_ne hi]

/-- Replacing an entry. -/
theorem set?_eq {vector : DenseVector F} (h : vector.length = n) (position : Fin n) (value : F) :
  ∃ result, vector.set? position.val value = some result ∧ result.length = n
    ∧ result.entries n = Function.update (vector.entries n) position value
  := by
  use List.set vector position.val value
  constructor
  · unfold set?
    rw [if_pos (by rw [h]; apply position.isLt)]
  · constructor
    · rw [List.length_set, h]
    · apply entries_set h

/-- Changing an entry. -/
theorem modify?_eq {vector : DenseVector F} (h : vector.length = n) (position : Fin n)
    (change : F → F) :
  ∃ result, vector.modify? position.val change = some result ∧ result.length = n
    ∧ result.entries n
      = Function.update (vector.entries n) position (change (vector.entries n position))
  := by
  unfold modify?
  rw [getElem?_eq_entries h]
  apply set?_eq h

/-- The unit vector of a position. -/
theorem unit?_eq (i : Fin n) :
  ∃ unit, (unit? i.val n : Option (DenseVector F)) = some unit ∧ unit.length = n
    ∧ unit.entries n = Pi.single i 1
  := by
  obtain ⟨unit, hunit, hlength, hentries⟩ := set?_eq (length_zero (F := F) n) i 1
  use unit, hunit, hlength
  rw [hentries, entries_zero]
  rfl

/-- Subtracting a multiple. -/
theorem subtractMultiple?_eq {target source : DenseVector F} (ht : target.length = n)
    (hs : source.length = n) (factor : F) :
  ∃ result, target.subtractMultiple? factor source = some result ∧ result.length = n
    ∧ result.entries n = target.entries n - factor • source.entries n
  := by
  unfold subtractMultiple?
  rw [if_pos (by rw [ht, hs])]
  by_cases hfactor : factor = 0
  · use target
    simp [hfactor, ht]
  · rw [if_neg (by simpa using hfactor)]
    refine ⟨_, rfl, by simp [ht, hs], ?_⟩
    funext i
    have hti := getElem?_eq_entries ht i
    have hsi := getElem?_eq_entries hs i
    simp only [entries, List.getElem?_zipWith, Pi.sub_apply, Pi.smul_apply, smul_eq_mul]
    rw [hti, hsi]
    by_cases hzero : source.entries n i = 0
    · simp [hzero]
    · simp [hzero]

/-- Rounding with tolerance zero. -/
@[simp]
theorem roundAbsolute_zero (vector : DenseVector F) :
  vector.roundAbsolute 0 = vector
  := by
  unfold roundAbsolute
  apply List.map_id''
  intro value
  rw [if_neg (by simp)]

/-- Relative rounding with tolerance zero. -/
@[simp]
theorem roundRelative_zero (vector : DenseVector F) :
  vector.roundRelative 0 = vector
  := by
  simp [roundRelative]

end DenseVector

/-! ### Sparse vectors -/

namespace SparseVector

/-- The entries at the positions below `n`, added up where a position is listed twice. -/
def entries (n : ℕ) (vector : SparseVector F) : Fin n → F :=
  fun i => (vector.map fun entry => if entry.1 = i.val then entry.2 else 0).sum

@[simp]
theorem entries_nil :
  entries n ([] : SparseVector F) = 0
  := rfl

theorem entries_cons (entry : ℕ × F) (vector : SparseVector F) :
  entries n (entry :: vector)
    = (fun i => if entry.1 = i.val then entry.2 else 0) + vector.entries n
  := by
  funext i
  simp [entries]

/-- No listed position, no entry. -/
theorem entries_eq_zero {vector : SparseVector F} {i : Fin n}
    (h : ∀ entry ∈ vector, entry.1 = i.val → entry.2 = 0) :
  vector.entries n i = 0
  := by
  apply List.sum_eq_zero
  intro x hx
  obtain ⟨entry, hentry, rfl⟩ := List.mem_map.mp hx
  split
  · rename_i hi
    apply h entry hentry hi
  · rfl

omit [ExactScalar F] in
/-- The positions of an ordered vector are distinct. -/
theorem Ordered.nodup {vector : SparseVector F} (h : vector.Ordered) :
  vector.positions.Nodup
  := h.imp fun hlt => hlt.ne

/-- Writing a vector with distinct positions over entries that are zero there. -/
theorem scatter?_eq :
    ∀ {vector : SparseVector F} {target : DenseVector F}, vector.positions.Nodup →
      (∀ entry ∈ vector, entry.1 < n) → target.length = n →
      (∀ i : Fin n, i.val ∈ positions vector → DenseVector.entries n target i = 0) →
      ∃ result, vector.scatter? target = some result ∧ result.length = n
        ∧ result.entries n = target.entries n + vector.entries n
  | [], target, _, _, ht, _ => by
      use target, rfl, ht
      rw [entries_nil, add_zero]
  | entry :: vector, target, hnodup, hbound, ht, hzero => by
      obtain ⟨hnot, hnodup⟩ := List.nodup_cons.mp hnodup
      obtain ⟨hentry, hbound⟩ := List.forall_mem_cons.mp hbound
      obtain ⟨next, hnext, hlength, hentries⟩ :=
        DenseVector.set?_eq ht ⟨entry.1, hentry⟩ entry.2
      have hzero' (i : Fin n) (hi : i.val ∈ positions vector) : next.entries n i = 0 := by
        have hne : i ≠ ⟨entry.1, hentry⟩ := by
          rintro rfl
          apply hnot hi
        rw [hentries, Function.update_of_ne hne]
        apply hzero i (List.mem_cons_of_mem _ hi)
      obtain ⟨result, hresult, hlen, hadd⟩ := scatter?_eq hnodup hbound hlength hzero'
      use result
      constructor
      · unfold scatter? at hresult ⊢
        rw [List.foldlM_cons, hnext]
        apply hresult
      · constructor
        · apply hlen
        · rw [hadd, hentries, entries_cons, ← add_assoc]
          congr 1
          funext i
          by_cases hi : i = ⟨entry.1, hentry⟩
          · subst hi
            have h0 := hzero ⟨entry.1, hentry⟩ List.mem_cons_self
            simp [h0]
          · have hne : entry.1 ≠ i.val := fun e => hi (Fin.ext e.symm)
            simp [Function.update_of_ne hi, hne]

/-- The dense vector of an ordered one. -/
theorem toDense?_eq {vector : SparseVector F} (hordered : vector.Ordered)
    (hbound : ∀ entry ∈ vector, entry.1 < n) :
  ∃ dense, vector.toDense? n = some dense ∧ dense.length = n
    ∧ dense.entries n = vector.entries n
  := by
  obtain ⟨dense, hdense, hlength, hentries⟩ :=
    scatter?_eq hordered.nodup hbound (DenseVector.length_zero n) (by simp)
  use dense, hdense, hlength
  rw [hentries, DenseVector.entries_zero, zero_add]

/-- An accumulated inner product. -/
theorem foldlM_inner_eq :
    ∀ {vector : SparseVector F} {dense : DenseVector F} (total : F),
      (∀ entry ∈ vector, entry.1 < n) → dense.length = n →
      vector.foldlM (fun total entry => do
        let value ← dense[entry.1]?
        some (total + value * entry.2)) total = some (total + entries n vector ⬝ᵥ dense.entries n)
  | [], dense, total, _, _ => by
      rw [entries_nil, zero_dotProduct, add_zero]
      rfl
  | entry :: vector, dense, total, hbound, hd => by
      obtain ⟨hentry, hbound⟩ := List.forall_mem_cons.mp hbound
      have hvalue := DenseVector.getElem?_eq_entries hd ⟨entry.1, hentry⟩
      have hhead : (fun i : Fin n => if entry.1 = i.val then entry.2 else 0) ⬝ᵥ dense.entries n
          = entry.2 * dense.entries n ⟨entry.1, hentry⟩ := by
        rw [dotProduct, Finset.sum_eq_single ⟨entry.1, hentry⟩]
        · simp
        · intro i _ hi
          have hne : entry.1 ≠ i.val := fun e => hi (Fin.ext e.symm)
          simp [hne]
        · simp
      have hrest := foldlM_inner_eq
        (total + dense.entries n ⟨entry.1, hentry⟩ * entry.2) hbound hd
      simp only [List.foldlM_cons, hvalue, Option.bind_eq_bind, Option.bind_some] at hrest ⊢
      rw [hrest, entries_cons, add_dotProduct, hhead, mul_comm, add_assoc]

/-- The inner product with a dense vector. -/
theorem inner?_eq {vector : SparseVector F} {dense : DenseVector F}
    (hbound : ∀ entry ∈ vector, entry.1 < n) (hd : dense.length = n) :
  vector.inner? dense = some (entries n vector ⬝ᵥ dense.entries n)
  := by
  unfold inner?
  rw [ExactScalar.emptySum_eq_zero, foldlM_inner_eq 0 hbound hd, zero_add]

/-- Changing all listed entries of a dense vector by a multiple of what is listed. -/
theorem foldlM_modify?_eq (k : F) (change : F → F → F)
    (hchange : ∀ value x, change value x = x + k * value) :
    ∀ {vector : SparseVector F} {dense : DenseVector F},
      (∀ entry ∈ vector, entry.1 < n) → dense.length = n →
      ∃ result, vector.foldlM
          (fun (v : DenseVector F) entry => v.modify? entry.1 (change entry.2)) dense
            = some result
        ∧ result.length = n ∧ result.entries n = dense.entries n + k • entries n vector
  | [], dense, _, hd => by
      use dense, rfl, hd
      rw [entries_nil, smul_zero, add_zero]
  | entry :: vector, dense, hbound, hd => by
      obtain ⟨hentry, hbound⟩ := List.forall_mem_cons.mp hbound
      obtain ⟨next, hnext, hlength, hentries⟩ :=
        DenseVector.modify?_eq hd ⟨entry.1, hentry⟩ (change entry.2)
      obtain ⟨result, hresult, hlen, hadd⟩ := foldlM_modify?_eq k change hchange hbound hlength
      use result
      constructor
      · rw [List.foldlM_cons, hnext]
        apply hresult
      · constructor
        · apply hlen
        · rw [hadd, hentries, entries_cons, smul_add, ← add_assoc]
          congr 1
          funext i
          by_cases hi : i = ⟨entry.1, hentry⟩
          · subst hi
            simp [hchange]
          · have hne : entry.1 ≠ i.val := fun e => hi (Fin.ext e.symm)
            simp [Function.update_of_ne hi, hne]

/-! ### Sparse vectors from others -/

/-- Entries at position `i` survive a filter that removes nothing but zeros there. -/
theorem entries_filter {vector : SparseVector F} {keep : ℕ × F → Bool} {i : Fin n}
    (h : ∀ entry ∈ vector, keep entry = false → entry.1 = i.val → entry.2 = 0) :
  entries n (vector.filter keep) i = entries n vector i
  := by
  induction vector with
  | nil => rfl
  | cons entry vector ih =>
      obtain ⟨hentry, hrest⟩ := List.forall_mem_cons.mp h
      rw [List.filter_cons, entries_cons, Pi.add_apply]
      split
      · rw [entries_cons, Pi.add_apply, ih hrest]
      · rename_i hkeep
        rw [ih hrest]
        split
        · rename_i hi
          rw [hentry (by simpa using hkeep) hi, zero_add]
        · rw [zero_add]

/-- Multiplying all listed entries. -/
theorem entries_map (k : F) (scale : F → F) (hscale : ∀ x, scale x = k * x)
    (vector : SparseVector F) :
  entries n (vector.map fun entry => (entry.1, scale entry.2)) = k • entries n vector
  := by
  induction vector with
  | nil => rw [List.map_nil, entries_nil, smul_zero]
  | cons entry vector ih =>
      rw [List.map_cons, entries_cons, entries_cons, ih, smul_add]
      congr 1
      funext i
      simp [hscale]

/-- A position that is listed at most once. -/
theorem valueAt?_eq_entries :
    ∀ {vector : SparseVector F}, vector.positions.Nodup →
      ∀ i : Fin n, (valueAt? vector i.val).getD 0 = entries n vector i
  | [], _, _ => rfl
  | entry :: vector, hnodup, i => by
      obtain ⟨hnot, hnodup⟩ := List.nodup_cons.mp hnodup
      have ih := valueAt?_eq_entries hnodup i
      rw [entries_cons, Pi.add_apply, ← ih]
      by_cases hi : entry.1 = i.val
      · have hnone : valueAt? vector i.val = none := by
          simp only [valueAt?, Option.map_eq_none_iff, List.find?_eq_none, beq_iff_eq]
          intro other hother he
          apply hnot
          rw [hi, ← he]
          apply List.mem_map_of_mem hother
        rw [hnone]
        simp [valueAt?, hi]
      · simp [valueAt?, hi]

/-- An entry that is listed, in a vector that lists no position twice. -/
theorem entries_of_mem :
    ∀ {vector : SparseVector F} {entry : ℕ × F} {i : Fin n}, vector.positions.Nodup →
      entry ∈ vector → entry.1 = i.val → entries n vector i = entry.2
  | head :: vector, entry, i, hnodup, hmem, hi => by
      obtain ⟨hnot, hnodup⟩ := List.nodup_cons.mp hnodup
      rw [entries_cons, Pi.add_apply]
      rcases List.mem_cons.mp hmem with rfl | hmem
      · rw [if_pos hi, entries_eq_zero, add_zero]
        intro other hother he
        exfalso
        apply hnot
        rw [hi, ← he]
        apply List.mem_map_of_mem hother
      · rw [entries_of_mem hnodup hmem hi, if_neg, zero_add]
        intro he
        apply hnot
        rw [he, ← hi]
        apply List.mem_map_of_mem hmem

/-- An entry is not zero where a nonzero is listed. -/
theorem entries_ne_zero_iff {vector : SparseVector F} (hnodup : vector.positions.Nodup)
    (i : Fin n) :
  entries n vector i ≠ 0 ↔ ∃ entry ∈ vector, entry.1 = i.val ∧ entry.2 ≠ 0
  := by
  constructor
  · intro h
    by_contra hnone
    apply h
    apply entries_eq_zero
    intro entry hentry hi
    by_contra hvalue
    apply hnone
    use entry
  · rintro ⟨entry, hentry, hi, hvalue⟩
    rw [entries_of_mem hnodup hentry hi]
    apply hvalue

theorem entries_shift_succ (vector : SparseVector F) (i : Fin n) :
  entries (n + 1) (vector.shift 1) i.succ = entries n vector i
  := by
  unfold entries shift
  rw [List.map_map]
  congr 1
  apply List.map_congr_left
  intro entry _
  simp

theorem entries_shift_zero (vector : SparseVector F) :
  entries (n + 1) (vector.shift 1) 0 = 0
  := by
  apply entries_eq_zero
  intro entry hentry hzero
  obtain ⟨original, _, rfl⟩ := List.mem_map.mp hentry
  simp at hzero

/-- The entries that `nonzeros` lists. -/
theorem mem_nonzeros_iff {G : Type} [Scalar G] {dense : DenseVector G} {entry : ℕ × G} :
  entry ∈ nonzeros dense ↔ dense[entry.1]? = some entry.2 ∧ (entry.2 == 0) = false
  := by
  obtain ⟨i, x⟩ := entry
  unfold nonzeros
  rw [List.mem_filterMap, ← List.mem_zipIdx_iff_getElem? (x := (x, i))]
  constructor
  · rintro ⟨⟨value, position⟩, hmem, h⟩
    split at h
    · cases h
    · rename_i hne
      cases h
      exact ⟨hmem, by simpa using hne⟩
  · rintro ⟨hmem, hne⟩
    use (x, i), hmem
    rw [if_neg (by simpa using hne)]

omit [ExactScalar F] in
/-- The nonzeros of a dense vector are listed in order. -/
theorem ordered_nonzeros [Scalar F] (dense : DenseVector F) :
  (nonzeros dense).Ordered
  := by
  have hpositions : dense.zipIdx.Pairwise fun first second => first.2 < second.2 := by
    apply List.Pairwise.of_map Prod.snd (fun _ _ h => h)
    rw [List.zipIdx_map_snd]
    exact List.pairwise_lt_range'
  unfold Ordered positions nonzeros
  rw [List.pairwise_map]
  apply hpositions.filterMap
  intro first second hlt firstEntry hfirst secondEntry hsecond
  split at hfirst
  · cases hfirst
  · split at hsecond
    · cases hsecond
    · cases hfirst
      cases hsecond
      apply hlt

/-- The entries of the nonzeros of a vector whose positions are counted from `start`. -/
theorem entries_nonzeros_from :
    ∀ (dense : DenseVector F) (start : ℕ) (i : Fin n),
      entries n ((dense.zipIdx start).filterMap fun entry =>
          if entry.1 = 0 then none else some (entry.2, entry.1)) i
        = if start ≤ i.val then dense[i.val - start]?.getD 0 else 0
  | [], start, i => by simp
  | value :: dense, start, i => by
      have ih := entries_nonzeros_from dense (start + 1) i
      rw [List.zipIdx_cons, List.filterMap_cons]
      obtain hlt | heq | hgt := lt_trichotomy start i.val
      · have hsub : i.val - start = (i.val - (start + 1)) + 1 := by omega
        by_cases hzero : value = 0
        · simp [hzero, ih, hlt.le, Nat.succ_le_of_lt hlt, hsub]
        · simp [hzero, ih, hlt.le, Nat.succ_le_of_lt hlt, hsub, entries_cons, hlt.ne]
      · rw [if_neg (by omega)] at ih
        by_cases hzero : value = 0
        · simp only [hzero, if_true, ih]
          simp [heq]
        · simp only [hzero, if_false, entries_cons, Pi.add_apply, ih]
          simp [heq]
      · have hle : ¬ start + 1 ≤ i.val := by omega
        by_cases hzero : value = 0
        · simp [hzero, ih, hle, hgt.not_ge]
        · simp [hzero, ih, hle, hgt.not_ge, entries_cons, hgt.ne']

/-- The nonzeros of a dense vector have its entries. -/
theorem entries_nonzeros (dense : DenseVector F) :
  entries n (nonzeros dense) = dense.entries n
  := by
  funext i
  have h := entries_nonzeros_from dense 0 i
  simp only [Nat.zero_le, if_true, Nat.sub_zero] at h
  simp only [nonzeros, beq_iff_eq]
  apply h

end SparseVector

end RevisedSimplex
