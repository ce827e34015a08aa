import RevisedSimplex.Proofs.InverseForm
import RevisedSimplex.Proofs.PlacementAccounts
import Mathlib.LinearAlgebra.Span.Basic

/-!
# What the placed columns span

A candidate is rejected when its transformed column has nothing left in the free rows.  Then its
own column is a combination of the columns of the variables that hold rows, including those that
still wait for their commit: the file takes the columns in its pivot rows to unit vectors, and the
unit vectors of the other rows that are not free are combinations as well.

The latter is clear for the rows that slacks hold.  For the row of a column singleton it is seen
when the singleton is placed, since at that moment its column has no entries but in its new row and
in rows that are neither free nor pivot rows.  `Spanned` keeps both facts; it needs no more than
that what is left in the free rows is never so small that it is passed over.
-/

open Matrix

namespace RevisedSimplex

variable {F : Type} [ExactScalar F]

/-- A threshold that admits the largest entry, and no zero. -/
def RowSelection.Proper : RowSelection F → Prop
  | largestMagnitude => True
  | markowitz threshold => 0 < threshold ∧ threshold ≤ 1

theorem RowSelection.Proper.positive {selection : RowSelection F} (h : selection.Proper) :
  selection.Positive
  := by
  cases selection with
  | largestMagnitude => trivial
  | markowitz threshold => apply h.1

namespace Placement

variable {model : Model F} {indices : List ℕ} {placement result committed : Placement F}
  {k row : ℕ} {tolerance : F} {context : Context F} {queues later : SingletonQueues}

/-! ### Rejected columns -/

/-- No entry is larger than the chosen one. -/
theorem le_of_largest? {entries : SparseVector F} {entry : ℕ × F}
    (h : largest? entries = some entry) :
  ∀ other ∈ entries, other.2 ≤ entry.2
  := by
  unfold largest? at h
  apply (foldl_select_le Prod.snd _ entries h).2
  rintro (_ | ⟨row, value⟩) a
  · refine ⟨a, rfl, le_refl _, ?_⟩
    intro b hb
    cases hb
  · dsimp only
    split
    · rename_i hle
      refine ⟨(row, value), rfl, hle, ?_⟩
      intro b hb
      cases hb
      apply le_refl
    · rename_i hlt
      refine ⟨a, rfl, le_refl _, ?_⟩
      intro b hb
      cases hb
      apply (not_le.mp hlt).le

/-- A column without a pivot row has no entry in a free row that is large enough. -/
theorem abs_lt_of_pivotRow?_eq_none (hpivot : 0 < context.tolerances.factorizationPivot)
    (hselection : context.rowSelection.Proper) {state : Elimination F} {column : DenseVector F}
    (h : pivotRow? context state column = none) {i : ℕ} (hi : i ≠ 0)
    (hfree : state.isFree i = true) {value : F} (hvalue : column[i]? = some value) :
  |value| < context.tolerances.factorizationPivot
  := by
  unfold pivotRow? at h
  dsimp only at h
  set magnitudes : SparseVector F :=
    (column.zipIdx.filter fun entry => state.isFree entry.2 && entry.2 != 0).map
      fun entry => (entry.2, Scalar.magnitude entry.1) with hmagnitudes
  have hmem : (i, |value|) ∈ magnitudes := by
    rw [hmagnitudes, List.mem_map]
    refine ⟨(value, i), ?_, by rw [ExactScalar.magnitude_eq_abs]⟩
    rw [List.mem_filter]
    refine ⟨List.mem_zipIdx_iff_getElem?.mpr hvalue, ?_⟩
    rw [Bool.and_eq_true, bne_iff_ne]
    exact ⟨hfree, hi⟩
  cases hlargest : largest? magnitudes with
  | none =>
      rw [eq_nil_of_largest?_eq_none hlargest] at hmem
      cases hmem
  | some entry =>
      rw [hlargest, Option.bind_eq_bind, Option.bind_some] at h
      have hle := le_of_largest? hlargest _ hmem
      split at h
      · rename_i hlt
        apply lt_of_le_of_lt hle hlt
      · rename_i hlarge
        split at h
        · cases h
        · rename_i threshold hrule
          rw [hrule] at hselection
          have hpos : 0 ≤ entry.2 := hpivot.le.trans (not_lt.mp hlarge)
          have hadmitted : threshold * entry.2 ≤ entry.2 := by
            apply mul_le_of_le_one_left hpos hselection.2
          have hnone := eq_nil_of_sparsest?_eq_none (Option.map_eq_none_iff.mp h)
          have hkept : entry ∈ magnitudes.filter fun other => threshold * entry.2 ≤ other.2 :=
            List.mem_filter.mpr ⟨mem_of_largest? hlargest, decide_eq_true hadmitted⟩
          rw [hnone] at hkept
          cases hkept

/-! ### Spans -/

/-- The combinations of the columns of the variables that hold a row. -/
def span (model : Model F) (positions : List (Option ℕ)) :
    Submodule F (Fin (model.nrRows + 1) → F) :=
  Submodule.span F (model.vector '' {v | some v ∈ positions})

theorem vector_mem_span {positions : List (Option ℕ)} {v : ℕ} (hv : some v ∈ positions) :
  model.vector v ∈ span model positions
  := Submodule.subset_span (Set.mem_image_of_mem _ hv)

theorem span_mono {first second : List (Option ℕ)} (h : ∀ v, some v ∈ first → some v ∈ second) :
  span model first ≤ span model second
  := Submodule.span_mono (Set.image_mono h)

/-- The unit vector of a row is combined from a vector and the unit vectors of its other rows. -/
theorem single_mem_of_mem {n : ℕ} {space : Submodule F (Fin n → F)} {x : Fin n → F} {row : Fin n}
    (hx : x ∈ space) (hrow : x row ≠ 0)
    (hothers : ∀ i, i ≠ row → x i ≠ 0 → Pi.single i 1 ∈ space) :
  Pi.single row 1 ∈ space
  := by
  have hsum : x row • (Pi.single row 1 : Fin n → F)
      = x - ∑ i ∈ Finset.univ.erase row, x i • Pi.single i 1 := by
    rw [eq_sub_iff_add_eq, Finset.add_sum_erase _ (fun i => x i • (Pi.single i 1 : Fin n → F))
      (Finset.mem_univ row)]
    apply (pi_eq_sum_univ' x).symm
  apply (space.smul_mem_iff hrow).mp
  rw [hsum]
  apply space.sub_mem hx
  apply space.sum_mem
  intro i hi
  by_cases hzero : x i = 0
  · rw [hzero, zero_smul]
    apply space.zero_mem
  · apply space.smul_mem _ (hothers i (Finset.ne_of_mem_erase hi) hzero)

/-- The unit vectors of the rows that wait for their commit, and the columns of the singular
variables, are combinations of the placed columns. -/
structure Spanned (model : Model F) (placement : Placement F) : Prop where
  deferred : ∀ k (i : Fin (model.nrRows + 1)), (k, i.val) ∈ placement.deferred →
    Pi.single i 1 ∈ span model placement.positions
  singular : ∀ v ∈ placement.singular, model.vector v ∈ span model placement.positions

/-- The unit vector of a row that is neither free nor a pivot row. -/
theorem Spanned.single_mem (h : placement.Spanned model) (hsound : placement.Sound model indices)
    {i : Fin (model.nrRows + 1)} (hfree : placement.elimination.isFree i = false)
    (hpivot : i.val ∉ placement.file.pivotRows) :
  Pi.single i 1 ∈ span model placement.positions
  := by
  have hi : i.val < placement.positions.length := by
    rw [hsound.placed.length]
    apply i.isLt
  cases hposition : placement.positions[i.val]? with
  | none =>
      rw [List.getElem?_eq_none_iff] at hposition
      omega
  | some v =>
      cases v with
      | none =>
          rw [← hsound.placed.free, hfree] at hposition
          cases hposition
      | some v =>
          rcases hsound.inverting.own i v hposition hpivot with rfl | ⟨k, hk⟩
          · rw [← model.vector_of_le]
            apply vector_mem_span (List.mem_of_getElem? hposition)
          · apply h.deferred k i hk

/-! ### Steps -/

theorem Spanned.commit? (h : placement.Spanned model) {column : EtaColumn F}
    (hcommit : placement.commit? column = some committed) :
  committed.Spanned model
  := by
  obtain ⟨inverse, -, rfl⟩ := commit?_spec hcommit
  exact ⟨h.deferred, h.singular⟩

/-- A candidate that is given a row adds its column to those that are combined. -/
theorem Spanned.place? (h : placement.Spanned model) (hplaced : placement.Placed model indices)
    {rows columns : List ℕ} (hplace : placement.place? k row = some (result, rows, columns)) :
  result.Spanned model ∧ span model placement.positions ≤ span model result.positions
  := by
  obtain ⟨candidate, elimination, -, -, hrow, -, -, -, rfl⟩ := place?_spec hplace
  have hle : span model placement.positions
      ≤ span model (placement.positions.set row (some candidate.owner)) := by
    apply span_mono
    intro v hv
    apply mem_positions_set ((hplaced.free row).mp hrow) (Or.inl hv)
  refine ⟨⟨?_, ?_⟩, hle⟩
  · intro j i hji
    apply hle (h.deferred j i hji)
  · intro v hv
    apply hle (h.singular v hv)

theorem Spanned.takeRow? (h : placement.Spanned model) (hplaced : placement.Placed model indices)
    (htake : takeRow? tolerance row placement queues = some (result, later)) :
  result.Spanned model
  := by
  rcases takeRow?_spec htake with ⟨rfl, -⟩
    | ⟨k, committed, rows, columns, -, -, hcommit, hplace, -⟩
  · apply h
  · obtain ⟨candidate, column, -, -, hcommit⟩ := commitRaw?_spec hcommit
    apply ((h.commit? hcommit).place? (hplaced.commit? hcommit) hplace).1

/-- When a column singleton gets its row, the unit vector of the row is a combination of its column
and of the columns that were placed before.  In all other rows that the column has an entry in, the
unit vectors are combinations already. -/
theorem Spanned.takeColumn? (h : placement.Spanned model)
    (hsound : placement.Sound model indices) (huntouched : placement.Untouched)
    (htake : takeColumn? tolerance k placement queues = some (result, later)) :
  result.Spanned model
  := by
  rcases takeColumn?_spec htake with ⟨rfl, -⟩
    | ⟨row, placed, rows, columns, hrowFor, -, hplace, rfl, -⟩
  · apply h
  · obtain ⟨hk, hfree, hhits, honly⟩ := hsound.placed.counted.rowFor?_spec hrowFor
    obtain ⟨hspanned, hle⟩ := h.place? hsound.placed hplace
    refine ⟨?_, hspanned.singular⟩
    intro j i hji
    rcases List.mem_cons.mp hji with hhead | htail
    · obtain ⟨rfl, rfl⟩ := Prod.mk_inj.mp hhead
      obtain ⟨candidate, elimination, hcandidate, -, -, -, -, -, rfl⟩ := place?_spec hplace
      have hordered := hsound.placed.counted.ordered
      apply single_mem_of_mem (x := placement.elimination.vector (model.nrRows + 1) j)
      · rw [hsound.placed.vector_eq hcandidate]
        apply vector_mem_span
        apply mem_positions_set ((hsound.placed.free i.val).mp hfree) (Or.inr rfl)
      · apply (Elimination.hits_iff hordered j i).mp hhits
      · intro r hr hentry
        have hhitsr := (Elimination.hits_iff hordered j r).mpr hentry
        apply hle
        apply h.single_mem hsound
        · rw [Bool.eq_false_iff]
          intro hfreer
          apply hr (Fin.ext (honly r.val hfreer hhitsr))
        · intro hpivot
          rw [huntouched j hk r.val hpivot] at hhitsr
          cases hhitsr
    · apply hspanned.deferred j i htail

/-- A vector is a combination of the placed columns when the file leaves nothing of it in the free
rows. -/
theorem Spanned.mem_of_mulVec (h : placement.Spanned model)
    (hsound : placement.Sound model indices) {x : Fin (model.nrRows + 1) → F}
    (hx : ∀ i : Fin (model.nrRows + 1), placement.elimination.isFree i = true →
      (placement.file.matrix (model.nrRows + 1) *ᵥ x) i = 0) :
  x ∈ span model placement.positions
  := by
  have hcolumns : ∀ i : Fin (model.nrRows + 1), ∃ column : Fin (model.nrRows + 1) → F,
      placement.file.matrix (model.nrRows + 1) *ᵥ column = Pi.single i 1
        ∧ (placement.elimination.isFree i = false → column ∈ span model placement.positions) := by
    intro i
    by_cases hi : i.val ∈ placement.file.pivotRows
    · obtain ⟨v, hv, hinvert⟩ := hsound.inverting.pivoted i hi
      refine ⟨model.vector v, hinvert, ?_⟩
      intro _
      apply vector_mem_span (List.mem_of_getElem? hv)
    · refine ⟨Pi.single i 1, hsound.inverting.fits.matrix_mulVec_single hi, ?_⟩
      intro hfree
      apply h.single_mem hsound hfree hi
  choose columns hinvert hspan using hcolumns
  let form : ProductForm F := { nrRows := model.nrRows, file := placement.file }
  have hinverse : form.IsInverse columns := ⟨rfl, hsound.inverting.fits, hinvert⟩
  rw [← hinverse.sum_smul x]
  apply Submodule.sum_mem
  intro i _
  cases hfree : placement.elimination.isFree i with
  | true =>
      rw [hx i hfree, zero_smul]
      apply Submodule.zero_mem
  | false => apply Submodule.smul_mem _ _ (hspan i hfree)

/-- No unassigned candidate has an entry in a free row, after the eta columns so far, that is not
zero but below the tolerance. -/
def Clear (n : ℕ) (tolerance : F) (placement : Placement F) : Prop :=
  ∀ k, placement.elimination.isUnassigned k = true → ∀ i : Fin n,
    placement.elimination.isFree i = true →
    (placement.file.matrix n *ᵥ placement.elimination.vector n k) i ≠ 0 →
    tolerance ≤ |(placement.file.matrix n *ᵥ placement.elimination.vector n k) i|

instance (n : ℕ) (tolerance : F) (placement : Placement F) :
    Decidable (placement.Clear n tolerance) :=
  decidable_of_iff (∀ k < placement.elimination.assigned.length,
    placement.elimination.isUnassigned k = true → ∀ i : Fin n,
      placement.elimination.isFree i = true →
      (placement.file.matrix n *ᵥ placement.elimination.vector n k) i ≠ 0 →
      tolerance ≤ |(placement.file.matrix n *ᵥ placement.elimination.vector n k) i|) <| by
    constructor
    · intro h k hk
      apply h k _ hk
      apply (List.getElem?_eq_some_iff.mp (beq_iff_eq.mp hk)).1
    · intro h k _ hk
      apply h k hk

/-- Nothing in the free rows is left of a candidate that is rejected. -/
theorem Spanned.placeTransformed? (h : placement.Spanned model)
    (hsound : placement.Sound model indices) (hdrop : context.tolerances.drop = 0)
    (hpivot : 0 < context.tolerances.factorizationPivot)
    (hselection : context.rowSelection.Proper)
    (hclear : placement.Clear (model.nrRows + 1) context.tolerances.factorizationPivot)
    (hk : placement.elimination.isUnassigned k = true)
    (hplace : placement.placeTransformed? context k = some result) :
  result.Spanned model
  := by
  obtain ⟨candidate, raw, solved, hcandidate, hraw, hsolved, hcases⟩ :=
    placeTransformed?_spec hplace
  rcases hcases with ⟨row, column, committed, rows, columns, -, -, hcommit, hplaced⟩
    | ⟨hnone, elimination, hdropped, rfl⟩
  · apply ((h.commit? hcommit).place? (hsound.placed.commit? hcommit) hplaced).1
  · obtain ⟨otherRaw, other, hotherRaw, hother, hlength, hentries⟩ :=
      hsound.exists_solved hcandidate
    rw [hraw, Option.some_inj] at hotherRaw
    subst hotherRaw
    rw [hsolved, Option.some_inj] at hother
    subst hother
    rw [hdrop, DenseVector.roundRelative_zero] at hnone
    refine ⟨h.deferred, ?_⟩
    intro v hv
    rcases List.mem_append.mp hv with hold | hnew
    · apply h.singular v hold
    · rw [List.mem_singleton.mp hnew, ← hsound.placed.vector_eq hcandidate]
      apply h.mem_of_mulVec hsound
      intro i hfree
      by_contra hne
      have hi : i.val ≠ 0 := (hsound.placed.ne_of_isFree hfree hsound.placed.dummy)
      have hsmall := abs_lt_of_pivotRow?_eq_none hpivot hselection hnone hi hfree
        (DenseVector.getElem?_eq_entries hlength i)
      rw [hentries] at hsmall
      apply not_le.mpr hsmall (hclear k hk i hfree hne)

/-- At the start nothing waits and nothing is singular. -/
theorem spanned_of_start? (h : start? model indices = some placement) :
  placement.Spanned model
  := by
  obtain ⟨positions, candidates, -, -, rfl⟩ := start?_spec h
  constructor
  · intro k i hpair
    cases hpair
  · intro v hv
    cases hv

/-- The singleton phase keeps what is known of the spans. -/
theorem Spanned.placeSingletons? (hsound : placement.Sound model indices)
    (huntouched : placement.Untouched) (h : placement.Spanned model)
    (hsingles : placement.placeSingletons? tolerance = some result) :
  result.Sound model indices ∧ result.Spanned model
  := by
  have hkept : result.Sound model indices ∧ result.Untouched ∧ result.Spanned model := by
    apply takeSingletons?_induction _ _ ⟨hsound, huntouched, h⟩ hsingles
    · intro row placement queues next later ⟨hsound, huntouched, h⟩ htake
      have hkept := of_exists_later (hsound.takeRow?_eq huntouched tolerance row queues) htake
      exact ⟨hkept.1, hkept.2, h.takeRow? hsound.placed htake⟩
    · intro k placement queues next later ⟨hsound, huntouched, h⟩ htake
      have hkept := of_exists_later (hsound.takeColumn?_eq huntouched tolerance k queues) htake
      exact ⟨hkept.1, hkept.2, h.takeColumn? hsound huntouched htake⟩
  exact ⟨hkept.1, hkept.2.2⟩

/-- In the last phase only combinations of placed columns are rejected. -/
theorem Spanned.placeRest? (hsound : placement.Sound model indices) (h : placement.Spanned model)
    (hdrop : context.tolerances.drop = 0) (hpivot : 0 < context.tolerances.factorizationPivot)
    (hselection : context.rowSelection.Proper) {remaining : List ℕ}
    (hlists : placement.Lists remaining)
    (hclear : ∀ turns passed, placeRest? context turns remaining placement = some passed →
      passed.Clear (model.nrRows + 1) context.tolerances.factorizationPivot)
    (hrest : placeRest? context remaining.length remaining placement = some result) :
  result.Spanned model
  := by
  refine (placeRest?_exhausts (motive := fun p => p.Sound model indices ∧ p.Spanned model) ?_ rfl
    hlists hclear ⟨hsound, h⟩ hrest).1.2
  intro k placement next ⟨hsound, h⟩ hclear hk hplace
  obtain ⟨other, hother, hkept⟩ := hsound.placeTransformed?_eq hdrop hpivot hselection.positive hk
  rw [hplace, Option.some_inj] at hother
  rw [← hother] at hkept
  exact ⟨hkept, h.placeTransformed? hsound hdrop hpivot hselection hclear hk hplace⟩

end Placement

/-! ### Singular variables -/

/-- The placements on the way through the last phase. -/
def PlacedBasis.Visits (context : Context F) (model : Model F) (indices : List ℕ)
    (placement : Placement F) : Prop :=
  ∃ start singles turns, Placement.start? model indices = some start
    ∧ start.placeSingletons? context.tolerances.factorizationPivot = some singles
    ∧ Placement.placeRest? context turns
      ((List.range singles.elimination.candidates.length).filter
        singles.elimination.isUnassigned) singles = some placement

/-- The columns of the singular variables are combinations of those of the given variables that
have positions, and of that of the objective dummy. -/
theorem PlacedBasis.vector_mem_span_of_singular {context : Context F} {model : Model F}
    {indices : List ℕ} {placed : PlacedBasis F} (hdrop : context.tolerances.drop = 0)
    (hpivot : 0 < context.tolerances.factorizationPivot)
    (hselection : context.rowSelection.Proper) (hnodup : indices.Nodup)
    (hindices : ∀ v ∈ indices, 0 < v ∧ v < model.nrVariables)
    (hclear : ∀ placement, PlacedBasis.Visits context model indices placement →
      placement.Clear (model.nrRows + 1) context.tolerances.factorizationPivot)
    (h : PlacedBasis.of? context model indices = some placed) {v : ℕ} (hv : v ∈ placed.singular) :
  model.vector v ∈ Submodule.span F
    (model.vector '' {u | u = 0 ∨ u ∈ indices ∧ u ∈ placed.positions})
  := by
  obtain ⟨start, singles, rest, last, file, hstart, hsingles, hrest, hlast, -, -, hpositions,
    hsingular⟩ := PlacedBasis.of?_spec h
  obtain ⟨first, hfirst, hsound, huntouched⟩ := Placement.start?_eq hnodup hindices
  rw [hstart, Option.some_inj] at hfirst
  subst hfirst
  obtain ⟨haccounted, -⟩ :=
    Placement.accounted_of_phases (hnodup.filter _) hindices hstart hsingles hrest
  obtain ⟨-, hlastPositions, hlastSingular⟩ := Placement.pivots_of_commitDeferred? hlast
  obtain ⟨hsound, hspanned⟩ :=
    (Placement.spanned_of_start? hstart).placeSingletons? hsound huntouched hsingles
  have hspanned := hspanned.placeRest? hsound hdrop hpivot hselection hsound.placed.lists
    (fun turns passed hpassed => hclear passed ⟨start, singles, turns, hstart, hsingles, hpassed⟩)
    hrest
  rw [hsingular, hlastSingular] at hv
  apply Submodule.span_mono _ (hspanned.singular v hv)
  apply Set.image_mono
  intro u hu
  rcases haccounted.given u hu with hzero | hgiven
  · apply Or.inl hzero
  · refine Or.inr ⟨hgiven, ?_⟩
    rw [hpositions]
    obtain ⟨i, hi⟩ := List.mem_iff_getElem?.mp hu
    apply List.mem_of_getElem?
    rw [Placement.getElem?_filledPositions, hlastPositions, hi]
    rfl

end RevisedSimplex
