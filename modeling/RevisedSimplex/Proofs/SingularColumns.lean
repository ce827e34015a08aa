import RevisedSimplex.Proofs.PlacementSpan
import Mathlib.LinearAlgebra.Matrix.Rank
import Mathlib.LinearAlgebra.Matrix.NonsingularInverse

/-!
# Singular columns

A factorization without rounding leaves out as many structural variables as their columns fall
short of independence.  The columns count only in the rows that are not held by given slacks, since
the given slacks and the objective dummy combine to anything in the other rows.

There, the columns of the placed variables are independent, because the file takes them to
different unit vectors and leaves those of the other rows as they are.  The rejected columns are
combinations of them.  Both together give the rank of the given columns, and that a list with as
many variables as rows is placed without loss exactly when its basis matrix is nonsingular.
-/

open Matrix

namespace RevisedSimplex

variable {F : Type} [ExactScalar F]

namespace Model

/-- The column of a variable in some of the rows. -/
def restricted {κ : Type} (model : Model F) (rows : κ → Fin (model.nrRows + 1)) (v : ℕ) : κ → F :=
  fun r => model.vector v (rows r)

/-- The rows of the constraints whose slacks are not given. -/
abbrev OpenRow (model : Model F) (indices : List ℕ) : Type :=
  { i : Fin (model.nrRows + 1) // i ≠ 0 ∧ i.val ∉ indices }

/-- The columns of the given structural variables in the rows whose slacks are not given. -/
def structuralMatrix (model : Model F) (indices : List ℕ) :
    Matrix (model.OpenRow indices) (Fin (indices.filter fun v => model.nrRows < v).length) F :=
  of fun i j => model.vector ((indices.filter fun v => model.nrRows < v).get j) i.val

/-- The columns of as many variables as there are constraints, in the rows of the constraints. -/
def basisMatrix (model : Model F) (indices : List ℕ) (h : indices.length = model.nrRows) :
    Matrix (Fin model.nrRows) (Fin model.nrRows) F :=
  of fun i j => model.vector (indices.get (Fin.cast h.symm j)) i.succ

end Model

/-! ### Independence -/

/-- A combination vanishes when it does so in some rows, among them those of the unit vectors that
a matrix takes its vectors to.  In the other rows the matrix keeps the unit vectors. -/
theorem eq_zero_of_vanishes {ι : Type} [Fintype ι] {n : ℕ} {matrix : Matrix (Fin n) (Fin n) F}
    {kept : Fin n → Prop} {vectors : ι → Fin n → F} {rows : ι → Fin n}
    (hvectors : ∀ j, matrix *ᵥ vectors j = Pi.single (rows j) 1)
    (hrows : Function.Injective rows) (hkept : ∀ j, kept (rows j))
    (hunits : ∀ i, ¬ kept i → matrix *ᵥ Pi.single i 1 = Pi.single i 1) {g : ι → F}
    (hzero : ∀ i, kept i → (∑ j, g j • vectors j) i = 0) (j : ι) :
  g j = 0
  := by
  set y := ∑ j, g j • vectors j with hy
  have hfixed : matrix *ᵥ y = y := by
    nth_rewrite 1 [pi_eq_sum_univ' y]
    conv_rhs => rw [pi_eq_sum_univ' y]
    rw [mulVec_sum]
    apply Finset.sum_congr rfl
    intro i _
    rw [mulVec_smul]
    by_cases hi : kept i
    · rw [hzero i hi, zero_smul, zero_smul]
    · rw [hunits i hi]
  have hsolved : matrix *ᵥ y = ∑ j, g j • Pi.single (rows j) 1 := by
    rw [hy, mulVec_sum]
    apply Finset.sum_congr rfl
    intro j _
    rw [mulVec_smul, hvectors]
  have hentry : y (rows j) = g j := by
    rw [← hfixed, hsolved, Finset.sum_apply, Finset.sum_eq_single j]
    · rw [Pi.smul_apply, Pi.single_eq_same, smul_eq_mul, mul_one]
    · intro other _ hother
      rw [Pi.smul_apply, Pi.single_eq_of_ne fun e => hother (hrows e).symm, smul_zero]
    · intro hj
      cases hj (Finset.mem_univ j)
  rw [← hentry, hzero _ (hkept j)]

section Placed

variable {model : Model F} {indices positions singular : List ℕ} {pivots : List (ℕ × ℕ)}
  {matrix : Matrix (Fin (model.nrRows + 1)) (Fin (model.nrRows + 1)) F}

/-- The columns at some positions are independent in some rows, among them the positions, when all
other rows are held by their slacks. -/
theorem linearIndependent_of_placed
    (hinverse : ∀ (i : Fin (model.nrRows + 1)) (v : ℕ), positions[i.val]? = some v →
      matrix *ᵥ model.vector v = Pi.single i 1)
    {ι κ : Type} [Fintype ι] {family : ι → ℕ} (hfamily : Function.Injective family)
    {rows : κ → Fin (model.nrRows + 1)}
    (hrows : ∀ i : Fin (model.nrRows + 1), positions[i.val]? ≠ some i.val → i ∈ Set.range rows)
    (hplaced : ∀ j, ∃ i, i ∈ Set.range rows ∧ positions[i.val]? = some (family j)) :
  LinearIndependent F fun j => model.restricted rows (family j)
  := by
  choose place hrange hplace using hplaced
  have hvectors (j : ι) : matrix *ᵥ model.vector (family j) = Pi.single (place j) 1 :=
    hinverse (place j) (family j) (hplace j)
  have hinjective : Function.Injective place := by
    intro j other hj
    have hsame := hplace j
    rw [hj, hplace other, Option.some_inj] at hsame
    apply hfamily hsame.symm
  have hunits (i : Fin (model.nrRows + 1)) (hi : i ∉ Set.range rows) :
      matrix *ᵥ Pi.single i 1 = Pi.single i 1 := by
    have hown : positions[i.val]? = some i.val := by
      by_contra hne
      apply hi (hrows i hne)
    have hunit := hinverse i i.val hown
    rw [model.vector_of_le] at hunit
    apply hunit
  apply Fintype.linearIndependent_iff.mpr
  intro g hg
  apply eq_zero_of_vanishes hvectors hinjective hrange hunits
  rintro _ ⟨r, rfl⟩
  have hr := congrFun hg r
  rw [Finset.sum_apply] at hr ⊢
  apply hr

/-- A combination of columns stays one in some of the rows. -/
theorem restricted_mem_span {κ : Type} {rows : κ → Fin (model.nrRows + 1)} {given : Set ℕ}
    {space : Submodule F (κ → F)} (hgiven : ∀ u ∈ given, model.restricted rows u ∈ space) {v : ℕ}
    (hv : model.vector v ∈ Submodule.span F (model.vector '' given)) :
  model.restricted rows v ∈ space
  := by
  have hmap := Submodule.mem_map_of_mem (f := LinearMap.funLeft F F rows) hv
  rw [Submodule.map_span] at hmap
  apply Submodule.span_le.mpr _ hmap
  rintro _ ⟨_, ⟨u, hu, rfl⟩, rfl⟩
  apply hgiven u hu

/-- The unit vectors of the dummy and of the slacks vanish in all rows but their own. -/
theorem restricted_eq_zero {κ : Type} {rows : κ → Fin (model.nrRows + 1)} {u : ℕ}
    (hu : u ≤ model.nrRows) (hrows : ∀ r, (rows r).val ≠ u) :
  model.restricted rows u = 0
  := by
  funext r
  have hunit := model.vector_of_le ⟨u, Nat.lt_succ_of_le hu⟩
  unfold Model.restricted
  rw [show model.vector u = Pi.single ⟨u, Nat.lt_succ_of_le hu⟩ 1 from hunit,
    Pi.single_eq_of_ne]
  · rfl
  · intro heq
    apply hrows r
    rw [heq]

/-- A singular variable is a given structural one without a position. -/
theorem Accounts.of_mem_singular (h : Accounts model.nrRows indices positions singular pivots)
    {v : ℕ} (hv : v ∈ singular) :
  v ∈ indices ∧ model.nrRows < v ∧ v ∉ positions
  := by
  obtain ⟨hgiven, hstructural⟩ := h.singular v hv
  rcases h.structural v hgiven hstructural with ⟨-, hnot⟩ | ⟨hnot, -⟩
  · cases hnot hv
  · exact ⟨hgiven, hstructural, hnot⟩

/-- A position of a row. -/
theorem Accounts.exists_position (h : Accounts model.nrRows indices positions singular pivots)
    {v : ℕ} (hv : v ∈ positions) :
  ∃ i : Fin (model.nrRows + 1), positions[i.val]? = some v
  := by
  obtain ⟨i, hi⟩ := List.mem_iff_getElem?.mp hv
  have hlt := (List.getElem?_eq_some_iff.mp hi).1
  rw [h.length] at hlt
  exact ⟨⟨i, hlt⟩, hi⟩

/-- A row that holds a variable other than the objective dummy is a row of a constraint. -/
theorem Accounts.ne_zero (h : Accounts model.nrRows indices positions singular pivots)
    {i : Fin (model.nrRows + 1)} {v : ℕ} (hi : positions[i.val]? = some v) (hv : 0 < v) :
  i ≠ 0
  := by
  rintro rfl
  rw [show ((0 : Fin (model.nrRows + 1)) : ℕ) = 0 from rfl, h.dummy, Option.some_inj] at hi
  omega

/-! ### The rank -/

/-- The placed structural columns are independent in the rows whose slacks are not given. -/
theorem linearIndependent_structurals
    (hinverse : ∀ (i : Fin (model.nrRows + 1)) (v : ℕ), positions[i.val]? = some v →
      matrix *ᵥ model.vector v = Pi.single i 1)
    (h : Accounts model.nrRows indices positions singular pivots) :
  LinearIndependent F fun j =>
    model.restricted (Subtype.val : model.OpenRow indices → _)
      ((positions.filter fun v => model.nrRows < v).get j)
  := by
  apply linearIndependent_of_placed hinverse (h.nodup.filter _).injective_get
  · intro i hi
    refine ⟨⟨i, ?_, ?_⟩, rfl⟩
    · rintro rfl
      apply hi h.dummy
    · intro hgiven
      apply hi (h.slack i.val hgiven (Nat.lt_succ_iff.mp i.isLt))
  · intro j
    obtain ⟨hposition, hstructural⟩ := List.mem_filter.mp (List.get_mem _ j)
    rw [decide_eq_true_eq] at hstructural
    obtain ⟨i, hi⟩ := h.exists_position hposition
    refine ⟨i, ⟨⟨i, h.ne_zero hi (Nat.zero_lt_of_lt hstructural), ?_⟩, rfl⟩, hi⟩
    intro hgiven
    rw [h.slack i.val hgiven (Nat.lt_succ_iff.mp i.isLt), Option.some_inj] at hi
    omega

/-- A structural variable with a position is a given one. -/
theorem Accounts.given_of_position (h : Accounts model.nrRows indices positions singular pivots)
    {v : ℕ} (hv : v ∈ positions) (hstructural : model.nrRows < v) :
  v ∈ indices
  := by
  obtain ⟨i, hi⟩ := h.exists_position hv
  rcases h.row i.val v hi with rfl | ⟨hgiven, -⟩
  · have hlt := i.isLt
    omega
  · apply hgiven

/-- In the rows whose slacks are not given, the columns of the dummy and of the given slacks
vanish, and only the placed structural ones are left. -/
theorem restricted_mem_span_structurals {u : ℕ} (hu : u = 0 ∨ u ∈ indices ∧ u ∈ positions) :
  model.restricted (Subtype.val : model.OpenRow indices → _) u
    ∈ Submodule.span F (model.restricted (Subtype.val : model.OpenRow indices → _)
      '' {v | v ∈ positions.filter fun v => model.nrRows < v})
  := by
  rcases hu with rfl | ⟨hgiven, hposition⟩
  · rw [restricted_eq_zero (Nat.zero_le _)]
    · apply Submodule.zero_mem
    · intro r hr
      apply r.property.1 (Fin.ext hr)
  · obtain hle | hgt := le_or_gt u model.nrRows
    · rw [restricted_eq_zero hle]
      · apply Submodule.zero_mem
      · rintro r rfl
        apply r.property.2 hgiven
    · apply Submodule.subset_span
      apply Set.mem_image_of_mem
      apply List.mem_filter.mpr ⟨hposition, decide_eq_true hgt⟩

/-- In the rows whose slacks are not given, the given structural columns span what the placed ones
span. -/
theorem span_structurals_eq (h : Accounts model.nrRows indices positions singular pivots)
    (hspan : ∀ v ∈ singular, model.vector v ∈ Submodule.span F
      (model.vector '' {u | u = 0 ∨ u ∈ indices ∧ u ∈ positions})) :
  Submodule.span F (model.restricted (Subtype.val : model.OpenRow indices → _)
      '' {v | v ∈ indices.filter fun v => model.nrRows < v})
    = Submodule.span F (model.restricted (Subtype.val : model.OpenRow indices → _)
      '' {v | v ∈ positions.filter fun v => model.nrRows < v})
  := by
  apply le_antisymm
  · apply Submodule.span_le.mpr
    rintro _ ⟨v, hv, rfl⟩
    obtain ⟨hv, hstructural⟩ := List.mem_filter.mp hv
    rcases h.structural v hv (of_decide_eq_true hstructural) with ⟨hposition, -⟩ | ⟨-, hcount⟩
    · apply restricted_mem_span_structurals (Or.inr ⟨hv, hposition⟩)
    · have hsingular : v ∈ singular := by
        apply List.count_pos_iff.mp
        rw [hcount]
        apply Nat.one_pos
      apply restricted_mem_span (fun u hu => restricted_mem_span_structurals hu)
        (hspan v hsingular)
  · apply Submodule.span_mono
    apply Set.image_mono
    intro v hv
    obtain ⟨hposition, hstructural⟩ := List.mem_filter.mp hv
    apply List.mem_filter.mpr
      ⟨h.given_of_position hposition (of_decide_eq_true hstructural), hstructural⟩

/-- The rank of the given structural columns, in the rows whose slacks are not given, is the number
of those that have got a position. -/
theorem rank_structuralMatrix
    (hinverse : ∀ (i : Fin (model.nrRows + 1)) (v : ℕ), positions[i.val]? = some v →
      matrix *ᵥ model.vector v = Pi.single i 1)
    (h : Accounts model.nrRows indices positions singular pivots)
    (hspan : ∀ v ∈ singular, model.vector v ∈ Submodule.span F
      (model.vector '' {u | u = 0 ∨ u ∈ indices ∧ u ∈ positions})) :
  (model.structuralMatrix indices).rank = (positions.filter fun v => model.nrRows < v).length
  := by
  have hcolumns : Set.range (model.structuralMatrix indices).col
      = model.restricted Subtype.val '' {v | v ∈ indices.filter fun v => model.nrRows < v} := by
    rw [← Set.range_list_get, ← Set.range_comp]
    rfl
  rw [rank_eq_finrank_span_cols, hcolumns, span_structurals_eq h hspan, ← Set.range_list_get,
    ← Set.range_comp]
  apply (finrank_span_eq_card (linearIndependent_structurals hinverse h)).trans
  apply Fintype.card_fin

/-! ### Square matrices -/

/-- Without singular variables the columns of the given variables are independent in the rows of
the constraints. -/
theorem linearIndependent_of_singular_eq_nil
    (hinverse : ∀ (i : Fin (model.nrRows + 1)) (v : ℕ), positions[i.val]? = some v →
      matrix *ᵥ model.vector v = Pi.single i 1)
    (h : Accounts model.nrRows indices positions singular pivots)
    (hpositive : ∀ v ∈ indices, 0 < v) {ι : Type} [Fintype ι] {family : ι → ℕ}
    (hfamily : Function.Injective family) (hgiven : ∀ j, family j ∈ indices)
    (hnone : singular = []) :
  LinearIndependent F fun j => model.restricted Fin.succ (family j)
  := by
  apply linearIndependent_of_placed hinverse hfamily
  · intro i hi
    apply Fin.exists_succ_eq.mpr
    rintro rfl
    apply hi h.dummy
  · intro j
    have hposition : family j ∈ positions := by
      obtain hle | hgt := le_or_gt (family j) model.nrRows
      · apply List.mem_of_getElem? (h.slack _ (hgiven j) hle)
      · rcases h.structural _ (hgiven j) hgt with ⟨hposition, -⟩ | ⟨-, hcount⟩
        · apply hposition
        · rw [hnone] at hcount
          cases hcount
    obtain ⟨i, hi⟩ := h.exists_position hposition
    exact ⟨i, Fin.exists_succ_eq.mpr (h.ne_zero hi (hpositive _ (hgiven j))), hi⟩

/-- When the columns of the given variables are independent in the rows of the constraints, none
of them is a combination of the others there, so that there are no singular variables. -/
theorem singular_eq_nil_of_linearIndependent
    (h : Accounts model.nrRows indices positions singular pivots)
    (hspan : ∀ v ∈ singular, model.vector v ∈ Submodule.span F
      (model.vector '' {u | u = 0 ∨ u ∈ indices ∧ u ∈ positions}))
    {ι : Type} {family : ι → ℕ} (hgiven : ∀ v ∈ indices, ∃ j, family j = v)
    (hindependent : LinearIndependent F fun j => model.restricted Fin.succ (family j)) :
  singular = []
  := by
  apply List.eq_nil_iff_forall_not_mem.mpr
  intro v hv
  obtain ⟨hindex, -, hnot⟩ := h.of_mem_singular hv
  obtain ⟨j, rfl⟩ := hgiven v hindex
  apply hindependent.notMem_span_image (s := {other | other ≠ j}) (x := j) fun hne => hne rfl
  apply restricted_mem_span _ (hspan (family j) hv)
  rintro u (rfl | ⟨hu, hposition⟩)
  · rw [restricted_eq_zero (Nat.zero_le _) fun r => Nat.succ_ne_zero r.val]
    apply Submodule.zero_mem
  · obtain ⟨other, rfl⟩ := hgiven u hu
    apply Submodule.subset_span
    refine ⟨other, ?_, rfl⟩
    rintro rfl
    apply hnot hposition

/-- As many variables as constraints are placed without loss exactly when their columns in the rows
of the constraints are independent. -/
theorem det_basisMatrix_ne_zero_iff
    (hinverse : ∀ (i : Fin (model.nrRows + 1)) (v : ℕ), positions[i.val]? = some v →
      matrix *ᵥ model.vector v = Pi.single i 1)
    (h : Accounts model.nrRows indices positions singular pivots) (hnodup : indices.Nodup)
    (hpositive : ∀ v ∈ indices, 0 < v)
    (hspan : ∀ v ∈ singular, model.vector v ∈ Submodule.span F
      (model.vector '' {u | u = 0 ∨ u ∈ indices ∧ u ∈ positions}))
    (hlength : indices.length = model.nrRows) :
  singular = [] ↔ (model.basisMatrix indices hlength).det ≠ 0
  := by
  rw [← isUnit_iff_ne_zero, ← isUnit_iff_isUnit_det, ← linearIndependent_cols_iff_isUnit]
  let given (j : Fin model.nrRows) : ℕ := indices.get (Fin.cast hlength.symm j)
  have hcol : (model.basisMatrix indices hlength).col
      = fun j => model.restricted Fin.succ (given j) := rfl
  rw [hcol]
  constructor
  · apply linearIndependent_of_singular_eq_nil hinverse h hpositive
    · apply hnodup.injective_get.comp (Fin.cast_injective hlength.symm)
    · intro j
      apply List.get_mem
  · apply singular_eq_nil_of_linearIndependent h hspan
    intro v hv
    obtain ⟨j, hj⟩ := List.mem_iff_get.mp hv
    exact ⟨Fin.cast hlength j, hj⟩

end Placed

/-! ### Factorizing -/

/-- The model `min x + y` subject to `x + 2 y ≤ 4` and `x + 2 y ≥ 4` for variables that are not
negative, with parallel columns. -/
def Model.parallel : Model ℚ where
  matrix := ⟨[[(0, 1), (1, 1)], [(0, 2), (1, 2)]], 2, by decide +kernel⟩
  cost := [1, 1]
  rightHandSide := [4, 4]
  relations := [.less, .greater]
  goal := .minimize
  bounds := [.atLeast 0, .atMost 0, .atLeast 0, .atLeast 0]
  cost_length := rfl
  rightHandSide_length := rfl
  relations_length := rfl
  bounds_length := rfl

namespace ProductForm

/-- The singular variables of a factorization without rounding.

Suppose that no entry that decides on a candidate is too small to be pivoted on, unless it is zero:
it is enough to ask this of the transformed candidates in the free rows, on the way through the
last phase.  Then as many structural variables are left out as their columns fall short of
independence in the rows whose slacks are not given.  As many variables as there are constraints
all get positions exactly when their basis matrix is nonsingular.  The columns that are left out
are combinations of the other given ones and of that of the objective dummy. -/
theorem factorize?_singular {context : Context F} {model : Model F} {indices : List ℕ}
    {form : ProductForm F} (hsize : form.nrRows = model.nrRows)
    (hdrop : context.tolerances.drop = 0) (hpivot : 0 < context.tolerances.factorizationPivot)
    (hselection : context.rowSelection.Proper) (hnodup : indices.Nodup)
    (hindices : ∀ v ∈ indices, 0 < v ∧ v < model.nrVariables)
    (hclear : ∀ placement, PlacedBasis.Visits context model indices placement →
      placement.Clear (model.nrRows + 1) context.tolerances.factorizationPivot) :
  ∃ outcome, form.factorize? context model indices = some outcome
    ∧ outcome.result.singular.length + (model.structuralMatrix indices).rank
      = (indices.filter fun v => model.nrRows < v).length
    ∧ (∀ hlength : indices.length = model.nrRows,
      outcome.result.singular = [] ↔ (model.basisMatrix indices hlength).det ≠ 0)
    ∧ ∀ v ∈ outcome.result.singular, model.vector v ∈ Submodule.span F
      (model.vector '' {u | u = 0 ∨ u ∈ indices ∧ u ∈ outcome.result.positions})
  := by
  obtain ⟨placed, hplaced, -, -, -, -, hinvert, -⟩ :=
    PlacedBasis.of?_eq hdrop hpivot hselection.positive hnodup hindices
  obtain ⟨haccounts, hperm, -⟩ := PlacedBasis.accounts_of_of? hnodup hindices hplaced
  obtain ⟨outcome, houtcome, hresult, -⟩ := factorize?_of_placed hsize hplaced
  have hspan : ∀ v ∈ placed.singular, model.vector v ∈ Submodule.span F
      (model.vector '' {u | u = 0 ∨ u ∈ indices ∧ u ∈ placed.positions}) := by
    intro v hv
    apply PlacedBasis.vector_mem_span_of_singular hdrop hpivot hselection hnodup hindices hclear
      hplaced hv
  have hinverse (i : Fin (model.nrRows + 1)) (v : ℕ) (hv : placed.positions[i.val]? = some v) :=
    (hinvert i v hv).2
  refine ⟨outcome, houtcome, ?_⟩
  rw [hresult]
  refine ⟨?_, ?_, hspan⟩
  · rw [rank_structuralMatrix hinverse haccounts hspan, ← hperm.length_eq, List.length_append,
      Nat.add_comm]
  · intro hlength
    apply det_basisMatrix_ne_zero_iff hinverse haccounts hnodup (fun v hv => (hindices v hv).1)
      hspan hlength

/-- Of two parallel columns one is singular. -/
theorem factorize?_singular_parallel :
  (identity 2 : ProductForm ℚ).nrRows = Model.parallel.nrRows
    ∧ Context.sample.tolerances.drop = 0
    ∧ 0 < Context.sample.tolerances.factorizationPivot
    ∧ Context.sample.rowSelection.Proper
    ∧ (∀ placement, PlacedBasis.Visits Context.sample Model.parallel [3, 4] placement →
      placement.Clear 3 Context.sample.tolerances.factorizationPivot)
    ∧ ∃ outcome, factorize? Context.sample Model.parallel [3, 4] (identity 2) = some outcome
      ∧ outcome.result.singular = [4]
      ∧ [4].length + (Model.parallel.structuralMatrix [3, 4]).rank = 2
      ∧ (Model.parallel.basisMatrix [3, 4] rfl).det = 0
      ∧ Model.parallel.vector 4 ∈ Submodule.span ℚ
        (Model.parallel.vector '' {u | u = 0 ∨ u ∈ [3, 4] ∧ u ∈ outcome.result.positions})
  := by
  have hproper : Context.sample.rowSelection.Proper := by
    change (0 : ℚ) < 1 / 10 ∧ (1 / 10 : ℚ) ≤ 1
    norm_num
  have hexact := Context.sample_exact
  have hcheck : ∀ turns < 3, ((Placement.start? Model.parallel [3, 4]).bind fun start =>
      (start.placeSingletons? Context.sample.tolerances.factorizationPivot).bind fun singles =>
        (Placement.placeRest? Context.sample turns
          ((List.range singles.elimination.candidates.length).filter
            singles.elimination.isUnassigned) singles).map fun placement =>
              decide (placement.Clear 3 Context.sample.tolerances.factorizationPivot))
        = some true := by
    decide +kernel
  have hremaining : ((Placement.start? Model.parallel [3, 4]).bind fun start =>
      (start.placeSingletons? Context.sample.tolerances.factorizationPivot).map fun singles =>
        ((List.range singles.elimination.candidates.length).filter
          singles.elimination.isUnassigned).length) = some 2 := by
    decide +kernel
  have hclear : ∀ placement, PlacedBasis.Visits Context.sample Model.parallel [3, 4] placement →
      placement.Clear 3 Context.sample.tolerances.factorizationPivot := by
    rintro placement ⟨start, singles, turns, hstart, hsingles, hpassed⟩
    rw [hstart, Option.bind_some, hsingles, Option.map_some, Option.some_inj] at hremaining
    -- two turns leave no candidate, so that all later placements are the one after them
    obtain ⟨early, hearly, hpassed⟩ : ∃ early < 3, Placement.placeRest? Context.sample early
        ((List.range singles.elimination.candidates.length).filter
          singles.elimination.isUnassigned) singles = some placement := by
      rcases Nat.lt_or_ge turns 3 with hturns | hturns
      · exact ⟨turns, hturns, hpassed⟩
      · rw [Placement.placeRest?_of_length_le (by omega), hremaining] at hpassed
        exact ⟨2, by decide, hpassed⟩
    have hvisited := hcheck early hearly
    rw [hstart, Option.bind_some, hsingles, Option.bind_some, hpassed, Option.map_some,
      Option.some_inj] at hvisited
    apply of_decide_eq_true hvisited
  obtain ⟨outcome, houtcome, hrank, hsquare, hspan⟩ :=
    factorize?_singular (show (identity 2 : ProductForm ℚ).nrRows = Model.parallel.nrRows from rfl)
      hexact.drop hexact.factorizationPivot hproper (by decide) (by decide) hclear
  have hrun : ((factorize? Context.sample Model.parallel [3, 4] (identity 2)).map
      fun outcome => outcome.result.singular) = some [4] := by
    decide +kernel
  rw [houtcome, Option.map_some, Option.some_inj] at hrun
  rw [hrun] at hrank hsquare hspan
  refine ⟨rfl, hexact.drop, hexact.factorizationPivot, hproper, hclear, outcome, houtcome, hrun,
    hrank, ?_, hspan 4 (List.mem_singleton_self 4)⟩
  by_contra hne
  cases (hsquare rfl).mpr hne

end ProductForm

end RevisedSimplex
