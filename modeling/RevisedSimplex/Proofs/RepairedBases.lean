import RevisedSimplex.Proofs.FactorizationAccounts
import RevisedSimplex.Proofs.IterateProgress

/-!
# Repaired bases

A factorization that finds singular columns repairs the basis: the singular variables give up their
rows, and the slacks of rows that no variable holds take their places.  What else there is in the
basis stays as it is.  The basic variables are the old ones without the singular ones and with as
many slacks, each at its own row, and the only sides that are stored anew are those of the singular
variables.

The two parts of this meet in the positions that are handed over.  The accounts of a factorization
say which variables these are, and `applyPositions?` resets the side of a variable exactly when it
has lost its position.
-/

namespace RevisedSimplex

variable {F : Type} [Scalar F] {model : Model F} {v : ℕ}

/-! ### Sides that are reset -/

namespace BasisTable

variable {positions : List (Option ℕ)} {sides reset : List Side} {vs : List ℕ}

/-- One variable is put to its first side if it has no position, and no other side changes. -/
theorem getElem?_resetSide? {w : ℕ} (h : resetSide? positions model sides w = some reset) :
  (positions[w]? = some none → w < sides.length →
      ∃ bounds, model.bounds? w = some bounds ∧ reset[w]? = some bounds.initialSide)
    ∧ (v ≠ w ∨ positions[v]? ≠ some none → reset[v]? = sides[v]?)
  := by
  unfold resetSide? at h
  split at h
  · rename_i hnone
    obtain ⟨bounds, hbounds, rfl⟩ := Option.map_eq_some_iff.mp h
    constructor
    · intro _ hlt
      exact ⟨bounds, hbounds, List.getElem?_set_self hlt⟩
    · intro hv
      rw [List.getElem?_set_ne]
      rintro rfl
      rcases hv with hne | hposition
      · apply hne rfl
      · apply hposition hnone
  · rename_i hposition
    cases h
    exact ⟨fun hnone => absurd hnone hposition, fun _ => rfl⟩

/-- Of several variables, those without a position are put to their first sides.  The induction is
on the variables: one that comes again later is put to the same side again. -/
theorem getElem?_resetSides? (h : vs.foldlM (resetSide? positions model) sides = some reset) :
  (v ∈ vs → positions[v]? = some none → v < sides.length →
      ∃ bounds, model.bounds? v = some bounds ∧ reset[v]? = some bounds.initialSide)
    ∧ (v ∉ vs ∨ positions[v]? ≠ some none → reset[v]? = sides[v]?)
  := by
  induction vs generalizing sides with
  | nil =>
      cases h
      exact ⟨fun hv => absurd hv List.not_mem_nil, fun _ => rfl⟩
  | cons w vs ih =>
      obtain ⟨next, hnext, h⟩ := Option.bind_eq_some_iff.mp h
      obtain ⟨hreset, hkept⟩ := ih h
      have hlength := length_resetSide? hnext
      constructor
      · intro hv hnone hlt
        by_cases hmem : v ∈ vs
        · apply hreset hmem hnone
          rw [hlength]
          apply hlt
        · obtain rfl := (List.mem_cons.mp hv).resolve_right hmem
          rw [hkept (Or.inl hmem)]
          apply (getElem?_resetSide? (v := v) hnext).1 hnone hlt
      · intro hv
        rw [List.mem_cons, not_or] at hv
        rw [hkept (hv.imp_left And.right), (getElem?_resetSide? hnext).2 (hv.imp_left And.left)]

end BasisTable

/-- The sides after positions are taken over: a variable that loses its position is put to its
first side, and no other side changes. -/
theorem Basis.side?_of_applyPositions? {basis after : Basis} {positions : List ℕ}
    (h : basis.applyPositions? positions model = some after) :
  (v ∈ basis.owners → v ∉ after.owners →
      ∃ bounds, model.bounds? v = some bounds ∧ after.side? v = some bounds.initialSide)
    ∧ (v ∉ basis.owners ∨ v ∈ after.owners → after.side? v = basis.side? v)
  := by
  obtain ⟨howners, -, hvariables, -⟩ := applyPositions?_eq h
  have hnone : v ∉ after.owners → v < basis.nrVariables → after.positions[v]? = some none := by
    intro hv hlt
    apply BasisTable.positions_of_isNonbasic (isNonbasic_iff.mpr ⟨_, hv⟩)
    rw [hvariables]
    apply hlt
  have hsome : v ∈ after.owners → after.positions[v]? ≠ some none := by
    intro hv hposition
    obtain ⟨i, hi⟩ := List.mem_iff_getElem?.mp hv
    rw [(after.consistent.inverse i v).mp hi] at hposition
    cases hposition
  obtain ⟨table, _, happly, htable⟩ := Option.pmap_eq_some_iff.mp h
  obtain ⟨-, -, -, -, sides, hsides, hparts⟩ := BasisTable.applyPositions?_eq_some happly
  have hparts := (congrArg Basis.toBasisTable htable).trans hparts
  have hpositions := congrArg BasisTable.positions hparts
  have hafter := congrArg BasisTable.sides hparts
  dsimp only at hpositions hafter
  rw [← hpositions, ← hafter] at hsides
  obtain ⟨hreset, hkept⟩ := BasisTable.getElem?_resetSides? (v := v) hsides
  constructor
  · intro hold hnew
    have hlt := lt_of_mem_owners hold
    apply hreset hold (hnone hnew hlt)
    rw [basis.length_sides]
    apply hlt
  · intro hv
    apply hkept (hv.imp_right hsome)

/-! ### Variables that come and go -/

/-- The basic variables that another basis has not had. -/
def Basis.incoming (before after : Basis) : List ℕ :=
  after.owners.filter fun v => v ∉ before.owners

theorem Basis.mem_incoming {before after : Basis} :
  v ∈ before.incoming after ↔ v ∈ after.owners ∧ v ∉ before.owners
  := by
  unfold incoming
  rw [List.mem_filter, decide_eq_true_eq]

namespace Accounts

variable {before after : Basis} {singular : List ℕ} {pivots : List (ℕ × ℕ)}

/-- Every singular variable is listed once. -/
theorem nodup_singular {nrRows : ℕ} {indices positions : List ℕ}
    (h : Accounts nrRows indices positions singular pivots) :
  singular.Nodup
  := by
  rw [List.nodup_iff_count_le_one]
  intro v
  by_cases hv : v ∈ singular
  · obtain ⟨hmem, hlt⟩ := h.singular v hv
    rcases h.structural v hmem hlt with ⟨-, hnot⟩ | ⟨-, hcount⟩
    · cases hnot hv
    · apply hcount.le
  · rw [List.count_eq_zero_of_not_mem hv]
    apply Nat.zero_le

theorem mem_owners_of_singular (h : Accounts before.nrRows before.basic after.owners singular pivots)
    (hv : v ∈ singular) :
  v ∈ before.owners
  := by
  rw [before.owners_eq]
  apply List.mem_cons_of_mem 0 (h.singular v hv).1

/-- A basic variable stays one unless it is singular. -/
theorem mem_owners_iff (h : Accounts before.nrRows before.basic after.owners singular pivots)
    (hv : v ∈ before.owners) :
  v ∈ after.owners ↔ v ∉ singular
  := by
  rw [before.owners_eq] at hv
  rcases List.mem_cons.mp hv with rfl | hv
  · refine ⟨fun _ hsingular => ?_, fun _ => List.mem_of_getElem? h.dummy⟩
    cases (h.singular 0 hsingular).2
  · obtain hle | hgt := le_or_gt v before.nrRows
    · refine ⟨fun _ hsingular => ?_, fun _ => List.mem_of_getElem? (h.slack v hv hle)⟩
      exact absurd (h.singular v hsingular).2 (not_lt.mpr hle)
    · rcases h.structural v hv hgt with ⟨hmem, hnot⟩ | ⟨hnot, hcount⟩
      · exact iff_of_true hmem hnot
      · apply iff_of_false hnot
        rw [not_not, ← List.count_pos_iff, hcount]
        apply Nat.zero_lt_one

theorem isBasic_iff (h : Accounts before.nrRows before.basic after.owners singular pivots) :
  after.isBasic v = true
    ↔ before.isBasic v = true ∧ v ∉ singular ∨ v ∈ before.incoming after
  := by
  rw [Basis.isBasic_iff, Basis.isBasic_iff, Basis.mem_incoming]
  by_cases hv : v ∈ before.owners
  · simp only [hv, h.mem_owners_iff hv, true_and, not_true, and_false, or_false]
  · simp only [hv, false_and, not_false_eq_true, and_true, false_or]

/-- What comes in is the slack of the row where it stands. -/
theorem own_of_incoming (h : Accounts before.nrRows before.basic after.owners singular pivots)
    (hv : v ∈ before.incoming after) :
  0 < v ∧ v ≤ before.nrRows ∧ after.positionOf? v = some v
  := by
  obtain ⟨hmem, hnot⟩ := Basis.mem_incoming.mp hv
  rw [before.owners_eq, List.mem_cons, not_or] at hnot
  obtain ⟨i, hi⟩ := List.mem_iff_getElem?.mp hmem
  rcases h.row i v hi with rfl | ⟨hbasic, -⟩
  · have hlt := (List.getElem?_eq_some_iff.mp hi).1
    rw [h.length] at hlt
    exact ⟨Nat.pos_of_ne_zero hnot.1, Nat.le_of_lt_succ hlt, Basis.positionOf?_eq_some_iff.mpr hi⟩
  · cases hnot.2 hbasic

/-- As many variables come in as there are singular ones: both are what is left of `m + 1`
variables without those that the two bases share. -/
theorem length_incoming (h : Accounts before.nrRows before.basic after.owners singular pivots) :
  (before.incoming after).length = singular.length
  := by
  have hshared : (after.owners.filter fun v => v ∈ before.owners).Perm
      (before.owners.filter fun v => v ∉ singular) := by
    apply (List.perm_ext_iff_of_nodup (h.nodup.filter _) (before.nodup_owners.filter _)).mpr
    intro v
    simp only [List.mem_filter, decide_eq_true_eq]
    rw [and_comm, and_congr_right_iff]
    apply h.mem_owners_iff
  have hlost : (before.owners.filter fun v => v ∈ singular).Perm singular := by
    apply (List.perm_ext_iff_of_nodup (before.nodup_owners.filter _) h.nodup_singular).mpr
    intro v
    simp only [List.mem_filter, decide_eq_true_eq, and_iff_right_iff_imp]
    apply h.mem_owners_of_singular
  have hafter := after.owners.length_eq_length_filter_add fun v => decide (v ∈ before.owners)
  have hbefore := before.owners.length_eq_length_filter_add fun v => decide (v ∈ singular)
  simp only [← decide_not] at hafter hbefore
  rw [h.length, hshared.length_eq] at hafter
  rw [before.length_owners, hlost.length_eq] at hbefore
  unfold Basis.incoming
  omega

end Accounts

/-! ### Refactorizations -/

namespace Iterate

variable {context : Context F} {iterate after : Iterate F} {form : ProductForm F}

theorem basis_of_recompute? (h : iterate.recompute? context model form = some after) :
  after.basis = iterate.basis
  := by
  unfold recompute? at h
  obtain ⟨start, -, h⟩ := Option.bind_eq_some_iff.mp h
  obtain ⟨moved, -, h⟩ := Option.bind_eq_some_iff.mp h
  obtain ⟨solved, -, h⟩ := Option.bind_eq_some_iff.mp h
  cases h
  rfl

/-- The basis after a refactorization has taken over the positions of a factorization. -/
theorem refactorize?_eq_some {outcome : Outcome (Iterate F × ProductForm F) Factorization}
    (h : iterate.refactorize? context model form = some outcome) :
  ∃ factorized, form.factorize? context model iterate.basis.basic = some factorized
    ∧ outcome.result = factorized.result
    ∧ iterate.basis.applyPositions? factorized.result.positions model
      = some outcome.state.1.basis
  := by
  obtain ⟨factorized, basis, recomputed, hfactorized, hbasis, hrecomputed, rfl⟩ :=
    refactorize?_spec h
  refine ⟨factorized, hfactorized, rfl, ?_⟩
  have hsame : recomputed.basis = basis := basis_of_recompute? hrecomputed
  rw [hbasis, ← hsame]

/-- The accounts of a refactorization. -/
theorem Sized.accounts (h : iterate.Sized model)
    {outcome : Outcome (Iterate F × ProductForm F) Factorization}
    (houtcome : iterate.refactorize? context model form = some outcome) :
  ∃ pivots, Accounts iterate.basis.nrRows iterate.basis.basic outcome.state.1.basis.owners
    outcome.result.singular pivots
  := by
  have hindices (v : ℕ) (hv : v ∈ iterate.basis.basic) : 0 < v ∧ v < model.nrVariables :=
    h.of_mem_basic hv
  obtain ⟨factorized, hfactorized, hresult, hbasis⟩ := refactorize?_eq_some houtcome
  obtain ⟨howners, -⟩ := Basis.applyPositions?_eq hbasis
  obtain ⟨-, placed, hplaced, hplacement, -⟩ := ProductForm.factorize?_spec hfactorized
  obtain ⟨haccounts, -⟩ := PlacedBasis.accounts_of_of? iterate.basis.nodup_basic hindices hplaced
  rw [howners, hresult, hplacement, h.nrRows]
  exact ⟨_, haccounts⟩

/-- What a refactorization does to a basis, in any numbers.

The basis is consistent again.  Its basic variables are the old ones without the singular ones, and
the slacks of as many rows, which were nonbasic before and are now at their own rows.  A singular
variable is nonbasic at its lower bound, at its upper bound if that is the only one, and no other
side changes.  Without singular columns the basic variables and all sides are the same. -/
theorem Sized.refactorize?_repairs [LawfulScalar F] (h : iterate.Sized model)
    (hsize : form.nrRows = model.nrRows) (hpivot : 0 < context.tolerances.factorizationPivot)
    (hselection : context.rowSelection = .largestMagnitude) :
  ∃ outcome, iterate.refactorize? context model form = some outcome
    ∧ outcome.state.1.basis.isConsistent = true
    ∧ outcome.state.1.basis.nrRows = model.nrRows
    ∧ outcome.state.1.basis.nrVariables = model.nrVariables
    ∧ outcome.result.singular.Nodup
    ∧ (∃ slacks : List ℕ, slacks.Nodup ∧ slacks.length = outcome.result.singular.length
      ∧ (∀ i ∈ slacks, 0 < i ∧ i ≤ model.nrRows ∧ iterate.basis.isNonbasic i = true
        ∧ outcome.state.1.basis.positionOf? i = some i)
      ∧ ∀ v, outcome.state.1.basis.isBasic v = true
        ↔ iterate.basis.isBasic v = true ∧ v ∉ outcome.result.singular ∨ v ∈ slacks)
    ∧ (∀ v ∈ outcome.result.singular, iterate.basis.isBasic v = true
      ∧ outcome.state.1.basis.isNonbasic v = true
      ∧ ∃ bounds, model.bounds? v = some bounds ∧ outcome.state.1.basis.side? v
        = some (if bounds.lower.isSome ∨ bounds.upper.isNone then .lower else .upper))
    ∧ (∀ v, v ∉ outcome.result.singular →
      outcome.state.1.basis.side? v = iterate.basis.side? v)
    ∧ (outcome.result.singular = [] →
      (∀ v, outcome.state.1.basis.isBasic v = iterate.basis.isBasic v)
        ∧ outcome.state.1.basis.sides = iterate.basis.sides)
  := by
  obtain ⟨outcome, houtcome⟩ := h.exists_refactorize? hsize hpivot hselection
  obtain ⟨pivots, haccounts⟩ := h.accounts houtcome
  obtain ⟨factorized, -, -, hbasis⟩ := refactorize?_eq_some houtcome
  obtain ⟨-, hnrRows, hnrVariables, -⟩ := Basis.applyPositions?_eq hbasis
  have hsides (v : ℕ) (hv : v ∉ outcome.result.singular) :
      outcome.state.1.basis.side? v = iterate.basis.side? v := by
    apply (Basis.side?_of_applyPositions? hbasis).2
    by_cases hmem : v ∈ iterate.basis.owners
    · exact Or.inr ((haccounts.mem_owners_iff hmem).mpr hv)
    · exact Or.inl hmem
  refine ⟨outcome, houtcome, Basis.isConsistent_eq_true _, hnrRows.trans h.nrRows,
    hnrVariables.trans h.nrVariables, haccounts.nodup_singular,
    ⟨iterate.basis.incoming outcome.state.1.basis, (Basis.nodup_owners _).filter _,
      haccounts.length_incoming, ?_, fun _ => haccounts.isBasic_iff⟩, ?_, hsides, ?_⟩
  · intro i hi
    obtain ⟨hpos, hle, hposition⟩ := haccounts.own_of_incoming hi
    rw [h.nrRows] at hle
    refine ⟨hpos, hle, Basis.isNonbasic_iff.mpr ⟨?_, (Basis.mem_incoming.mp hi).2⟩, hposition⟩
    rw [h.nrVariables]
    unfold Model.nrVariables
    omega
  · intro v hv
    have hbefore := haccounts.mem_owners_of_singular hv
    have hafter := mt (haccounts.mem_owners_iff hbefore).mp (not_not_intro hv)
    obtain ⟨bounds, hbounds, hside⟩ := (Basis.side?_of_applyPositions? hbasis).1 hbefore hafter
    refine ⟨Basis.isBasic_iff.mpr hbefore, Basis.isNonbasic_iff.mpr ⟨?_, hafter⟩, bounds, hbounds,
      ?_⟩
    · rw [hnrVariables]
      apply Basis.lt_of_mem_owners hbefore
    · rw [hside]
      simp [Bounds.initialSide]
  · intro hempty
    have hnone : iterate.basis.incoming outcome.state.1.basis = [] := by
      apply List.eq_nil_of_length_eq_zero
      rw [haccounts.length_incoming, hempty, List.length_nil]
    constructor
    · intro v
      rw [Bool.eq_iff_iff, haccounts.isBasic_iff, hnone, hempty]
      simp
    · apply List.ext_getElem?
      intro v
      apply hsides v
      rw [hempty]
      apply List.not_mem_nil

/-- The third of three columns of doubles is the sum of the others.  It is singular, the slack of
the third row takes its place, and it rests at its lower bound. -/
theorem Sized.refactorize?_repairs_dependent :
  ∃ basis, Basis.ofParts 3 [4, 5, 6] (List.replicate 7 .upper) = .ok basis
    ∧ (start basis).Sized Model.dependent
    ∧ (ProductForm.identity 3 : ProductForm Float).nrRows = Model.dependent.nrRows
    ∧ 0 < Context.doubles.tolerances.factorizationPivot
    ∧ Context.doubles.rowSelection = .largestMagnitude
    ∧ ∃ outcome, (start basis).refactorize? Context.doubles Model.dependent
        (ProductForm.identity 3 : ProductForm Float) = some outcome
      ∧ outcome.result.singular = [6] ∧ outcome.state.1.basis.owners = [0, 4, 5, 3]
      ∧ outcome.state.1.basis.isConsistent = true
      ∧ outcome.state.1.basis.side? 6 = some .lower
      ∧ outcome.state.1.basis.side? 3 = some .upper
  := by
  have hrows : (ProductForm.identity 3 : ProductForm Float).nrRows = Model.dependent.nrRows := rfl
  have hpivot : 0 < Context.doubles.tolerances.factorizationPivot := by decide +kernel
  obtain ⟨basis, hbasis⟩ :
      ∃ basis, Basis.ofParts 3 [4, 5, 6] (List.replicate 7 .upper) = .ok basis := ⟨_, rfl⟩
  have hsized : (start basis : Iterate Float).Sized Model.dependent := by
    cases hbasis
    exact ⟨rfl, rfl, rfl, rfl⟩
  obtain ⟨outcome, houtcome, hconsistent, -, -, -, -, hsingular, hkept, -⟩ :=
    hsized.refactorize?_repairs hrows hpivot rfl
  have hcomputed : ((start basis).refactorize? Context.doubles Model.dependent
      (ProductForm.identity 3 : ProductForm Float)).map (fun outcome =>
        (outcome.result.singular, outcome.state.1.basis.owners))
      = some ([6], [0, 4, 5, 3]) := by
    cases hbasis
    decide +kernel
  rw [houtcome, Option.map_some, Option.some_inj, Prod.mk_inj] at hcomputed
  obtain ⟨hsix, howners⟩ := hcomputed
  refine ⟨basis, hbasis, hsized, hrows, hpivot, rfl, outcome, houtcome, hsix, howners, hconsistent,
    ?_, ?_⟩
  · obtain ⟨-, -, bounds, hbounds, hside⟩ := hsingular 6 (by rw [hsix]; decide)
    cases hbounds
    apply hside
  · rw [hkept 3 (by rw [hsix]; decide)]
    cases hbasis
    rfl

end Iterate

end RevisedSimplex
