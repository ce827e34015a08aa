import RevisedSimplex.Proofs.Tableau

/-!
# Refactorizations

Factorizing the basis of an iterate from scratch gives an exact iterate, whatever the iterate was
before, as long as no small values are zeroed.  When no column turns out singular, the basic
variables are the same as before in another order, and an iterate that was exact before keeps the
value of every variable.
-/

namespace RevisedSimplex

namespace Iterate

variable {F : Type} [ExactScalar F] {model : Model F} {iterate : Iterate F}
  {form : ProductForm F} {context : Context F}

/-- Positions with an inverse are distinct. -/
theorem nodup_of_isInverse {positions : List ℕ} (hlength : positions.length = model.nrRows + 1)
    (h : form.IsInverse (ProductForm.basisColumns model positions)) :
  positions.Nodup
  := by
  rw [List.nodup_iff_injective_get]
  intro i j hij
  have hi : i.val < model.nrRows + 1 := by
    rw [← hlength]
    apply i.isLt
  have hj : j.val < model.nrRows + 1 := by
    rw [← hlength]
    apply j.isLt
  have hsame : (⟨i.val, hi⟩ : Fin (model.nrRows + 1)) = ⟨j.val, hj⟩ := by
    apply h.injective
    unfold ProductForm.basisColumns
    rw [List.getElem?_eq_getElem i.isLt, List.getElem?_eq_getElem j.isLt, Option.getD_some,
      Option.getD_some]
    rw [List.get_eq_getElem, List.get_eq_getElem] at hij
    rw [hij]
  apply Fin.ext (Fin.mk.inj_iff.mp hsame)

/-- A factorization from scratch represents the basis.  The values are exact unless small ones are
zeroed. -/
theorem Sized.refactorize?_eq (h : iterate.Sized model) (hcontext : context.Exact)
    (hsize : form.nrRows = model.nrRows) :
  ∃ outcome, iterate.refactorize? context model form = some outcome
    ∧ Represented model outcome.state.2 outcome.state.1 ∧ outcome.state.1.current = true
    ∧ (context.tolerances.primal = 0 → model.Solves (outcome.state.1.point model))
    ∧ (outcome.result.singular = [] →
      outcome.state.1.basis.sides = iterate.basis.sides
        ∧ ∀ v, v ∈ outcome.state.1.basis.owners ↔ v ∈ iterate.basis.owners)
  := by
  have hindices (v : ℕ) (hv : v ∈ iterate.basis.basic) : 0 < v ∧ v < model.nrVariables :=
    h.of_mem_basic hv
  obtain ⟨factorized, hfactorized, hlength, hfirst, hrange, hinverse, -, hkept⟩ :=
    ProductForm.factorize?_eq hcontext hsize iterate.basis.nodup_basic hindices
  obtain ⟨basis, hbasis⟩ :=
    h.exists_applyPositions? hfirst hlength (nodup_of_isInverse hlength hinverse) hrange
  obtain ⟨howners, -, -, hsides⟩ := Basis.applyPositions?_eq hbasis
  have hrepresented : Represented model factorized.state { iterate with basis } := by
    refine ⟨h.applyPositions? hbasis, ?_⟩
    change factorized.state.IsInverse (ProductForm.basisColumns model basis.owners)
    rw [howners]
    apply hinverse
  obtain ⟨values, hvalues, hexact⟩ := hrepresented.recompute?_eq hcontext.drop
  have hrefactorize : iterate.refactorize? context model form = some
      { result := factorized.result
        state :=
          ({ iterate with
            basis
            values := DenseVector.roundAbsolute context.tolerances.primal values
            current := true }, factorized.state)
        events := factorized.events } := by
    unfold refactorize?
    change (ProductForm.factorize? context model iterate.basis.basic form).bind _ = _
    rw [hfactorized, Option.bind_some, hbasis, Option.bind_eq_bind, Option.bind_some, hvalues]
    rfl
  have hsized := hexact.sized
  have hrounded := DenseVector.length_roundAbsolute context.tolerances.primal values
  refine ⟨_, hrefactorize, ⟨⟨hsized.nrRows, hsized.nrVariables, hrounded.trans hsized.values,
    hsized.pivotColumn⟩, hexact.inverse⟩, rfl, ?_, ?_⟩
  · intro hprimal
    dsimp only
    rw [hprimal, DenseVector.roundAbsolute_zero]
    apply hexact.solves
  intro hsingular
  have hbasic (v : ℕ) (hv : v ∈ iterate.basis.basic) :
      v ∈ factorized.result.positions := by
    apply (hkept v hv).resolve_right
    rw [hsingular]
    apply List.not_mem_nil
  use hsides hbasic
  intro v
  rw [howners]
  apply (h.perm_owners hfirst hlength hbasic).mem_iff.symm

end Iterate

end RevisedSimplex
