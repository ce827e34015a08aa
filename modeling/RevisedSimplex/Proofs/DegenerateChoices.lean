import RevisedSimplex.Proofs.RepeatedSolves
import RevisedSimplex.Proofs.SolverProgress

/-!
# Choices that are likely to be blocked

Before a candidate enters, its solved column tells whether it is likely to be blocked at once.  If
so, a number of others is looked at, each of which the pricing rule picks from what is left of the
list (`Picked`).  The first one that is not likely to be blocked enters, and if there is none the
original choice does.  Either way the pivot column is the solved column of the very candidate that
enters, as `Avoids` says, and this holds for all numbers.
-/

namespace RevisedSimplex

variable {F : Type} [Scalar F]

/-! ### Picking -/

/-- Candidates that the rule picks one after the other from what is left of a list, and the rest. -/
inductive PricingRule.Picked (rule : PricingRule F) :
    List (Candidate F) → List (Candidate F) → List (Candidate F) → Prop
  | nil (candidates : List (Candidate F)) : Picked rule candidates [] candidates
  | cons {candidates picked rest : List (Candidate F)} {place : ℕ} {candidate : Candidate F} :
      rule.selectEntering candidates = some place → candidates[place]? = some candidate →
      Picked rule (candidates.eraseIdx place) picked rest →
      Picked rule candidates (candidate :: picked) rest

omit [Scalar F] in
/-- An element and the others. -/
theorem perm_eraseIdx {α : Type} {list : List α} {place : ℕ} {a : α} (h : list[place]? = some a) :
  list.Perm (a :: list.eraseIdx place)
  := by
  obtain ⟨hlt, rfl⟩ := List.getElem?_eq_some_iff.mp h
  apply (List.getElem_cons_eraseIdx_perm hlt).symm

omit [Scalar F] in
/-- The picked candidates and the rest are those of the list, none of them twice. -/
theorem PricingRule.Picked.perm {rule : PricingRule F} {candidates picked rest : List (Candidate F)}
    (h : rule.Picked candidates picked rest) :
  candidates.Perm (picked ++ rest)
  := by
  induction h with
  | nil candidates => rfl
  | cons _ hcandidate _ ih => exact (perm_eraseIdx hcandidate).trans (ih.cons _)

namespace Solver

variable {solver loaded : Solver (ProductForm F) F} {candidate chosen : Candidate F}
  {candidates : List (Candidate F)} {place : ℕ} {degenerate : Bool}

/-! ### Candidates -/

/-- The solved column of a candidate. -/
def solvedColumn? (solver : Solver (ProductForm F) F) (candidate : Candidate F) :
    Option (DenseVector F) := do
  let column ← solver.model.denseColumn? candidate.index
  solver.factorization.ftran? solver.context column

/-- Whether a candidate is likely to be blocked at once. -/
def degenerate? (solver : Solver (ProductForm F) F) (candidate : Candidate F) : Option Bool := do
  let column ← solver.solvedColumn? candidate
  solver.iterate.isDegenerate? solver.context.tolerances solver.model column candidate.direction

/-- The solver with the solved column of a candidate as the pivot column. -/
def HasColumn (solver loaded : Solver (ProductForm F) F) (candidate : Candidate F) : Prop :=
  ∃ pivotColumn, solver.solvedColumn? candidate = some pivotColumn
    ∧ loaded = { solver with iterate := { solver.iterate with pivotColumn } }

/-- Considering a candidate loads its solved column and looks whether it is degenerate. -/
theorem of_consider? (hsized : solver.iterate.Sized solver.model)
    (h : solver.consider? candidate = some (loaded, degenerate)) :
  solver.HasColumn loaded candidate ∧ solver.degenerate? candidate = some degenerate
  := by
  obtain ⟨iterate, hload, hblocked, rfl⟩ := consider?_spec h
  obtain ⟨-, column, dense, pivotColumn, hcolumn, hdense, hsolved, rfl⟩ :=
    Iterate.loadColumn?_spec hload
  rw [hsized.pivotColumn] at hdense
  have hread : solver.solvedColumn? candidate = some pivotColumn := by
    unfold solvedColumn? Model.denseColumn?
    simp only [hcolumn, hdense, Option.bind_eq_bind, Option.bind_some]
    exact hsolved
  refine ⟨⟨pivotColumn, hread, rfl⟩, ?_⟩
  unfold degenerate?
  rw [hread, Option.bind_eq_bind, Option.bind_some]
  exact hblocked

/-! ### Alternatives -/

/-- What looking for an alternative comes to: those that were picked, and the one that was found or
none.  By induction on the number of retries. -/
theorem findAlternative?_cases :
    ∀ (retries : ℕ) {middle : Solver (ProductForm F) F} {candidates : List (Candidate F)}
      {found : Option (Candidate F × Solver (ProductForm F) F)}, solver.Shaped →
      solver.Loads middle → middle.findAlternative? retries candidates = some found →
      ∃ picked rest, solver.pricing.Picked candidates picked rest ∧ picked.length ≤ retries
        ∧ ((∃ earlier candidate loaded, found = some (candidate, loaded)
            ∧ picked = earlier ++ [candidate] ∧ solver.HasColumn loaded candidate
            ∧ (∀ other ∈ earlier, solver.degenerate? other = some true)
            ∧ solver.degenerate? candidate = some false)
          ∨ found = none ∧ (∀ other ∈ picked, solver.degenerate? other = some true)
            ∧ (picked.length = retries ∨ solver.pricing.selectEntering rest = none))
  | 0, middle, candidates, found, _, _, h => by
      cases h
      exact ⟨[], candidates, .nil _, le_rfl, Or.inr ⟨rfl, by simp, Or.inl rfl⟩⟩
  | retries + 1, middle, candidates, found, hshaped, hloads, h => by
      rw [Solver.findAlternative?, hloads.pricing] at h
      split at h
      · rename_i hnone
        cases h
        exact ⟨[], candidates, .nil _, Nat.zero_le _, Or.inr ⟨rfl, by simp, Or.inr hnone⟩⟩
      · rename_i place hplace
        obtain ⟨first, hfirst, h⟩ := Option.bind_eq_some_iff.mp h
        obtain ⟨⟨next, degenerate⟩, hnext, h⟩ := Option.bind_eq_some_iff.mp h
        rw [hloads.consider?_eq] at hnext
        obtain ⟨hcolumn, hdegenerate⟩ := of_consider? hshaped.sized hnext
        dsimp only at h
        split at h
        · rename_i hblocked
          subst hblocked
          obtain ⟨picked, rest, hpicked, hlength, hcases⟩ := findAlternative?_cases retries hshaped
            (hshaped.consider? hnext) h
          refine ⟨first :: picked, rest, .cons hplace hfirst hpicked, Nat.succ_le_succ hlength, ?_⟩
          rcases hcases with ⟨earlier, candidate, loaded, hfound, rfl, hcolumn, hall, hfree⟩
            | ⟨hfound, hall, hend⟩
          · exact Or.inl ⟨first :: earlier, candidate, loaded, hfound, rfl, hcolumn,
              List.forall_mem_cons.mpr ⟨hdegenerate, hall⟩, hfree⟩
          · exact Or.inr ⟨hfound, List.forall_mem_cons.mpr ⟨hdegenerate, hall⟩,
              hend.imp_left (congrArg (· + 1))⟩
        · rename_i hfree
          cases h
          rw [Bool.not_eq_true] at hfree
          subst hfree
          exact ⟨[first], _, .cons hplace hfirst (.nil _), Nat.succ_le_succ (Nat.zero_le _),
            Or.inl ⟨[], first, next, rfl, rfl, hcolumn, by simp, hdegenerate⟩⟩

/-- What avoiding degenerate pivots comes to.  The candidate is one of the list, and its solved
column is the pivot column.  The others that were tried were picked by the rule, no more than the
settings allow and none twice.  Either the candidate is not degenerate and all that were tried
before it are, or it is the original choice, all that were tried are degenerate, and no more could
be tried. -/
structure Avoids (solver : Solver (ProductForm F) F) (candidates : List (Candidate F)) (place : ℕ)
    (candidate : Candidate F) (loaded : Solver (ProductForm F) F) : Prop where
  mem : candidate ∈ candidates
  column : solver.HasColumn loaded candidate
  tried : ∃ chosen picked rest, candidates[place]? = some chosen
    ∧ solver.pricing.Picked (candidates.eraseIdx place) picked rest
    ∧ candidates.Perm (chosen :: picked ++ rest)
    ∧ picked.length ≤ solver.settings.degeneracyRetries
    ∧ ((∃ earlier, chosen :: picked = earlier ++ [candidate]
        ∧ (∀ other ∈ earlier, solver.degenerate? other = some true)
        ∧ solver.degenerate? candidate = some false)
      ∨ candidate = chosen ∧ (∀ other ∈ chosen :: picked, solver.degenerate? other = some true)
        ∧ (picked.length = solver.settings.degeneracyRetries ∨ rest = []))

/-- The candidate that enters in the end. -/
theorem Shaped.avoids (h : solver.Shaped) (hpricing : solver.pricing.Complete)
    (havoid : solver.avoidDegeneracy? candidates place = some (candidate, loaded)) :
  solver.Avoids candidates place candidate loaded
  := by
  unfold Solver.avoidDegeneracy? at havoid
  obtain ⟨chosen, hchosen, havoid⟩ := Option.bind_eq_some_iff.mp havoid
  obtain ⟨⟨first, degenerate⟩, hfirst, havoid⟩ := Option.bind_eq_some_iff.mp havoid
  obtain ⟨hcolumn, hdegenerate⟩ := of_consider? h.sized hfirst
  have hperm := perm_eraseIdx hchosen
  dsimp only at havoid
  split at havoid
  · rename_i hblocked
    subst hblocked
    obtain ⟨found, hfound, havoid⟩ := Option.bind_eq_some_iff.mp havoid
    obtain ⟨picked, rest, hpicked, hlength, hcases⟩ :=
      findAlternative?_cases _ h (h.consider? hfirst) hfound
    have hall : candidates.Perm (chosen :: picked ++ rest) := hperm.trans (hpicked.perm.cons _)
    rcases hcases with ⟨earlier, alternative, last, rfl, rfl, hlast, hearlier, hfree⟩
      | ⟨rfl, htried, hend⟩
    · cases havoid
      refine ⟨hall.mem_iff.mpr (by simp), hlast, chosen, _, rest, hchosen, hpicked, hall, hlength,
        Or.inl ⟨chosen :: earlier, rfl, ?_, hfree⟩⟩
      exact List.forall_mem_cons.mpr ⟨hdegenerate, hearlier⟩
    · obtain ⟨⟨reloaded, again⟩, hreloaded, havoid⟩ := Option.bind_eq_some_iff.mp havoid
      cases havoid
      refine ⟨List.mem_of_getElem? hchosen, (of_consider? h.sized hreloaded).1, candidate, picked,
        rest, hchosen, hpicked, hall, hlength, Or.inr ⟨rfl, ?_, ?_⟩⟩
      · exact List.forall_mem_cons.mpr ⟨hdegenerate, htried⟩
      · apply hend.imp_right (hpricing.entering rest)
  · rename_i hfree
    cases havoid
    rw [Bool.not_eq_true] at hfree
    subst hfree
    exact ⟨List.mem_of_getElem? hchosen, hcolumn, candidate, [], _, hchosen, .nil _, hperm,
      Nat.zero_le _, Or.inl ⟨[], rfl, by simp, hdegenerate⟩⟩

/-- With the rules that a solver is given, every choice among nonbasic candidates ends with one of
them, and it is the one that it should be. -/
theorem avoidDegeneracy?_avoids (h : solver.Shaped)
    (hrule : solver.pricing = .dantzig ∨ solver.pricing = .first)
    (hcandidates : ∀ candidate ∈ candidates,
      solver.iterate.basis.isNonbasic candidate.index = true)
    (hplace : place < candidates.length) :
  ∃ candidate loaded, solver.avoidDegeneracy? candidates place = some (candidate, loaded)
    ∧ solver.Avoids candidates place candidate loaded
  := by
  have hpricing := PricingRule.complete_of_eq hrule
  obtain ⟨candidate, loaded, havoid, -⟩ := h.exists_avoidDegeneracy? hpricing hplace hcandidates
  exact ⟨candidate, loaded, havoid, h.avoids hpricing havoid⟩

end Solver

/-- Two variables that enter two rows, of which the first one has no room left. -/
def Model.blocked : Model Float :=
  { Model.thirds with
    matrix := ⟨[[(0, 1)], [(1, 3)]], 2, by decide +kernel⟩
    cost := [-2, -1]
    rightHandSide := [0, 5]
    goal := .minimize
    cost_length := rfl
    rightHandSide_length := rfl }

/-- A solver at the basis of the slacks of these rows. -/
def Solver.blocked : Solver (ProductForm Float) Float :=
  let iterate : Iterate Float := .start (Basis.slack Model.blocked)
  { start .blocked {} (.convert {}) (ProductForm.identity 2) .dantzig with
    iterate := { iterate with values := [0, 0, 5], current := true } }

/-- The rule has chosen the first variable, which is blocked, and the second one enters. -/
theorem Solver.avoidDegeneracy?_avoids_blocked :
  ∃ candidate loaded, candidate.index = 4
    ∧ blocked.Avoids [⟨3, -2, 1⟩, ⟨4, -1, 1⟩] 0 candidate loaded
  := by
  have hshaped : blocked.Shaped :=
    ⟨⟨rfl, rfl, rfl, rfl⟩, rfl, (ProductForm.Reached.identity 2).shaped⟩
  have hindices : ∀ index ∈ [3, 4], blocked.iterate.basis.isNonbasic index = true := by
    decide +kernel
  have hnonbasic : ∀ candidate ∈ ([⟨3, -2, 1⟩, ⟨4, -1, 1⟩] : List (Candidate Float)),
      blocked.iterate.basis.isNonbasic candidate.index = true := by
    intro candidate hcandidate
    apply hindices candidate.index
    apply List.mem_map_of_mem (f := Candidate.index) hcandidate
  obtain ⟨candidate, loaded, havoid, havoids⟩ :=
    avoidDegeneracy?_avoids hshaped (Or.inl rfl) hnonbasic (show 0 < 2 by decide)
  have hindex : (blocked.avoidDegeneracy? [⟨3, -2, 1⟩, ⟨4, -1, 1⟩] 0).map
      (fun pair => pair.1.index) = some 4 := by
    decide +kernel
  rw [havoid, Option.map_some, Option.some_inj] at hindex
  exact ⟨candidate, loaded, hindex, havoids⟩

end RevisedSimplex
