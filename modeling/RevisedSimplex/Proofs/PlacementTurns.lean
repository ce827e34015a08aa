import RevisedSimplex.Proofs.PlacementSteps

/-!
# Turns of a placement

A candidate that is left when the singletons are placed has its turn in the last phase, at some
placement on the way.  Its column is then transformed by the eta columns so far, and it is committed
or becomes singular.  A variable becomes singular in no other way, and stays singular.
-/

namespace RevisedSimplex

namespace Placement

variable {F : Type} {placement result : Placement F} {k v : ℕ} {context : Context F}

/-- The candidates that are left when the singletons are placed. -/
def leftovers (placement : Placement F) : List ℕ :=
  (List.range placement.elimination.candidates.length).filter placement.elimination.isUnassigned

variable [Scalar F]

/-- The transformed column of a candidate, with its variable. -/
def Solves (context : Context F) (placement : Placement F) (k v : ℕ) (column : DenseVector F) :
    Prop :=
  ∃ candidate raw solved, placement.elimination.candidates[k]? = some candidate
    ∧ candidate.owner = v
    ∧ candidate.entries.toDense? placement.positions.length = some raw
    ∧ placement.file.applyRight? raw = some solved
    ∧ column = solved.roundRelative context.tolerances.drop

/-- A placement on the way through the last phase where a candidate has its turn, with its variable
and its transformed column. -/
def ComesUp (context : Context F) (singles : Placement F) (k v : ℕ) (passed : Placement F)
    (column : DenseVector F) : Prop :=
  (∃ turns, placeRest? context turns singles.leftovers singles = some passed)
    ∧ passed.Solves context k v column

/-- What is singular stays singular in a turn. -/
theorem singular_subset_of_placeTransformed?
    (h : placement.placeTransformed? context k = some result) :
  placement.singular ⊆ result.singular
  := by
  obtain ⟨candidate, raw, solved, -, -, -, hcases⟩ := placeTransformed?_spec h
  rcases hcases with ⟨row, column, committed, rows, columns, -, -, hcommit, hplace⟩
    | ⟨-, elimination, -, rfl⟩
  · obtain ⟨inverse, -, rfl⟩ := commit?_spec hcommit
    obtain ⟨_, _, -, -, -, -, -, -, rfl⟩ := place?_spec hplace
    apply List.Subset.refl
  · apply List.subset_append_left

/-- What is singular stays singular through the last phase. -/
theorem singular_subset_of_placeRest? {count : ℕ} {remaining : List ℕ}
    (h : placeRest? context count remaining placement = some result) :
  placement.singular ⊆ result.singular
  := by
  apply placeRest?_induction _ (List.Subset.refl _) h
  intro k passed after hpassed hafter
  apply List.Subset.trans hpassed (singular_subset_of_placeTransformed? hafter)

/-- Every candidate has its turn at some placement on the way. -/
theorem exists_turn :
    ∀ {count : ℕ} {remaining : List ℕ} {placement result : Placement F},
      remaining.length ≤ count → placeRest? context count remaining placement = some result →
      ∀ k ∈ remaining, ∃ turns passed after left rest,
        placeRest? context turns remaining placement = some passed
          ∧ passed.placeTransformed? context k = some after
          ∧ placeRest? context rest left after = some result
  | 0, remaining, _, _, hlength, _, k, hk => by
      rw [Nat.le_zero, List.length_eq_zero_iff] at hlength
      rw [hlength] at hk
      cases hk
  | _ + 1, [], _, _, _, _, k, hk => by cases hk
  | count + 1, first :: others, placement, result, hlength, h, k, hk => by
      have hchosen := next_mem placement.elimination first others
      rw [placeRest?] at h
      obtain ⟨following, hfollowing, h⟩ := Option.bind_eq_some_iff.mp h
      by_cases hnow : k = next placement.elimination first others
      · rw [hnow]
        exact ⟨0, placement, following, _, count, rfl, hfollowing, h⟩
      · have hle : ((first :: others).erase (next placement.elimination first others)).length
            ≤ count := by
          rw [List.length_erase_of_mem hchosen]
          apply Nat.le_of_succ_le_succ hlength
        obtain ⟨turns, passed, after, left, rest, hpassed, hafter, hrest⟩ :=
          exists_turn hle h k ((List.mem_erase_of_ne hnow).mpr hk)
        refine ⟨turns + 1, passed, after, left, rest, ?_, hafter, hrest⟩
        rw [placeRest?, hfollowing]
        apply hpassed

/-- Every variable that has become singular did so in the turn of a candidate. -/
theorem exists_turn_of_singular :
    ∀ {count : ℕ} {remaining : List ℕ} {placement result : Placement F},
      placeRest? context count remaining placement = some result → v ∈ result.singular →
      v ∉ placement.singular → ∃ k ∈ remaining, ∃ turns passed after,
        placeRest? context turns remaining placement = some passed
          ∧ passed.placeTransformed? context k = some after
          ∧ v ∈ after.singular ∧ v ∉ passed.singular
  | 0, _, _, _, h, hv, hnot => by
      cases h
      exact absurd hv hnot
  | _ + 1, [], _, _, h, hv, hnot => by
      cases h
      exact absurd hv hnot
  | count + 1, first :: others, placement, result, h, hv, hnot => by
      have hchosen := next_mem placement.elimination first others
      rw [placeRest?] at h
      obtain ⟨following, hfollowing, h⟩ := Option.bind_eq_some_iff.mp h
      by_cases hnow : v ∈ following.singular
      · exact ⟨_, hchosen, 0, placement, following, rfl, hfollowing, hnow, hnot⟩
      · obtain ⟨k, hk, turns, passed, after, hpassed, hafter, hin, hout⟩ :=
          exists_turn_of_singular h hv hnow
        refine ⟨k, List.mem_of_mem_erase hk, turns + 1, passed, after, ?_, hafter, hin, hout⟩
        rw [placeRest?, hfollowing]
        apply hpassed

end Placement

end RevisedSimplex
