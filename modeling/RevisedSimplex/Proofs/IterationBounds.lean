import RevisedSimplex.Proofs.Recoveries
import RevisedSimplex.Proofs.SafeSolves

/-!
# Bounds on the length of a solve

With a limit on the number of iterations a solve comes to an end.  Every turn in which it goes on
either has an iteration, of which only so many are left, or a refused pivot.  A solve that goes on
after a refused pivot is recovering until the next major pivot, and then it does not go on after
another one.  So a turn takes away two from twice the number of iterations that are left, less one
while the solve is recovering, or it takes away one.
-/

namespace RevisedSimplex

variable {F : Type} [Scalar F]

/-- A turn with a refused pivot after which the solve goes on. -/
def Turn.Retried (turn : Turn (ProductForm F) F) : Prop :=
  turn.Refused ∧ turn.verdict = .again true

/-- Whether a turn has an iteration. -/
def Turn.iterates {R : Type} (turn : Turn R F) : Bool :=
  turn.kind?.isSome

namespace Solver

variable {solver after : Solver (ProductForm F) F} {reading : Reading} {recovering : Bool}
  {turn : Turn (ProductForm F) F} {readings : ℕ → Reading}
  {budget i : ℕ} {turns : List (Turn (ProductForm F) F)}

/-! ### Counting iterations -/

/-- An iteration of either kind counts as one. -/
theorem majors_add_flips (kind : Option IterationKind) :
  majors kind + flips kind = kind.isSome.toNat
  := by
  cases kind with
  | none => rfl
  | some kind => cases kind <;> rfl

/-- A turn counts its iteration. -/
theorem Shaped.nrIterations_of_turn? (h : solver.Shaped)
    (hturn : solver.turn? reading recovering = some turn) :
  turn.solver.iterate.nrIterations = solver.iterate.nrIterations + turn.iterates.toNat
  := by
  obtain ⟨prepared, hprepared, -, hcounts⟩ := h.turn?_counts hturn
  have hsame := (h.prepare? hprepared).2.2.1
  have hone := majors_add_flips turn.kind?
  have hmajor := hcounts.majorPivots
  have hflip := hcounts.boundFlips
  unfold Iterate.nrIterations at *
  unfold Turn.iterates
  omega

/-- A run counts its iterations.  By induction on the turns. -/
theorem Shaped.nrIterations_of_run? :
    ∀ {turns : List (Turn (ProductForm F) F)} {budget i : ℕ} {recovering : Bool}
      {solver : Solver (ProductForm F) F},
      solver.Shaped → run? readings budget i recovering solver = some turns →
      ((turns.getLast?.map Turn.solver).getD solver).iterate.nrIterations
        = solver.iterate.nrIterations + turns.countP Turn.iterates
  | [], _, _, _, _, _, _ => rfl
  | turn :: later, budget, i, recovering, solver, h, hrun => by
      obtain ⟨rest, rfl, hturn, hcases⟩ := run?_cons hrun
      have hcount := h.nrIterations_of_turn? hturn
      have hlast : (((turn :: later).getLast?.map Turn.solver).getD solver).iterate.nrIterations
          = turn.solver.iterate.nrIterations + later.countP Turn.iterates := by
        rcases hcases with ⟨flag, -, hlater⟩ | ⟨-, rfl⟩
        · rw [← Shaped.nrIterations_of_run? (h.turn? hturn).1.shaped hlater]
          cases later with
          | nil => rfl
          | cons next later =>
              rw [List.getLast?_cons_cons]
              cases hnext : (next :: later).getLast? with
              | none => simp at hnext
              | some last => rfl
        · rfl
      rw [hlast, hcount, List.countP_cons, Nat.add_assoc, Nat.add_comm turn.iterates.toNat]
      cases turn.iterates <;> rfl

/-! ### Turns in which a solve goes on -/

/-- Between two refused pivots after which a solve goes on there is a major pivot, and it has begun
with one if it was recovering.  By induction on the turns before the refused pivot. -/
theorem Shaped.exists_majorPivot :
    ∀ {between later : List (Turn (ProductForm F) F)} {budget i : ℕ}
      {solver : Solver (ProductForm F) F},
      solver.Shaped →
      run? readings budget i true solver = some (between ++ turn :: later) → turn.Retried →
      ∃ pivot ∈ between, pivot.kind? = some .majorPivot
  | [], later, budget, i, solver, h, hrun, hretried => by
      obtain ⟨-, -, hturn, -⟩ := run?_cons hrun
      rcases h.turn?_again hturn hretried.2 with ⟨hfalse, -⟩ | ⟨kind, hkind, -⟩
      · cases hfalse
      · rw [hretried.1.kind?_eq] at hkind
        cases hkind
  | first :: between, later, budget, i, solver, h, hrun, hretried => by
      obtain ⟨_, -, hfirst, ⟨flag, hagain, hlater⟩ | ⟨-, hnil⟩⟩ := run?_cons hrun
      · rcases h.turn?_again hfirst hagain with ⟨hfalse, -⟩ | ⟨kind, hkind, rfl, -⟩
        · cases hfalse
        · cases kind with
          | majorPivot => exact ⟨first, List.mem_cons_self, hkind⟩
          | boundFlip =>
              obtain ⟨pivot, hpivot, hmajor⟩ :=
                Shaped.exists_majorPivot (h.turn? hfirst).1.shaped hlater hretried
              exact ⟨pivot, List.mem_cons_of_mem _ hpivot, hmajor⟩
      · simp at hnil

theorem Shaped.exists_majorPivot_between (h : solver.Shaped)
    {before between later : List (Turn (ProductForm F) F)} {first second : Turn (ProductForm F) F}
    (hrun : run? readings budget i recovering solver
      = some (before ++ first :: (between ++ second :: later)))
    (hfirst : first.Retried) (hsecond : second.Retried) :
  ∃ pivot ∈ between, pivot.kind? = some .majorPivot
  := by
  obtain ⟨_, _, start, hstart, hrun⟩ := h.exists_run?_append hrun
  obtain ⟨_, -, hturn, ⟨flag, hagain, hlater⟩ | ⟨-, hnil⟩⟩ := run?_cons hrun
  · rw [hfirst.2] at hagain
    cases hagain
    apply (hstart.shaped.turn? hturn).1.shaped.exists_majorPivot hlater hsecond
  · simp at hnil

/-! ### The limit -/

/-- The number of iterations that a solve may still have. -/
def iterationsLeft (limit : ℕ) (solver : Solver (ProductForm F) F) : ℕ :=
  max 1 (limit - solver.iterate.nrIterations)

theorem lt_of_interruption? {limit : ℕ} (hlimit : solver.settings.iterationLimit = some limit)
    (h : solver.interruption? reading = none) :
  solver.iterate.nrIterations < limit
  := by
  unfold interruption? at h
  split at h
  · cases h
  · split at h
    · cases h
    · split at h
      · cases h
      · rename_i hnot
        rw [hlimit] at hnot
        simpa using hnot

/-- When a solve goes on after a turn, less of it is left, and the bound on its iterations is no
higher. -/
theorem Shaped.iterationsLeft_of_again (h : solver.Shaped) {limit : ℕ}
    (hlimit : solver.settings.iterationLimit = some limit)
    (hturn : solver.turn? reading recovering = some turn) {flag : Bool}
    (hverdict : turn.verdict = .again flag) :
  2 * turn.solver.iterationsLeft limit + recovering.toNat + 1
    ≤ 2 * solver.iterationsLeft limit + flag.toNat
    ∧ max limit (turn.solver.iterate.nrIterations + 1)
      ≤ max limit (solver.iterate.nrIterations + 1)
  := by
  have hcount := h.nrIterations_of_turn? hturn
  unfold Turn.iterates at hcount
  unfold iterationsLeft
  rcases h.turn?_again hturn hverdict with ⟨rfl, rfl, hrefused, -⟩ | ⟨kind, hkind, rfl, hnone⟩
  · rw [hrefused.kind?_eq, Option.isSome_none, Bool.toNat_false, Nat.add_zero] at hcount
    rw [hcount]
    exact ⟨le_rfl, le_rfl⟩
  · have hlimit' : turn.solver.settings.iterationLimit = some limit := by
      rw [(h.turn? hturn).1.settings_eq, hlimit]
    have hlt := lt_of_interruption? hlimit' hnone
    have hflag : recovering.toNat ≤ (recovering && kind != .majorPivot).toNat + 1 := by
      have hle := recovering.toNat_le
      omega
    rw [hkind, Option.isSome_some, Bool.toNat_true] at hcount
    constructor <;> omega

/-- A guarded solver comes to a status within the limit.  By induction on the number of turns that
are left. -/
theorem Shaped.exists_run?_within [RoundedScalar F] (readings : ℕ → Reading) {limit : ℕ} :
    ∀ (n i : ℕ) (recovering : Bool) {solver : Solver (ProductForm F) F},
      solver.Shaped → solver.Guarded → solver.settings.iterationLimit = some limit →
      2 * solver.iterationsLeft limit ≤ n + recovering.toNat →
      ∃ turns last status,
        (∀ budget, n ≤ budget → run? readings budget i recovering solver = some turns)
          ∧ turns.length ≤ n ∧ turns.getLast? = some last ∧ last.verdict = .conclude status
          ∧ last.solver.Shaped
          ∧ last.solver.iterate.nrIterations ≤ max limit (solver.iterate.nrIterations + 1)
  | 0, _, recovering, solver, _, _, _, hleft => by
      have hle := recovering.toNat_le
      unfold iterationsLeft at hleft
      omega
  | n + 1, i, recovering, solver, h, hguarded, hlimit, hleft => by
      obtain ⟨turn, hturn⟩ := h.exists_turn? hguarded (readings i) recovering
      have hfollows := (h.turn? hturn).1
      have hcount := h.nrIterations_of_turn? hturn
      have hone := turn.iterates.toNat_le
      cases hverdict : turn.verdict with
      | again flag =>
          obtain ⟨hless, hbound⟩ := h.iterationsLeft_of_again hlimit hturn hverdict
          obtain ⟨later, last, status, hrun, hlength, hlast, hconclude, hshaped, hle⟩ :=
            Shaped.exists_run?_within readings n (i + 1) flag hfollows.shaped
              (hguarded.follows hfollows) (hfollows.settings_eq ▸ hlimit) (by omega)
          refine ⟨turn :: later, last, status, ?_, Nat.succ_le_succ hlength, ?_, hconclude, hshaped,
            hle.trans hbound⟩
          · intro budget hbudget
            obtain ⟨rest, rfl⟩ := Nat.exists_eq_add_one.mpr (Nat.zero_lt_of_lt hbudget)
            apply run?_of_again hturn hverdict (hrun rest (Nat.le_of_succ_le_succ hbudget))
          · cases later with
            | nil => cases hlast
            | cons next later =>
                rw [List.getLast?_cons_cons, hlast]
      | fail e => cases (h.safe_of_turn? hguarded hturn).goesOn e hverdict
      | conclude status =>
          refine ⟨[turn], turn, status, ?_, by simp, rfl, hverdict, hfollows.shaped, by omega⟩
          intro budget hbudget
          obtain ⟨rest, rfl⟩ := Nat.exists_eq_add_one.mpr (Nat.zero_lt_of_lt hbudget)
          apply run?_of_last hturn
          simp [hverdict]

variable {model : Model F} {settings : Settings} {rule : PricingRule F}

/-- A limit on the iterations bounds a solve.

Let a solver of machine numbers, or of exact ones, come from a new one by setting bases and by
solves, with accepted settings that limit the iterations, whose pivot tolerances are positive and
with pivots chosen by their magnitude.  A solve has a result after at most twice as many turns as
there are iterations left, which are those up to the limit and at least one; more turns would not
change it.  Each iteration is that of a turn, so that no more are counted than are left, and in
total no more than the limit or one more than before.  Between two refused pivots after which the
solve goes on there is a major pivot. -/
theorem Visited.solve?_within [RoundedScalar F] (h : Visited model settings rule solver)
    (hrule : rule.Complete) (hselection : settings.rowSelection = .largestMagnitude)
    (hpivot : 0 < (Context.convert settings : Context F).tolerances.pivot)
    (hfactorization :
      0 < (Context.convert settings : Context F).tolerances.factorizationPivot)
    {limit : ℕ} (hlimit : settings.iterationLimit = some limit) (readings : ℕ → Reading)
    (patience : ℕ) :
  ∃ turns outcome result,
    (∀ budget, 2 * solver.iterationsLeft limit ≤ budget →
        run? readings budget 0 false solver = some turns)
      ∧ turns.length ≤ 2 * solver.iterationsLeft limit
      ∧ solver.solve? readings patience = some outcome ∧ outcome.result = .solved result
      ∧ outcome.state.iterate.nrIterations
        = solver.iterate.nrIterations + turns.countP Turn.iterates
      ∧ turns.countP Turn.iterates ≤ solver.iterationsLeft limit
      ∧ outcome.state.iterate.nrIterations ≤ max limit (solver.iterate.nrIterations + 1)
      ∧ ∀ before first between second later,
        turns = before ++ first :: (between ++ second :: later) →
        first.Retried → second.Retried → ∃ pivot ∈ between, pivot.kind? = some .majorPivot
  := by
  have hmade := h.madeOf
  have hguarded := hmade.guarded_of_complete hrule hselection hpivot hfactorization
  have hlimit' : solver.settings.iterationLimit = some limit := by
    rw [hmade.settings, hlimit]
  obtain ⟨turns, last, status, hrun, hlength, hlast, hverdict, hshaped, hle⟩ :=
    hmade.shaped.exists_run?_within readings (2 * solver.iterationsLeft limit) 0 false hguarded
      hlimit' le_rfl
  obtain ⟨result, hread, -⟩ := hshaped.exists_result? status
  obtain ⟨outcome, hfinish, hresult, hstate⟩ := finish?_of_conclude hlast hverdict hread solver
  have hbudget : 2 * solver.iterationsLeft limit ≤ solver.turnBudget patience := by
    unfold turnBudget
    rw [hlimit']
    apply Nat.le_add_right
  have hrun' := hrun _ hbudget
  have hcount := hmade.shaped.nrIterations_of_run? hrun'
  rw [hlast, Option.map_some, Option.getD_some, ← hstate] at hcount
  rw [← hstate] at hle
  refine ⟨turns, outcome, result, hrun, hlength, ?_, hresult, hcount, ?_, hle, ?_⟩
  · unfold solve?
    rw [hrun', Option.bind_eq_bind, Option.bind_some, hfinish]
  · unfold iterationsLeft
    omega
  · rintro before first between second later rfl hfirst hsecond
    apply hmade.shaped.exists_majorPivot_between hrun' hfirst hsecond

end Solver

/-! ### Thirds -/

/-- Settings that allow a single iteration. -/
def Settings.single : Settings where
  policy := { timed := false }
  iterationLimit := some 1

namespace Solver

/-- With a single iteration, the model with thirds is left after its first turn. -/
theorem Visited.solve?_within_thirds :
  Visited .thirds .single .dantzig (thirdsWith .single)
    ∧ (PricingRule.dantzig : PricingRule Float).Complete
    ∧ Settings.single.rowSelection = .largestMagnitude
    ∧ 0 < (Context.convert .single : Context Float).tolerances.pivot
    ∧ 0 < (Context.convert .single : Context Float).tolerances.factorizationPivot
    ∧ Settings.single.iterationLimit = some 1
    ∧ ∃ turns outcome result,
      run? (fun _ => {}) 2 0 false (thirdsWith .single) = some turns ∧ turns.length ≤ 2
        ∧ (thirdsWith .single).solve? (fun _ => {}) 0 = some outcome
        ∧ outcome.result = .solved result ∧ outcome.state.iterate.nrIterations ≤ 1
  := by
  have hvisited : Visited .thirds .single .dantzig (thirdsWith .single) :=
    .made (thirdsWith_made (by decide +kernel))
  have hcomplete : (PricingRule.dantzig : PricingRule Float).Complete :=
    PricingRule.complete_of_eq (Or.inl rfl)
  have hpivot : 0 < (Context.convert .single : Context Float).tolerances.pivot := by
    decide +kernel
  have hfactorization :
      0 < (Context.convert .single : Context Float).tolerances.factorizationPivot := by
    decide +kernel
  obtain ⟨turns, outcome, result, hrun, hlength, hsolve, hresult, -, -, hle, -⟩ :=
    hvisited.solve?_within hcomplete rfl hpivot hfactorization rfl (fun _ => {}) 0
  exact ⟨hvisited, hcomplete, rfl, hpivot, hfactorization, rfl, turns, outcome, result,
    hrun 2 le_rfl, hlength, hsolve, hresult, hle⟩

end Solver

end RevisedSimplex
