import RevisedSimplex.Proofs.SolverCounts

/-!
# Recovery from refused pivots

When the factorization refuses a pivot, the solve is recovering: the next turn factorizes from
scratch, and the solve goes on.  It has recovered with the next major pivot, while a bound flip
changes nothing about it.  If another pivot is refused before that, the solve gives up, with the
status of a numeric failure.

So a solve that gives up has refused two pivots, and the second one of them for a factorization
without changes.
-/

namespace RevisedSimplex

variable {F : Type} [Scalar F]

/-- A turn in which the factorization has refused a pivot. -/
def Turn.Refused (turn : Turn (ProductForm F) F) : Prop :=
  ∃ (form : ProductForm F) (row index : ℕ) (value : Float)
      (prepared : Outcome (ProductForm F) (Except Error F)),
    form.prepareUpdate? turn.solver.context row index turn.solver.iterate.pivotColumn
        = some prepared
      ∧ prepared.result = .error (.numericFailure row index value)
      ∧ turn.solver.factorization
        = { prepared.state with forced := turn.solver.factorization.forced }
      ∧ turn.step = some (.error (.numericFailure row index value))

/-- A turn with a refused pivot has no iteration. -/
theorem Turn.Refused.kind?_eq {turn : Turn (ProductForm F) F} (h : turn.Refused) :
  turn.kind? = none
  := by
  obtain ⟨_, _, _, _, _, -, -, -, hstep⟩ := h
  unfold Turn.kind?
  rw [hstep]
  rfl

/-- A pivot is refused after turns without a major pivot, for a factorization without changes. -/
def FailsAgain (turns : List (Turn (ProductForm F) F)) : Prop :=
  ∃ between last, turns = between ++ [last] ∧ last.Refused
    ∧ (∀ turn ∈ between, turn.kind? ≠ some .majorPivot)
    ∧ last.solver.factorization.pivots = 0

/-- A pivot is refused, and after a factorization from scratch another one, without a major pivot
between them. -/
def GivesUp (turns : List (Turn (ProductForm F) F)) : Prop :=
  ∃ earlier first later, turns = earlier ++ first :: later ∧ first.Refused
    ∧ (∃ next ∈ later.head?, next.rebuilt.isSome) ∧ FailsAgain later

theorem FailsAgain.cons {turn : Turn (ProductForm F) F} {turns : List (Turn (ProductForm F) F)}
    (h : FailsAgain turns) (hkind : turn.kind? ≠ some .majorPivot) :
  FailsAgain (turn :: turns)
  := by
  obtain ⟨between, last, rfl, hrefused, hbetween, hpivots⟩ := h
  exact ⟨turn :: between, last, rfl, hrefused, List.forall_mem_cons.mpr ⟨hkind, hbetween⟩, hpivots⟩

theorem GivesUp.cons {turns : List (Turn (ProductForm F) F)} (h : GivesUp turns)
    (turn : Turn (ProductForm F) F) :
  GivesUp (turn :: turns)
  := by
  obtain ⟨earlier, first, later, rfl, hrest⟩ := h
  exact ⟨turn :: earlier, first, later, rfl, hrest⟩

namespace Solver

variable {solver : Solver (ProductForm F) F} {reading : Reading} {recovering : Bool}
  {turn : Turn (ProductForm F) F}

/-! ### Refusals -/

/-- Staging fails when the factorization refuses the pivot, and not otherwise. -/
theorem refused_of_stage? {leavingRow : Option ℕ} {entering : ℕ} {theta : F} {primal : Bool}
    {staged : Outcome (ProductForm F) (Option Error)} {e : Error}
    (h : solver.stage? leavingRow entering theta primal = some staged)
    (hresult : staged.result = some e) :
  ∃ row prepared, solver.factorization.prepareUpdate? solver.context row entering
      solver.iterate.pivotColumn = some prepared
    ∧ prepared.result = .error e ∧ prepared.state = staged.state
  := by
  rcases stage?_cases h with ⟨hnone, -⟩ | ⟨row, prepared, -, -, hprepared, hstate, hcases⟩
  · rw [hresult] at hnone
    cases hnone
  · rcases hcases with ⟨pivot, -, hnone⟩ | ⟨other, hother, hsame⟩
    · rw [hresult] at hnone
      cases hnone
    · rw [hresult, Option.some_inj] at hsame
      subst hsame
      exact ⟨row, prepared, hprepared, hother, hstate.symm⟩

/-- A numeric failure of a step is a refusal of the factorization. -/
theorem Shaped.refused_of_step? (h : solver.Shaped)
    {outcome : Outcome (Solver (ProductForm F) F) (Except Error StepResult)} {row index : ℕ}
    {value : Float} (hstep : solver.step? = some outcome)
    (hresult : outcome.result = .error (.numericFailure row index value)) :
  ∃ prepared, solver.factorization.prepareUpdate? outcome.state.context row index
      outcome.state.iterate.pivotColumn = some prepared
    ∧ prepared.result = .error (.numericFailure row index value)
    ∧ outcome.state.factorization = prepared.state
  := by
  rcases h.step?_cases hstep with ⟨loaded, status, -, rfl, -⟩
    | ⟨loaded, _, _, _, _, pivoted, _, hloads, hpivoted, hmap, hstate, -⟩
  · cases hresult
  · rw [hresult] at hmap
    obtain ⟨staged, hstaged, ⟨e, herror, hcases, hlast⟩ | ⟨_, _, _, -, -, -, -, hok, -⟩
      | ⟨_, _, _, _, _, -, -, -, -, -, -, -, -, hok, -⟩⟩ := pivot?_cases hpivoted
    · rw [herror] at hmap
      cases hmap
      rcases hcases with hrefused | hother | hother
      · obtain ⟨other, prepared, hprepared, hfound, hsame⟩ := refused_of_stage? hstaged hrefused
        -- The refusal names the row and the variable that it was asked for.
        obtain ⟨-, _, -, ⟨-, ⟨_, hnames⟩, -⟩ | ⟨-, hok, -⟩⟩ :=
          ProductForm.prepareUpdate?_spec hprepared
        · rw [hfound] at hnames
          cases hnames
          obtain ⟨_, -, rfl⟩ := hloads
          rw [hstate, hlast]
          exact ⟨prepared, hprepared, hfound, hsame.symm⟩
        · rw [hfound] at hok
          cases hok
      · cases hother
      · cases hother
    · rw [hok] at hmap
      cases hmap
    · rw [hok] at hmap
      cases hmap

/-- A turn ends with a refusal when its step has failed so. -/
theorem Shaped.refused_of_refuse (h : solver.Shaped)
    {outcome : Outcome (Solver (ProductForm F) F) (Except Error StepResult)} {row index : ℕ}
    {value : Float} (hstep : solver.step? = some outcome)
    (hresult : outcome.result = .error (.numericFailure row index value))
    (hturn : turn.step = some outcome.result)
    (hsolver : turn.solver = outcome.state.refuse recovering) :
  turn.Refused
  := by
  obtain ⟨prepared, hprepared, hfound, hform⟩ := h.refused_of_step? hstep hresult
  refine ⟨solver.factorization, row, index, value, prepared, ?_, hfound, ?_, ?_⟩
  · rw [hsolver]
    cases recovering <;> apply hprepared
  · rw [hsolver, ← hform]
    cases recovering <;> rfl
  · rw [hturn, hresult]

/-! ### Turns -/

/-- A solve goes on after a turn that has refused a pivot, with a factorization due, or after one
with an iteration that is not interrupted.  It is recovering after the first, and after a bound flip
if it was before. -/
theorem Shaped.turn?_again (h : solver.Shaped)
    (hturn : solver.turn? reading recovering = some turn) {flag : Bool}
    (hverdict : turn.verdict = .again flag) :
  (recovering = false ∧ flag = true ∧ turn.Refused ∧ turn.solver.factorization.forced = true)
    ∨ ∃ kind, turn.kind? = some kind ∧ flag = (recovering && kind != .majorPivot)
      ∧ turn.solver.interruption? reading = none
  := by
  obtain ⟨prepared, hprepared, -, hcases⟩ := turn?_cases hturn
  rcases hcases with ⟨-, -, hconclude, -⟩ | ⟨outcome, hstep, hresult, hcases⟩
  · rw [hverdict] at hconclude
    cases hconclude
  · rcases hcases with ⟨result, hok, hafter, hsolver⟩ | ⟨row, index, value, herror, hafter, hsolver⟩
      | ⟨_, -, -, hfail, -⟩
    · right
      rw [hverdict] at hafter
      unfold verdictAfter at hafter
      cases result with
      | done status => cases hafter
      | iterated kind =>
          have hkind : turn.kind? = some kind := by
            unfold Turn.kind?
            rw [hresult, hok]
            rfl
          dsimp only at hafter
          split at hafter
          · cases hafter
          · rename_i hinterruption
            cases hafter
            rw [← hsolver] at hinterruption
            exact ⟨kind, hkind, rfl, hinterruption⟩
    · left
      rw [hverdict] at hafter
      have hrefused := (h.prepare? hprepared).1.shaped.refused_of_refuse hstep herror hresult
        hsolver
      cases recovering with
      | true => cases hafter
      | false =>
          cases hafter
          rw [hsolver]
          exact ⟨rfl, rfl, hrefused, rfl⟩
    · rw [hverdict] at hfail
      cases hfail

/-- A solve ends with a numeric failure only for a refused pivot while it is recovering. -/
theorem Shaped.turn?_numericFailure (h : solver.Shaped)
    (hturn : solver.turn? reading recovering = some turn)
    (hverdict : turn.verdict = .conclude .numericFailure) :
  recovering = true ∧ turn.Refused
  := by
  obtain ⟨prepared, hprepared, -, hcases⟩ := turn?_cases hturn
  rw [hverdict] at hcases
  rcases hcases with ⟨-, -, hconclude, -⟩ | ⟨outcome, hstep, hresult, hcases⟩
  · cases hconclude
  · have hshaped := (h.prepare? hprepared).1.shaped
    rcases hcases with ⟨result, hok, hafter, -⟩ | ⟨row, index, value, herror, hafter, hsolver⟩
      | ⟨_, -, -, hfail, -⟩
    · unfold verdictAfter at hafter
      cases result with
      | done status =>
          cases hafter
          obtain ⟨-, -, -, hstatus⟩ := hshaped.loads_of_step? hstep hok
          simp at hstatus
      | iterated kind =>
          dsimp only at hafter
          split at hafter
          · rename_i status hstatus
            cases hafter
            have hspec := interruption?_spec hstatus
            simp at hspec
          · cases hafter
    · have hrefused := hshaped.refused_of_refuse hstep herror hresult hsolver
      cases recovering with
      | true => exact ⟨rfl, hrefused⟩
      | false => cases hafter
    · cases hfail

/-- A factorization that is forced is made in the next turn. -/
theorem rebuilt_of_forced (hturn : solver.turn? reading recovering = some turn)
    (hforced : solver.factorization.forced = true) :
  turn.rebuilt.isSome
  := by
  obtain ⟨prepared, hprepared, hrebuilt, -⟩ := turn?_cases hturn
  rw [hrebuilt]
  obtain ⟨clock, ⟨-, -, -, hnot, -⟩ | ⟨rebuilt, -, hresult, -⟩⟩ := prepare?_cases hprepared
  · rw [hforced] at hnot
    cases hnot
  · rw [hresult]
    rfl

/-- The factorization of the next step has no changes: it is forced, or there are none. -/
def Fresh (solver : Solver (ProductForm F) F) : Prop :=
  solver.factorization.forced = true ∨ solver.factorization.pivots = 0

/-- A turn without a major pivot leaves a fresh factorization without changes. -/
theorem Fresh.turn?_pivots (h : solver.Fresh) (hshaped : solver.Shaped)
    (hcap : 0 < solver.context.policy.pivotCap)
    (hturn : solver.turn? reading recovering = some turn)
    (hkind : turn.kind? ≠ some .majorPivot) :
  turn.solver.factorization.pivots = 0
  := by
  rw [(hshaped.turn?_pivots hcap hturn).1]
  unfold Turn.pivotsAfter
  have hmajors : majors turn.kind? = 0 := by
    unfold majors
    split
    · rename_i hmajor
      cases hkind hmajor
    · rfl
  rw [hmajors, Nat.add_zero]
  rcases h with hforced | hpivots
  · rw [if_pos (rebuilt_of_forced hturn hforced)]
  · rw [hpivots, ite_self]

/-! ### Runs -/

variable {readings : ℕ → Reading} {budget i : ℕ} {turns later : List (Turn (ProductForm F) F)}

/-- A run that ends with a numeric failure gives up; if it has begun by recovering, it may have
failed again at once.  By induction on the turns. -/
theorem Shaped.givesUp_of_run? :
    ∀ {turns : List (Turn (ProductForm F) F)} {budget i : ℕ} {recovering : Bool}
      {solver : Solver (ProductForm F) F} {last : Turn (ProductForm F) F},
      solver.Shaped → 0 < solver.context.policy.pivotCap → (recovering = true → solver.Fresh) →
      run? readings budget i recovering solver = some turns → turns.getLast? = some last →
      last.verdict = .conclude .numericFailure →
      GivesUp turns ∨ recovering = true ∧ FailsAgain turns
  | [], _, _, _, _, _, _, _, _, _, hlast, _ => by
      cases hlast
  | turn :: later, budget, i, recovering, solver, last, h, hcap, hfresh, hrun, hlast, hverdict => by
      obtain ⟨rest, rfl, hturn, ⟨flag, hagain, hlater⟩ | ⟨-, rfl⟩⟩ := run?_cons hrun
      · have hfollows := (h.turn? hturn).1
        have hcap' : 0 < turn.solver.context.policy.pivotCap := by
          rw [hfollows.context_eq]
          apply hcap
        cases later with
        | nil =>
            rw [List.getLast?_singleton, Option.some_inj] at hlast
            subst hlast
            rw [hverdict] at hagain
            cases hagain
        | cons next later =>
            rw [List.getLast?_cons_cons] at hlast
            rcases h.turn?_again hturn hagain with ⟨rfl, rfl, hrefused, hforced⟩
              | ⟨kind, hkind, rfl, -⟩
            · -- The refusal forces a factorization in the next turn.
              rcases Shaped.givesUp_of_run? hfollows.shaped hcap' (fun _ => Or.inl hforced) hlater
                hlast hverdict with hgives | ⟨-, hfails⟩
              · apply Or.inl (hgives.cons turn)
              · obtain ⟨_, -, hnext, -⟩ := run?_cons hlater
                left
                exact ⟨[], turn, next :: later, rfl, hrefused,
                  ⟨next, rfl, rebuilt_of_forced hnext hforced⟩, hfails⟩
            · -- The solve goes on recovering after a bound flip only.
              have hflip (hflag : (recovering && kind != .majorPivot) = true) :
                  recovering = true ∧ turn.kind? ≠ some .majorPivot := by
                rw [Bool.and_eq_true, bne_iff_ne] at hflag
                rw [hkind, ne_eq, Option.some_inj]
                exact hflag
              have hfresh' (hflag : (recovering && kind != .majorPivot) = true) :
                  turn.solver.Fresh := by
                obtain ⟨hrecovering, hkind⟩ := hflip hflag
                apply Or.inr ((hfresh hrecovering).turn?_pivots h hcap hturn hkind)
              rcases Shaped.givesUp_of_run? hfollows.shaped hcap' hfresh' hlater hlast hverdict with
                hgives | ⟨hflag, hfails⟩
              · apply Or.inl (hgives.cons turn)
              · obtain ⟨hrecovering, hkind⟩ := hflip hflag
                exact Or.inr ⟨hrecovering, hfails.cons hkind⟩
      · cases hlast
        obtain ⟨rfl, hrefused⟩ := h.turn?_numericFailure hturn hverdict
        have hkind : turn.kind? ≠ some .majorPivot := by
          rw [hrefused.kind?_eq]
          simp
        right
        exact ⟨rfl, [], turn, rfl, hrefused, by simp,
          (hfresh rfl).turn?_pivots h hcap hturn hkind⟩

/-- A turn of a run begins a run of the later turns, from a solver that follows the first one.  By
induction on the turns before it. -/
theorem Shaped.exists_run?_append :
    ∀ {before : List (Turn (ProductForm F) F)} {budget i : ℕ} {recovering : Bool}
      {solver : Solver (ProductForm F) F},
      solver.Shaped →
      run? readings budget i recovering solver = some (before ++ turn :: later) →
      ∃ budget recovering start, solver.Follows start
        ∧ run? readings budget (i + before.length) recovering start = some (turn :: later)
  | [], budget, _, recovering, solver, h, hrun =>
      ⟨budget, recovering, solver, h.follows, hrun⟩
  | first :: before, budget, i, recovering, solver, h, hrun => by
      obtain ⟨rest, rfl, hfirst, ⟨flag, -, hlater⟩ | ⟨-, hnil⟩⟩ := run?_cons hrun
      · have hfollows := (h.turn? hfirst).1
        obtain ⟨budget, recovering, start, hstart, hrun⟩ :=
          Shaped.exists_run?_append hfollows.shaped hlater
        rw [Nat.add_assoc, Nat.add_comm 1] at hrun
        exact ⟨budget, recovering, start, hfollows.trans hstart, hrun⟩
      · simp at hnil

/-- With a major pivot a solve has recovered: if it ends with a numeric failure, it gives up after
that pivot. -/
theorem Shaped.givesUp_after_majorPivot (h : solver.Shaped)
    (hcap : 0 < solver.context.policy.pivotCap) {before : List (Turn (ProductForm F) F)}
    (hrun : run? readings budget i recovering solver = some (before ++ turn :: later))
    {last : Turn (ProductForm F) F} (hlast : (before ++ turn :: later).getLast? = some last)
    (hverdict : last.verdict = .conclude .numericFailure)
    (hkind : turn.kind? = some .majorPivot) :
  GivesUp later
  := by
  obtain ⟨budget, flag, start, hstart, hrun⟩ := h.exists_run?_append hrun
  obtain ⟨rest, rfl, hturn, hcases⟩ := run?_cons hrun
  have hfollows := (hstart.shaped.turn? hturn).1
  rw [List.getLast?_append_cons] at hlast
  cases later with
  | nil =>
      rw [List.getLast?_singleton, Option.some_inj] at hlast
      subst hlast
      have hnone := (hstart.shaped.turn?_numericFailure hturn hverdict).2.kind?_eq
      rw [hkind] at hnone
      cases hnone
  | cons next later =>
      rw [List.getLast?_cons_cons] at hlast
      obtain ⟨_, hagain, hlater⟩ | ⟨-, hnil⟩ := hcases
      · rcases hstart.shaped.turn?_again hturn hagain with ⟨-, -, hrefused, -⟩
          | ⟨kind, hsome, rfl, -⟩
        · rw [hrefused.kind?_eq] at hkind
          cases hkind
        · rw [hsome, Option.some_inj] at hkind
          subst hkind
          have hpos : 0 < turn.solver.context.policy.pivotCap := by
            rw [hfollows.context_eq, hstart.context_eq]
            apply hcap
          apply (hfollows.shaped.givesUp_of_run? hpos (by simp) hlater hlast hverdict).resolve_right
          simp
      · cases hnil

/-! ### Solves -/

variable {model : Model F} {settings : Settings} {rule : PricingRule F} {patience : ℕ}

/-- A solve gives up only after another try.

Let a solve of a visited solver end with a numeric failure, in any numbers.  Its last turn has
refused a pivot, and so has an earlier one, with a factorization from scratch in the turn after that
and no major pivot between the two; and the factorization at the end has no changes.  After every
major pivot of the solve there are two such turns again, so that no pivot that was refused before
it has a part in the failure. -/
theorem Visited.givesUp_of_numericFailure (h : Visited model settings rule solver)
    {outcome : Outcome (Solver (ProductForm F) F) (SolveEnd F)} {result : SolveResult F}
    (hsolve : solver.solve? readings patience = some outcome)
    (hresult : outcome.result = .solved result) (hstatus : result.status = .numericFailure) :
  ∃ turns, run? readings (solver.turnBudget patience) 0 false solver = some turns
    ∧ GivesUp turns
    ∧ BasisFactorization.nrPivots outcome.state.factorization = 0
    ∧ BasisFactorization.etaLength outcome.state.factorization = 0
    ∧ ∀ before pivot after, turns = before ++ pivot :: after →
      pivot.kind? = some .majorPivot → GivesUp after
  := by
  have hmade := h.madeOf
  obtain ⟨turns, hrun, hfinish⟩ := Option.bind_eq_some_iff.mp hsolve
  obtain ⟨last, hlast, hverdict, -, hstate⟩ := exists_last_of_finish? hfinish hresult
  rw [hstatus] at hverdict
  have hgives := (hmade.shaped.givesUp_of_run? hmade.pivotCap_pos (by simp) hrun hlast
    hverdict).resolve_right (by simp)
  have hpivots : BasisFactorization.nrPivots outcome.state.factorization = 0 := by
    obtain ⟨earlier, first, later, rfl, -, -, between, other, rfl, -, -, hpivots⟩ := hgives
    rw [← List.cons_append, ← List.append_assoc, List.getLast?_concat, Option.some_inj] at hlast
    rw [hstate, ← hlast]
    apply hpivots
  refine ⟨turns, hrun, hgives, hpivots, ?_, ?_⟩
  · obtain ⟨_, hrecorded⟩ := (h.solve readings patience hsolve).exists_recorded
    rw [hrecorded.balancedWithin.1.toBalanced.etaLength, hpivots]
  · rintro before pivot after rfl hkind
    apply hmade.shaped.givesUp_after_majorPivot hmade.pivotCap_pos hrun hlast hverdict hkind

end Solver

/-! ### Thirds -/

/-- Settings for which the pivots of small models are too small. -/
def Settings.coarse : Settings where
  tolerances := { pivotEpsilonScale := 1e17 }
  policy := { timed := false }

namespace Solver

theorem coarse_visited :
  Visited .thirds .coarse .dantzig (thirdsWith .coarse)
  := .made (thirdsWith_made (by decide +kernel))

/-- With pivots that are too small, the model with thirds ends with a numeric failure. -/
theorem Visited.givesUp_of_numericFailure_thirds :
  Visited .thirds .coarse .dantzig (thirdsWith .coarse)
    ∧ ∃ outcome result turns, (thirdsWith .coarse).solve? (fun _ => {}) 5 = some outcome
      ∧ outcome.result = .solved result ∧ result.status = .numericFailure
      ∧ run? (fun _ => {}) ((thirdsWith .coarse).turnBudget 5) 0 false (thirdsWith .coarse)
        = some turns
      ∧ GivesUp turns ∧ BasisFactorization.etaLength outcome.state.factorization = 0
  := by
  have hstatus : (((thirdsWith .coarse).solve? (fun _ => {}) 5).bind fun outcome =>
      outcome.result.status?) = some .numericFailure := by
    decide +kernel
  obtain ⟨outcome, result, hsolve, hresult, hfailure⟩ := exists_solved hstatus
  obtain ⟨turns, hrun, hgives, -, hlength, -⟩ :=
    coarse_visited.givesUp_of_numericFailure hsolve hresult hfailure
  exact ⟨coarse_visited, outcome, result, turns, hsolve, hresult, hfailure, hrun, hgives, hlength⟩

end Solver

end RevisedSimplex
