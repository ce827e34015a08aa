import RevisedSimplex.Proofs.ProductFormSteps
import RevisedSimplex.Solver.Run

/-!
# Solvers with another limit

The limit on the number of iterations is looked at after an iteration and nowhere else.  Hence
every operation up to a step gives the same with another limit in the settings, and a turn gives
the same but for its verdict.

The clocks are looked at when a factorization may be due and after an iteration.  If the policy has
no watch on the time, the first of these does not matter.
-/

namespace RevisedSimplex

variable {R F Result : Type} [Scalar F]

/-- The solver with another limit on the number of iterations. -/
def Solver.withLimit (limit : Option ℕ) (solver : Solver R F) : Solver R F :=
  { solver with settings := { solver.settings with iterationLimit := limit } }

/-- The outcome of an operation on the solver with another limit. -/
def Outcome.withLimit (limit : Option ℕ) (outcome : Outcome (Solver R F) Result) :
    Outcome (Solver R F) Result :=
  { outcome with state := outcome.state.withLimit limit }

/-- The turn of the solver with another limit, at another reading. -/
def Turn.withLimit (limit : Option ℕ) (reading : Reading) (recovering : Bool) (turn : Turn R F) :
    Turn R F :=
  { turn with
    solver := turn.solver.withLimit limit
    verdict := match turn.step with
      | some (.ok result) => (turn.solver.withLimit limit).verdictAfter reading recovering result
      | _ => turn.verdict }

namespace Solver

variable {limit : Option ℕ}

/-! ### Parts -/

@[simp]
theorem withLimit_model (solver : Solver R F) :
  (solver.withLimit limit).model = solver.model
  := rfl

@[simp]
theorem withLimit_context (solver : Solver R F) :
  (solver.withLimit limit).context = solver.context
  := rfl

@[simp]
theorem withLimit_pricing (solver : Solver R F) :
  (solver.withLimit limit).pricing = solver.pricing
  := rfl

@[simp]
theorem withLimit_factorization (solver : Solver R F) :
  (solver.withLimit limit).factorization = solver.factorization
  := rfl

@[simp]
theorem withLimit_iterate (solver : Solver R F) :
  (solver.withLimit limit).iterate = solver.iterate
  := rfl

@[simp]
theorem withLimit_counters (solver : Solver R F) :
  (solver.withLimit limit).counters = solver.counters
  := rfl

theorem countDegenerate_withLimit (kind : IterationKind) (step : Option F) (solver : Solver R F) :
  countDegenerate kind step (solver.withLimit limit)
    = (countDegenerate kind step solver).withLimit limit
  := by
  unfold countDegenerate
  rw [apply_ite (withLimit limit)]
  rfl

/-! ### Steps -/

variable [BasisFactorization R F]

/-- A chain of operations gives the same up to a change of the last state, if its last operation
does. -/
theorem bind_eq_map_bind {α β γ : Type} {x : Option α} {f : α → Option γ} {g : α → Option β}
    {change : β → γ} (h : ∀ a, f a = (g a).map change) :
  x.bind f = (x.bind g).map change
  := by
  cases x with
  | none => rfl
  | some a => apply h

theorem pivot?_withLimit (solver : Solver R F) (leavingRow : Option ℕ) (entering : ℕ) (theta : F)
    (primal : Bool) :
  (solver.withLimit limit).pivot? leavingRow entering theta primal
    = (solver.pivot? leavingRow entering theta primal).map (Outcome.withLimit limit)
  := by
  unfold pivot?
  apply bind_eq_map_bind
  intro staged
  cases staged.result with
  | some e => rfl
  | none =>
      apply bind_eq_map_bind
      intro performed
      rfl

theorem consider?_withLimit (solver : Solver R F) (candidate : Candidate F) :
  (solver.withLimit limit).consider? candidate
    = (solver.consider? candidate).map (Prod.map (withLimit limit) id)
  := by
  unfold consider?
  apply bind_eq_map_bind
  intro iterate
  apply bind_eq_map_bind
  intro degenerate
  rfl

/-- Alternatives are the same.  By induction on the number of retries. -/
theorem findAlternative?_withLimit :
    ∀ (retries : ℕ) (solver : Solver R F) (candidates : List (Candidate F)),
      (solver.withLimit limit).findAlternative? retries candidates
        = (solver.findAlternative? retries candidates).map
          (Option.map (Prod.map id (withLimit limit)))
  | 0, _, _ => rfl
  | retries + 1, solver, candidates => by
      unfold findAlternative?
      rw [withLimit_pricing]
      cases solver.pricing.selectEntering candidates with
      | none => rfl
      | some place =>
          apply bind_eq_map_bind
          intro candidate
          rw [consider?_withLimit]
          cases solver.consider? candidate with
          | none => rfl
          | some considered =>
              obtain ⟨loaded, degenerate⟩ := considered
              cases degenerate with
              | true => apply findAlternative?_withLimit retries
              | false => rfl

theorem avoidDegeneracy?_withLimit (solver : Solver R F) (candidates : List (Candidate F))
    (place : ℕ) :
  (solver.withLimit limit).avoidDegeneracy? candidates place
    = (solver.avoidDegeneracy? candidates place).map (Prod.map id (withLimit limit))
  := by
  unfold avoidDegeneracy?
  apply bind_eq_map_bind
  intro chosen
  rw [consider?_withLimit]
  cases hchosen : solver.consider? chosen with
  | none => rfl
  | some considered =>
      obtain ⟨loaded, degenerate⟩ := considered
      cases degenerate with
      | false => rfl
      | true =>
          change ((loaded.withLimit limit).findAlternative? solver.settings.degeneracyRetries
            (candidates.eraseIdx place)).bind _ = _
          rw [findAlternative?_withLimit]
          simp only [Option.map_some, Option.bind_eq_bind, Option.bind_some]
          cases loaded.findAlternative? solver.settings.degeneracyRetries
            (candidates.eraseIdx place) with
          | none => rfl
          | some found =>
              cases found with
              | some _ => rfl
              | none => rfl

theorem enter?_withLimit (solver : Solver R F) (candidate : Candidate F) :
  (solver.withLimit limit).enter? candidate
    = (solver.enter? candidate).map (Outcome.withLimit limit)
  := by
  unfold enter?
  apply bind_eq_map_bind
  intro entries
  apply bind_eq_map_bind
  intro bounds
  dsimp only [withLimit_context]
  split
  · rfl
  · rw [pivot?_withLimit]
    cases solver.pivot? ((primalRatioTest? solver.context.tolerances candidate.direction
        entries).map Prod.fst) candidate.index (candidate.direction * _) true with
    | none => rfl
    | some pivoted =>
        simp only [Option.map_some, Option.bind_eq_bind, Option.bind_some]
        cases hresult : pivoted.result with
        | ok kind =>
          simp [Outcome.withLimit, hresult, countDegenerate_withLimit]
        | error e => simp [Outcome.withLimit, hresult]

theorem primalStep?_withLimit (solver : Solver R F) :
  (solver.withLimit limit).primalStep? = solver.primalStep?.map (Outcome.withLimit limit)
  := by
  unfold primalStep?
  apply bind_eq_map_bind
  intro unit
  apply bind_eq_map_bind
  intro multipliers
  apply bind_eq_map_bind
  intro movable
  apply bind_eq_map_bind
  intro candidates
  dsimp only [withLimit_pricing]
  cases solver.pricing.selectEntering candidates with
  | none => rfl
  | some place =>
      dsimp only
      rw [avoidDegeneracy?_withLimit, Option.bind_eq_bind, Option.bind_map]
      apply bind_eq_map_bind
      intro found
      apply enter?_withLimit

theorem repair?_withLimit (solver : Solver R F) (row : BasicRow F) (entering : Eligible F) :
  (solver.withLimit limit).repair? row entering
    = (solver.repair? row entering).map (Outcome.withLimit limit)
  := by
  unfold repair?
  apply bind_eq_map_bind
  intro iterate
  apply bind_eq_map_bind
  intro alpha
  change (Option.bind (pivot? (withLimit limit { solver with iterate }) _ _ _ _) _) = _
  rw [pivot?_withLimit, Option.bind_map]
  apply bind_eq_map_bind
  intro pivoted
  rfl

theorem dualStep?_withLimit (solver : Solver R F) :
  (solver.withLimit limit).dualStep? = solver.dualStep?.map (Outcome.withLimit limit)
  := by
  unfold dualStep?
  apply bind_eq_map_bind
  intro violations
  dsimp only [withLimit_pricing]
  cases solver.pricing.selectLeaving violations with
  | none => apply primalStep?_withLimit
  | some place =>
      apply bind_eq_map_bind
      intro leaving
      apply bind_eq_map_bind
      intro row
      apply bind_eq_map_bind
      intro first
      apply bind_eq_map_bind
      intro second
      apply bind_eq_map_bind
      intro rows
      apply bind_eq_map_bind
      intro movable
      apply bind_eq_map_bind
      intro entries
      dsimp only [withLimit_context]
      split
      · rfl
      · apply repair?_withLimit

theorem step?_withLimit (solver : Solver R F) :
  (solver.withLimit limit).step? = solver.step?.map (Outcome.withLimit limit)
  := by
  unfold step?
  apply bind_eq_map_bind
  intro feasible
  cases feasible with
  | true => apply primalStep?_withLimit
  | false => apply dualStep?_withLimit

/-! ### Turns -/

theorem rebuild?_withLimit (solver : Solver R F) :
  (solver.withLimit limit).rebuild? = solver.rebuild?.map (Outcome.withLimit limit)
  := by
  unfold rebuild?
  apply bind_eq_map_bind
  intro outcome
  rfl

/-- Without a watch on the time, the clocks do not matter for whether a factorization is due. -/
theorem factorizationDue_withLimit {F : Type} [Scalar F] (solver : Solver (ProductForm F) F)
    (htimed : solver.context.policy.timed = false) (reading reading' : Reading) :
  (solver.withLimit limit).factorizationDue reading'
    = Prod.map id (withLimit limit) (solver.factorizationDue reading)
  := by
  have hdue (elapsed : ℕ) :
      BasisFactorization.mustRefactorize solver.context elapsed solver.factorization
        = (solver.factorization.forced
            || decide (solver.context.policy.pivotCap ≤ solver.factorization.pivots),
          solver.factorization) :=
    ProductForm.mustRefactorize_eq htimed elapsed solver.factorization
  unfold factorizationDue
  dsimp only [withLimit_iterate, withLimit_context, withLimit_factorization]
  rw [hdue, hdue, apply_ite (Prod.map id (withLimit limit))]
  rfl

variable {F : Type} [Scalar F]

theorem prepare?_withLimit (solver : Solver (ProductForm F) F)
    (htimed : solver.context.policy.timed = false) (reading reading' : Reading) :
  (solver.withLimit limit).prepare? reading'
    = (solver.prepare? reading).map (Outcome.withLimit limit)
  := by
  unfold prepare?
  rw [factorizationDue_withLimit solver htimed reading reading']
  obtain ⟨due, next⟩ := solver.factorizationDue reading
  cases due with
  | false => rfl
  | true =>
      change (next.withLimit limit).rebuild?.bind _ = _
      rw [rebuild?_withLimit, Option.bind_map]
      apply bind_eq_map_bind
      intro outcome
      rfl

theorem stepTurn?_withLimit (solver : Solver (ProductForm F) F) (reading reading' : Reading)
    (recovering : Bool) (rebuilt : Option Factorization) (earlier : List Event) :
  (solver.withLimit limit).stepTurn? reading' recovering rebuilt earlier
    = (solver.stepTurn? reading recovering rebuilt earlier).map
      (Turn.withLimit limit reading' recovering)
  := by
  unfold stepTurn?
  rw [step?_withLimit, Option.bind_eq_bind, Option.bind_map]
  apply bind_eq_map_bind
  intro outcome
  obtain ⟨result, state, events⟩ := outcome
  cases result with
  | ok found => rfl
  | error e =>
      cases e
      case numericFailure row index value =>
        cases recovering with
        | true => rfl
        | false => rfl
      all_goals rfl

/-- With another limit, and without a watch on the time at any reading, a turn gives the same but for
its verdict. -/
theorem turn?_withLimit (limit : Option ℕ) (solver : Solver (ProductForm F) F)
    (htimed : solver.context.policy.timed = false) (reading reading' : Reading)
    (recovering : Bool) :
  (solver.withLimit limit).turn? reading' recovering
    = (solver.turn? reading recovering).map (Turn.withLimit limit reading' recovering)
  := by
  unfold turn?
  rw [prepare?_withLimit solver htimed reading reading', Option.bind_eq_bind, Option.bind_map]
  apply bind_eq_map_bind
  intro prepared
  dsimp only [Function.comp, Outcome.withLimit]
  rw [apply_ite (Option.map _), stepTurn?_withLimit prepared.state reading reading']
  rfl

end Solver

end RevisedSimplex
