import RevisedSimplex.Solver.Run
import RevisedSimplex.Proofs.Refactorizations
import RevisedSimplex.Proofs.SolverShape
import RevisedSimplex.Proofs.SolverSteps

/-!
# Turns of a solver in exact numbers

A solver is `Consistent` when its data have the size of the model, and its iterate is exact if it
claims to be current.  Preparing the next step makes a consistent solver exact, by a factorization
from scratch if the iterate is not current, and the step that follows keeps it so.

A turn ends the solve with a status other than an interruption only by a step that comes to it, or
by a singular column if the settings say so.
-/

namespace RevisedSimplex

namespace Solver

variable {F : Type} [ExactScalar F] {solver after : Solver (ProductForm F) F}

/-- The data have the size of the model, and the iterate is exact if it is current. -/
structure Consistent (solver : Solver (ProductForm F) F) : Prop where
  sized : solver.iterate.Sized solver.model
  nrRows : solver.factorization.nrRows = solver.model.nrRows
  exact : solver.iterate.current = true → solver.Exact

theorem Exact.consistent (h : solver.Exact) :
  solver.Consistent
  where
    sized := h.iterate.sized
    nrRows := Nat.succ_injective h.iterate.inverse.size
    exact _ := h

/-! ### Refactorizations -/

/-- A factorization from scratch represents the basis, whatever the tolerances on the values are. -/
theorem represented_of_rebuild? (hsized : solver.iterate.Sized solver.model)
    (hsize : solver.factorization.nrRows = solver.model.nrRows)
    (hcontext : solver.context.Exact) :
  ∃ outcome iterate factorization counters, solver.rebuild? = some outcome
    ∧ outcome.state = { solver with iterate, factorization, counters }
    ∧ iterate.Represented solver.model factorization ∧ iterate.current = true
    ∧ (solver.context.tolerances.primal = 0 → solver.model.Solves (iterate.point solver.model))
    ∧ (outcome.result.singular = [] → iterate.basis.sides = solver.iterate.basis.sides
      ∧ ∀ v, v ∈ iterate.basis.owners ↔ v ∈ solver.iterate.basis.owners)
  := by
  obtain ⟨outcome, houtcome, hrest⟩ := hsized.refactorize?_eq hcontext hsize
  unfold rebuild?
  rw [houtcome]
  exact ⟨_, _, _, _, rfl, rfl, hrest⟩

/-- A factorization from scratch. -/
theorem Consistent.rebuild?_eq (h : solver.Consistent) (hcontext : solver.context.ExactSolve) :
  ∃ outcome, solver.rebuild? = some outcome ∧ solver.Advances outcome.state
    ∧ (outcome.result.singular = [] →
      outcome.state.iterate.basis.sides = solver.iterate.basis.sides
        ∧ ∀ v, v ∈ outcome.state.iterate.basis.owners ↔ v ∈ solver.iterate.basis.owners)
  := by
  obtain ⟨outcome, iterate, factorization, counters, houtcome, hstate, hrepresented, hcurrent,
    hsolves, hbasis⟩ := represented_of_rebuild? h.sized h.nrRows hcontext.toExact
  refine ⟨outcome, houtcome, ⟨iterate, factorization, counters, hstate, ?_⟩, ?_⟩
  · rw [hstate]
    exact ⟨⟨hrepresented, hsolves hcontext.primal⟩, hcurrent⟩
  · rw [hstate]
    apply hbasis

/-- A factorization from scratch without singular columns keeps the values of all variables. -/
theorem Exact.value?_of_rebuild? (h : solver.Exact) (hcontext : solver.context.ExactSolve) :
  ∃ outcome, solver.rebuild? = some outcome ∧ (outcome.result.singular = [] →
    ∀ v < solver.model.nrVariables,
      outcome.state.iterate.value? solver.model v = solver.iterate.value? solver.model v)
  := by
  obtain ⟨outcome, houtcome, ⟨iterate, factorization, counters, hstate, hexact⟩, hbasis⟩ :=
    h.consistent.rebuild?_eq hcontext
  refine ⟨outcome, houtcome, ?_⟩
  intro hsingular v hv
  obtain ⟨hsides, howners⟩ := hbasis hsingular
  rw [hstate] at hsides howners hexact ⊢
  have hafter : iterate.Exact solver.model factorization := hexact.iterate
  change iterate.value? solver.model v = _
  rw [hafter.sized.value?_eq hv, h.iterate.sized.value?_eq hv,
    h.iterate.point_eq hafter howners _ hv]
  intro w _
  rw [BasisTable.side?, hsides, BasisTable.side?]

/-- Asking whether a factorization is due changes nothing that matters. -/
theorem Consistent.factorizationDue (h : solver.Consistent) (reading : Reading) :
  (solver.factorizationDue reading).2.Consistent
    ∧ (∃ factorization, (solver.factorizationDue reading).2 = { solver with factorization })
    ∧ ((solver.factorizationDue reading).1 = false →
      solver.Advances (solver.factorizationDue reading).2)
  := by
  unfold Solver.factorizationDue
  split
  · rename_i hcurrent
    have hexact := (h.exact hcurrent).with_factorization
      (ProductForm.mustRefactorize solver.context reading.sinceFactorization
        solver.factorization).2
      (by unfold ProductForm.mustRefactorize; split <;> rfl)
      (by unfold ProductForm.mustRefactorize; split <;> rfl)
    exact ⟨hexact.consistent, ⟨_, rfl⟩, fun _ => ⟨_, _, _, rfl, hexact⟩⟩
  · exact ⟨h, ⟨_, rfl⟩, fun hdue => by cases hdue⟩

/-- The solver is exact when the next step begins. -/
theorem Consistent.prepare?_eq (h : solver.Consistent) (hcontext : solver.context.ExactSolve)
    (reading : Reading) :
  ∃ prepared, solver.prepare? reading = some prepared ∧ solver.Advances prepared.state
  := by
  obtain ⟨hconsistent, ⟨factorization, hsame⟩, hcurrent⟩ := h.factorizationDue reading
  unfold prepare?
  cases hdue : solver.factorizationDue reading with
  | mk due next =>
      rw [hdue] at hconsistent hsame hcurrent
      dsimp only at hconsistent hsame hcurrent
      cases due with
      | false => exact ⟨_, rfl, hcurrent rfl⟩
      | true =>
          have hnext : next.context.ExactSolve := by
            rw [hsame]
            apply hcontext
          obtain ⟨outcome, houtcome, hadvances, -⟩ := hconsistent.rebuild?_eq hnext
          dsimp only
          rw [houtcome]
          obtain ⟨iterate, later, counters, hstate, hexact⟩ := hadvances
          refine ⟨_, rfl, iterate, later, counters, ?_, hexact⟩
          change outcome.state = _
          rw [hstate, hsame]

/-- Preparing a step keeps the values of all variables, unless a column turns out singular. -/
theorem Exact.value?_of_prepare? (h : solver.Exact) (hcontext : solver.context.ExactSolve)
    {reading : Reading} {prepared : Outcome (Solver (ProductForm F) F) (Option Factorization)}
    (hprepared : solver.prepare? reading = some prepared)
    (hsingular : ∀ factorization, prepared.result = some factorization →
      factorization.singular = [])
    {v : ℕ} (hv : v < solver.model.nrVariables) :
  prepared.state.iterate.value? solver.model v = solver.iterate.value? solver.model v
  := by
  obtain ⟨hconsistent, ⟨factorization, hsame⟩, -⟩ := h.consistent.factorizationDue reading
  unfold prepare? at hprepared
  cases hdue : solver.factorizationDue reading with
  | mk due next =>
      rw [hdue] at hconsistent hsame hprepared
      dsimp only at hconsistent hsame hprepared
      subst hsame
      cases due with
      | false =>
          cases hprepared
          rfl
      | true =>
          obtain ⟨outcome, houtcome, hvalues⟩ :=
            (hconsistent.exact h.current).value?_of_rebuild? hcontext
          dsimp only at hprepared
          rw [houtcome] at hprepared
          cases hprepared
          apply hvalues (hsingular outcome.result rfl) v hv

/-- Preparing a step advances a consistent solver. -/
theorem Consistent.advances_of_prepare? (h : solver.Consistent)
    (hcontext : solver.context.ExactSolve) {reading : Reading}
    {prepared : Outcome (Solver (ProductForm F) F) (Option Factorization)}
    (hprepared : solver.prepare? reading = some prepared) :
  solver.Advances prepared.state
  := by
  obtain ⟨other, hother, hadvances⟩ := h.prepare?_eq hcontext reading
  rw [hprepared, Option.some_inj] at hother
  rw [hother]
  apply hadvances

/-! ### Turns -/

/-- A refused pivot is only counted, and a factorization asked for. -/
theorem Advances.refuse (h : solver.Advances after) (recovering : Bool) :
  solver.Advances (after.refuse recovering)
  := by
  obtain ⟨iterate, factorization, counters, rfl, hexact⟩ := h
  unfold Solver.refuse
  dsimp only
  split
  · exact ⟨_, _, _, rfl, hexact.iterate, hexact.current⟩
  · have hforced := hexact.with_factorization { factorization with forced := true } rfl rfl
    exact ⟨_, _, _, rfl, hforced.iterate, hforced.current⟩

variable {reading : Reading} {recovering : Bool} {turn : Turn (ProductForm F) F}

/-- A step of a prepared solver. -/
theorem Consistent.step?_of_prepare? (h : solver.Consistent)
    (hcontext : solver.context.ExactSolve) (hcomplete : solver.pricing.Complete)
    {prepared : Outcome (Solver (ProductForm F) F) (Option Factorization)}
    (hprepared : solver.prepare? reading = some prepared)
    {outcome : Outcome (Solver (ProductForm F) F) (Except Error StepResult)}
    (hstep : prepared.state.step? = some outcome) :
  solver.Advances outcome.state
    ∧ (outcome.result = .ok (.done .optimal) →
      outcome.state.RowsContained ∧ outcome.state.PricedOut)
    ∧ (outcome.result = .ok (.done .infeasible) → outcome.state.Stuck)
  := by
  have hadvances := h.advances_of_prepare? hcontext hprepared
  have hkept : prepared.state.context = solver.context
      ∧ prepared.state.pricing = solver.pricing := by
    obtain ⟨_, _, _, hstate, -⟩ := hadvances
    rw [hstate]
    exact ⟨rfl, rfl⟩
  obtain ⟨hmoved, hoptimal, hinfeasible⟩ := hadvances.exact.step?
    (by rw [hkept.1]; apply hcontext) (by rw [hkept.2]; apply hcomplete) hstep
  refine ⟨hadvances.trans hmoved, ?_, ?_⟩
  · intro hresult
    obtain ⟨hstate, hfound⟩ := hoptimal hresult
    rw [hstate]
    apply hfound
  · intro hresult
    obtain ⟨hstate, hfound⟩ := hinfeasible hresult
    rw [hstate]
    apply hfound

/-- A turn. -/
theorem Consistent.turn? (h : solver.Consistent) (hcontext : solver.context.ExactSolve)
    (hcomplete : solver.pricing.Complete) (hturn : solver.turn? reading recovering = some turn) :
  solver.Advances turn.solver
    ∧ (turn.verdict = .conclude .optimal →
      turn.solver.RowsContained ∧ turn.solver.PricedOut)
    ∧ (solver.settings.singularPolicy = .repair → turn.verdict = .conclude .infeasible →
      turn.solver.Stuck)
  := by
  refine ⟨?_, ?_, ?_⟩
  · obtain ⟨prepared, hprepared, -, ⟨-, -, -, hsolver⟩ | ⟨outcome, hstep, -, hcases⟩⟩ :=
      turn?_cases hturn
    · rw [hsolver]
      apply h.advances_of_prepare? hcontext hprepared
    · obtain ⟨hadvances, -⟩ := h.step?_of_prepare? hcontext hcomplete hprepared hstep
      rcases hcases with ⟨_, -, -, hsolver⟩ | ⟨_, _, _, -, -, hsolver⟩ | ⟨_, -, -, -, hsolver⟩
      · rw [hsolver]
        apply hadvances
      · rw [hsolver]
        apply hadvances.refuse
      · rw [hsolver]
        apply hadvances
  · intro hverdict
    obtain ⟨prepared, hprepared, ⟨-, hstatus⟩ | ⟨outcome, hstep, hfound, hsolver⟩⟩ :=
      found_of_turn? hturn hverdict (Or.inl rfl)
    · cases hstatus
    · rw [hsolver]
      apply (h.step?_of_prepare? hcontext hcomplete hprepared hstep).2.1 hfound
  · intro hpolicy hverdict
    obtain ⟨prepared, hprepared, ⟨hfail, -⟩ | ⟨outcome, hstep, hfound, hsolver⟩⟩ :=
      found_of_turn? hturn hverdict (Or.inr (Or.inr rfl))
    · obtain ⟨_, _, _, hstate, -⟩ := h.advances_of_prepare? hcontext hprepared
      rw [hstate, hpolicy] at hfail
      cases hfail
    · rw [hsolver]
      apply (h.step?_of_prepare? hcontext hcomplete hprepared hstep).2.2 hfound

/-- A turn that ends a solve as unbounded has taken a step that came to this status. -/
theorem exists_step?_of_turn? (hturn : solver.turn? reading recovering = some turn)
    (hverdict : turn.verdict = .conclude .unbounded) :
  ∃ prepared outcome, solver.prepare? reading = some prepared
    ∧ prepared.state.step? = some outcome ∧ outcome.result = .ok (.done .unbounded)
    ∧ turn.solver = outcome.state
  := by
  obtain ⟨prepared, hprepared, ⟨-, hstatus⟩ | ⟨outcome, hstep, hfound, hsolver⟩⟩ :=
    found_of_turn? hturn hverdict (Or.inr (Or.inl rfl))
  · cases hstatus
  · exact ⟨prepared, outcome, hprepared, hstep, hfound, hsolver⟩

end Solver

end RevisedSimplex
