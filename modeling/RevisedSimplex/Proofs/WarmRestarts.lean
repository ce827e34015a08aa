import RevisedSimplex.BasisStack
import RevisedSimplex.Proofs.Optimality
import RevisedSimplex.Proofs.SolverProgress

/-!
# Warm restarts

A basis stored after a solve can be given to a new solver, with its variables in another order and
with other sides for the basic ones.  The new solver factorizes it from scratch, along other columns
and other rows than the updates of the first one.  Nevertheless its iterate has the same point,
since the nonbasic variables determine it, and the same reduced costs, since those are read off the
objective row of the inverse, which no order of the other rows changes.

So an optimal basis is a fixed point: the restarted solve finds it optimal in its first turn.
-/

open Matrix

namespace RevisedSimplex

variable {F : Type} [ExactScalar F]

namespace Solver

variable {solver other : Solver (ProductForm F) F}

/-! ### Optimal steps -/

/-- A point within all bounds has its rows within their bounds. -/
theorem rowsContained_of_contains (hsized : solver.iterate.Sized solver.model)
    (h : ∀ v bounds, solver.model.bounds? v = some bounds →
      bounds.Contains (solver.iterate.point solver.model v)) :
  solver.RowsContained
  := by
  intro position row _ hle hrow
  obtain ⟨-, howner, hvalue, hbounds⟩ := Iterate.row?_spec hrow
  have hcontains := h row.owner row.bounds hbounds
  let i : Fin (solver.model.nrRows + 1) := ⟨position, Nat.lt_succ_of_le hle⟩
  have hread := DenseVector.getElem?_eq_entries hsized.values i
  rw [hvalue, Option.some_inj] at hread
  rw [Iterate.point_of_variableAt? (i := i) howner, ← hread] at hcontains
  apply hcontains

/-- A nonbasic variable does not improve the objective at the side where it rests. -/
def Priced (solver : Solver (ProductForm F) F) (v : ℕ) : Prop :=
  ∃ side, solver.iterate.restingSide? solver.model v = some side
    ∧ Candidate.improvingDirection? solver.context.tolerances.dual (solver.reducedCost v) side
      = none

/-- A feasible basis in which no nonbasic variable improves the objective is found optimal. -/
theorem Exact.step?_eq_optimal (h : solver.Exact) (hcontext : solver.context.ExactSolve)
    (hcomplete : solver.pricing.Complete) (hrows : solver.RowsContained)
    (hpriced : ∀ v, solver.iterate.basis.isNonbasic v = true → solver.Priced v) :
  solver.step? = some (solver.conclude .optimal)
  := by
  have hfeasible :=
    (Iterate.isFeasible?_eq_true_iff_contains hcontext.primal h.iterate.sized).mpr hrows
  obtain ⟨unit, hunit, hlength, -⟩ :=
    DenseVector.unit?_eq (F := F) (0 : Fin (solver.model.nrRows + 1))
  obtain ⟨multipliers, hmultipliers, hlength, -⟩ :=
    ProductForm.btran?_eq hcontext.drop h.iterate.inverse.size h.iterate.inverse.fits hlength
  obtain ⟨movable, hmovable⟩ := h.iterate.sized.exists_movable? solver.context.tolerances
  obtain ⟨candidates, hcandidates⟩ := Candidate.exists_list? solver.context.tolerances hlength
    fun x hx => ⟨_, (Iterate.mem_movable? hmovable hx).2.2⟩
  have hnil : candidates = [] := by
    apply List.eq_nil_iff_forall_not_mem.mpr
    intro candidate hcandidate
    obtain ⟨x, hx, -, hcost, hdirection⟩ := Candidate.mem_list? hcandidates hcandidate
    obtain ⟨hnonbasic, hside, hcolumn⟩ := Iterate.mem_movable? hmovable hx
    obtain ⟨side, hresting, hnone⟩ := hpriced x.index hnonbasic
    rw [hside, Option.some_inj] at hresting
    rw [inner?_multipliers h.iterate.toRepresented hcontext.drop hunit hmultipliers hcolumn,
      Option.some_inj] at hcost
    unfold reducedCost at hnone
    rw [← hcost, hresting, hnone] at hdirection
    cases hdirection
  have hselect : solver.pricing.selectEntering [] = none := by
    cases hplace : solver.pricing.selectEntering [] with
    | none => rfl
    | some place => cases hcomplete.entering_lt [] place hplace
  have hunit : DenseVector.unit? 0 (solver.model.nrRows + 1) = some unit := hunit
  have hmultipliers : BasisFactorization.btran? solver.context solver.factorization unit
      = some multipliers := hmultipliers
  unfold Solver.step? Solver.primalStep?
  simp only [hfeasible, hunit, hmultipliers, hmovable, hcandidates, hnil, hselect,
    Option.bind_eq_bind, Option.bind_some, if_true]

/-! ### The same basis -/

/-- Solvers for the same model with the same tolerances, whose bases have the same basic variables
and the same sides for the others. -/
structure SameBasis (solver other : Solver (ProductForm F) F) : Prop where
  model : other.model = solver.model
  context : other.context = solver.context
  owners : ∀ v, v ∈ other.iterate.basis.owners ↔ v ∈ solver.iterate.basis.owners
  sides : ∀ v, solver.iterate.basis.isNonbasic v = true →
    other.iterate.basis.side? v = solver.iterate.basis.side? v

/-- The iterates of exact solvers with the same basis have the same point. -/
theorem SameBasis.point_eq (hsame : solver.SameBasis other) (h : solver.Exact)
    (hother : other.Exact) {v : ℕ} (hv : v < solver.model.nrVariables) :
  other.iterate.point other.model v = solver.iterate.point solver.model v
  := by
  have hexact := hother.iterate
  rw [hsame.model] at hexact ⊢
  apply h.iterate.point_eq hexact hsame.owners hsame.sides hv

theorem SameBasis.isNonbasic (hsame : solver.SameBasis other) (h : solver.Exact)
    (hother : other.Exact) {v : ℕ} (hv : other.iterate.basis.isNonbasic v = true) :
  solver.iterate.basis.isNonbasic v = true
  := by
  rw [Basis.isNonbasic_iff] at hv ⊢
  rw [h.iterate.sized.nrVariables, ← hsame.model, ← hother.iterate.sized.nrVariables,
    ← hsame.owners]
  apply hv

/-- They have the same reduced costs as well. -/
theorem SameBasis.reducedCost_eq (hsame : solver.SameBasis other) (h : solver.Exact)
    (hother : other.Exact) (v : ℕ) :
  other.reducedCost v = solver.reducedCost v
  := by
  obtain ⟨hmodel, -, howners, -⟩ := hsame
  obtain ⟨model, settings, context, pricing, factorization, iterate, counters⟩ := other
  dsimp only at hmodel
  subst hmodel
  apply h.iterate.tableau_zero_eq hother.iterate howners

/-- A nonbasic variable that does not improve the objective of one of them does not improve that of
the other. -/
theorem SameBasis.priced (hsame : solver.SameBasis other) (h : solver.Exact)
    (hother : other.Exact) {v : ℕ} (hv : solver.iterate.basis.isNonbasic v = true)
    (hpriced : solver.Priced v) :
  other.Priced v
  := by
  obtain ⟨side, hside, hnone⟩ := hpriced
  refine ⟨side, ?_, ?_⟩
  · rw [← hside]
    unfold Iterate.restingSide?
    rw [hsame.model, hsame.sides v hv]
  · rw [hsame.context, hsame.reducedCost_eq h hother]
    apply hnone

/-- A basis that was found optimal by one exact solver is found optimal by every other one. -/
theorem SameBasis.step?_eq_optimal (hsame : solver.SameBasis other) (h : solver.Exact)
    (hother : other.Exact) (hcontext : solver.context.ExactSolve)
    (hcomplete : solver.pricing.Complete) (hcomplete' : other.pricing.Complete)
    (hrows : solver.RowsContained) (hpriced : solver.PricedOut) :
  other.step? = some (other.conclude .optimal)
  := by
  apply hother.step?_eq_optimal
  · rw [hsame.context]
    apply hcontext
  · apply hcomplete'
  · apply rowsContained_of_contains hother.iterate.sized
    intro v bounds hbounds
    rw [hsame.model] at hbounds
    rw [hsame.point_eq h hother (Model.lt_of_bounds? hbounds)]
    apply h.contains_point hrows hbounds
  · intro v hv
    have hv := hsame.isNonbasic h hother hv
    apply hsame.priced h hother hv (h.improvingDirection?_eq_none hcontext hcomplete hpriced hv)

/-! ### First turns -/

/-- A solve of a stale iterate that has nothing to do after the factorization ends in its first
turn. -/
theorem turn?_of_rebuild? (hcurrent : solver.iterate.current = false)
    {rebuilt : Outcome (Solver (ProductForm F) F) Factorization}
    (hrebuilt : solver.rebuild? = some rebuilt) (hsingular : rebuilt.result.singular = [])
    {status : Status} (hstep : rebuilt.state.step? = some (rebuilt.state.conclude status))
    (reading : Reading) (recovering : Bool) :
  ∃ turn, solver.turn? reading recovering = some turn ∧ turn.verdict = .conclude status
    ∧ turn.solver = rebuilt.state
  := by
  have hprepared : solver.prepare? reading = some
      { result := some rebuilt.result, state := rebuilt.state, events := rebuilt.events } := by
    unfold prepare? factorizationDue
    rw [hcurrent]
    change solver.rebuild?.bind _ = _
    rw [hrebuilt]
    rfl
  unfold turn?
  rw [hprepared, Option.bind_eq_bind, Option.bind_some]
  dsimp only
  rw [Option.any_some, hsingular]
  unfold stepTurn?
  dsimp only
  rw [hstep]
  exact ⟨_, rfl, rfl, rfl⟩

/-! ### Restarts -/

variable {model : Model F} {settings : Settings} {context : Context F} {rule rule' : PricingRule F}
  {readings : ℕ → Reading} {patience : ℕ}
  {outcome : Outcome (Solver (ProductForm F) F) (SolveEnd F)} {result : SolveResult F}

/-- A new solver takes over every basis of the size of the model. -/
theorem exists_setBasis (hcontext : Context.ofSettings settings = .ok context) {basis : Basis}
    (hrows : basis.nrRows = model.nrRows) (hvariables : basis.nrVariables = model.nrVariables)
    (rule : PricingRule F) :
  ∃ made fresh : Solver (ProductForm F) F,
    withComponents model settings (ProductForm.identity model.nrRows) rule = .ok made
      ∧ made.setBasis basis = .ok fresh ∧ fresh.iterate.basis = basis
      ∧ fresh.iterate.current = false ∧ fresh.iterate.nrIterations = 0
  := by
  refine ⟨start model settings context (ProductForm.identity model.nrRows) rule, ?_⟩
  unfold withComponents Solver.setBasis
  rw [hcontext, if_neg (by rw [hrows]; simp [start]), if_neg (by rw [hvariables]; simp [start])]
  exact ⟨_, rfl, rfl, rfl, rfl, rfl⟩

/-- Results of exact solvers with the same basis have the same values. -/
theorem SameBasis.result_eq (hsame : solver.SameBasis other) (h : solver.Exact)
    (hother : other.Exact) {status status' : Status} {result result' : SolveResult F}
    (hresult : solver.result? status = some result)
    (hresult' : other.result? status' = some result') :
  result'.structural = result.structural ∧ result'.slack = result.slack
    ∧ result'.objective = result.objective
  := by
  obtain ⟨hstructural, hslack, hobjective⟩ := h.result?_spec hresult
  obtain ⟨hstructural', hslack', hobjective'⟩ := hother.result?_spec hresult'
  obtain ⟨hparts, hslackParts⟩ := Model.parts_congr fun v hv => hsame.point_eq h hother hv
  rw [hsame.model] at hstructural' hslack' hobjective' hparts hslackParts
  have hvalues : result'.structural = result.structural := by
    rw [hstructural', hstructural, hparts]
  refine ⟨hvalues, ?_, ?_⟩
  · rw [hslack', hslack, hslackParts]
  · rw [hobjective', hobjective, hvalues]

/-- An optimal basis is a fixed point of a restart.

Let a solve in exact numbers end as optimal, with accepted settings whose tolerances round nothing.
Let a new solver for the same model with the same settings start from any basis that is the same as
the last one, be it in another order or with other sides for the basic variables.  It takes the
basis over, and factorizes it from scratch.  If no column turns out singular, the solve ends as
optimal without an iteration, whatever the clocks show, with the same value of every variable and
the same objective. -/
theorem Reached.restart_optimal (hcontext : Context.ofSettings settings = .ok context)
    (htolerances : context.tolerances.Exact) (hrule : rule = .dantzig ∨ rule = .first)
    (h : Reached model settings rule solver)
    (hsolve : solver.solve? readings patience = some outcome)
    (hresult : outcome.result = .solved result) (hstatus : result.status = .optimal)
    (hrule' : rule' = .dantzig ∨ rule' = .first) {basis : Basis}
    (hbasis : basis.sameAs outcome.state.basis = true) :
  ∃ (made fresh : Solver (ProductForm F) F)
      (rebuilt : Outcome (Solver (ProductForm F) F) Factorization),
    withComponents model settings (ProductForm.identity model.nrRows) rule' = .ok made
      ∧ made.setBasis basis = .ok fresh ∧ fresh.rebuild? = some rebuilt
      ∧ (rebuilt.result.singular = [] → ∀ readings' patience', 0 < patience' →
        ∃ again found, fresh.solve? readings' patience' = some again
          ∧ again.result = .solved found ∧ found.status = .optimal
          ∧ found.statistics.nrIterations = 0
          ∧ found.structural = result.structural ∧ found.slack = result.slack
          ∧ found.objective = result.objective)
  := by
  obtain ⟨hkeeps, hexact, hread, hoptimal, -⟩ :=
    h.solve?_spec hcontext htolerances hrule hsolve hresult
  obtain ⟨hrows, hpriced⟩ := hoptimal hstatus
  have hsized := hexact.iterate.sized
  rw [hkeeps.model] at hsized
  obtain ⟨hvariables, howners, hsides⟩ := Basis.sameAs_iff.mp hbasis
  obtain ⟨made, fresh, hmade, hset, hstart, hcurrent, hcount⟩ := exists_setBasis hcontext
    ((Basis.nrRows_eq_of_sameAs hbasis).trans hsized.nrRows)
    (hvariables.trans hsized.nrVariables) rule'
  have hfresh := (keeps_of_withComponents hcontext hmade).setBasis hset
  have hsolveExact := hfresh.exactSolve hcontext htolerances
  obtain ⟨rebuilt, hrebuilt, hadvances, hkept⟩ := hfresh.consistent.rebuild?_eq hsolveExact
  refine ⟨made, fresh, rebuilt, hmade, hset, hrebuilt, ?_⟩
  intro hsingular readings' patience' hpatience
  obtain ⟨hsidesKept, hownersKept⟩ := hkept hsingular
  have hlast := hfresh.advances hadvances
  have hsame : outcome.state.SameBasis rebuilt.state := by
    constructor
    case model => rw [hlast.model, hkeeps.model]
    case context => rw [hlast.context, hkeeps.context]
    case owners =>
      intro v
      rw [hownersKept, hstart]
      apply howners
    case sides =>
      intro v hv
      unfold BasisTable.side?
      rw [hsidesKept, hstart]
      apply hsides
      rw [Basis.isNonbasic_iff] at hv ⊢
      rw [hvariables, howners]
      apply hv
  have hstep := hsame.step?_eq_optimal hexact hadvances.exact
    (hkeeps.exactSolve hcontext htolerances) (hkeeps.complete hrule) (hlast.complete hrule')
    hrows hpriced
  obtain ⟨turn, hturn, hverdict, hstate⟩ :=
    turn?_of_rebuild? hcurrent hrebuilt hsingular hstep (readings' 0) false
  obtain ⟨hfollows, -, hiterations, -⟩ :=
    (madeOf_of_withComponents hmade |>.setBasis hset).shaped.rebuild? hrebuilt
  obtain ⟨found, hfound, hfoundStatus⟩ := hfollows.shaped.exists_result? .optimal
  rw [← hstate] at hfound
  obtain ⟨again, hagain, hsolved, -⟩ := exists_solve?_of_turn? hturn hverdict hfound hpatience
  rw [hstate] at hfound
  refine ⟨again, found, hagain, hsolved, hfoundStatus, ?_,
    hsame.result_eq hexact hadvances.exact hread hfound⟩
  rw [(result?_spec hfound).2.1]
  apply hiterations.trans hcount

end Solver

/-! ### Restored bases -/

/-- The basis that a stack restores is the one that was pushed. -/
theorem BasisStack.sameAs_of_restore? {stack : BasisStack} {basis current restored : Basis}
    (h : (stack.push basis).restore? current = some (true, restored)) :
  restored.sameAs basis = true
  := by
  unfold restore? at h
  rw [top?_push] at h
  dsimp only at h
  split at h
  · cases h
    exact Basis.sameAs_iff.mpr ⟨rfl, fun _ => Iff.rfl, fun _ _ => rfl⟩
  · cases h

/-- The last basis of the sample model, with its variables in the other order and at their other
sides. -/
def Basis.swapped : Basis where
  nrRows := 2
  owners := [0, 4, 3]
  positions := [some 0, none, none, some 2, some 1]
  sides := [.lower, .lower, .lower, .upper, .upper]
  consistent := by
    have hparts : BasisTable.ofParts 2 [4, 3] [.lower, .lower, .lower, .upper, .upper]
        = .ok _ := rfl
    apply (BasisTable.ofParts_eq hparts).1

namespace Solver

/-- The sample model is found optimal again from that basis. -/
theorem Reached.restart_optimal_sample :
  Context.ofSettings .sample = .ok (Context.convert .sample : Context ℚ)
    ∧ (Context.convert .sample : Context ℚ).tolerances.Exact
    ∧ Reached Model.sample .sample .dantzig (sample .sample)
    ∧ ∃ outcome result fresh again found, (sample .sample).solve? (fun _ => {}) 5 = some outcome
      ∧ outcome.result = .solved result ∧ result.status = .optimal
      ∧ Basis.swapped.sameAs outcome.state.basis = true
      ∧ (sample .sample).setBasis .swapped = .ok fresh
      ∧ fresh.solve? (fun _ => {}) 1 = some again ∧ again.result = .solved found
      ∧ found.status = .optimal ∧ found.statistics.nrIterations = 0
      ∧ found.structural = result.structural ∧ found.objective = result.objective
  := by
  have hsolved : (((sample .sample).solve? (fun _ => {}) 5).bind fun outcome =>
      outcome.result.status?) = some .optimal := by
    decide +kernel
  have hbasis : ((sample .sample).solve? (fun _ => {}) 5).map (fun outcome =>
      Basis.swapped.sameAs outcome.state.basis) = some true := by
    decide +kernel
  have hsingular : (((sample .sample).setBasis .swapped).toOption.bind fun fresh =>
      fresh.rebuild?.map fun rebuilt => rebuilt.result.singular) = some [] := by
    decide +kernel
  obtain ⟨outcome, result, hsolve, hresult, hstatus⟩ := exists_solved hsolved
  rw [hsolve, Option.map_some, Option.some_inj] at hbasis
  obtain ⟨made, fresh, rebuilt, hmade, hset, hrebuilt, hrestart⟩ :=
    Reached.restart_optimal Context.ofSettings_sample Context.convert_sample_exact (Or.inl rfl)
      (sample_reached .sample) hsolve hresult hstatus (Or.inl rfl) hbasis
  rw [sample_made] at hmade
  cases hmade
  rw [hset] at hsingular
  change fresh.rebuild?.map _ = _ at hsingular
  rw [hrebuilt, Option.map_some, Option.some_inj] at hsingular
  obtain ⟨again, found, hagain, hfound, hoptimal, hcount, hstructural, -, hobjective⟩ :=
    hrestart hsingular (fun _ => {}) 1 Nat.one_pos
  exact ⟨Context.ofSettings_sample, Context.convert_sample_exact, sample_reached .sample,
    outcome, result, fresh, again, found, hsolve, hresult, hstatus, hbasis, hset, hagain, hfound,
    hoptimal, hcount, hstructural, hobjective⟩

end Solver

end RevisedSimplex
