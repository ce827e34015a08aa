import RevisedSimplex.Proofs.Edges

/-!
# Feasible points

A point is feasible when it satisfies the equations of a model and all values lie within their
bounds.  A value within the bounds of a nonbasic variable lies, seen from the value at which the
variable rests, in the direction of the side at which it does.
-/

namespace RevisedSimplex

variable {F : Type} [ExactScalar F]

namespace Model

variable {model : Model F} {structural slack : DenseVector F} {v : ℕ}

/-- The values satisfy the equations, and every value lies within its bounds. -/
structure Feasible (model : Model F) (structural slack : DenseVector F) : Prop
    extends Satisfies model structural slack where
  contains : ∀ v bounds, model.bounds? v = some bounds →
    bounds.Contains (model.pointOf structural slack v)

/-- The point of the parts of a solution. -/
theorem pointOf_parts {x : ℕ → F} (h : model.Solves x) (hv : v < model.nrVariables) :
  model.pointOf (model.structuralPart x) (model.slackPart x) v = x v
  := by
  by_cases hzero : v = 0
  · rw [hzero, pointOf_zero, (satisfies_of_solves h).2]
  · by_cases hslack : v ≤ model.nrRows
    · have hlt : v - 1 < model.nrRows := by omega
      have hv' : model.pointOf (model.structuralPart x) (model.slackPart x) (v - 1 + 1)
          = (model.slackPart x)[v - 1]?.getD 0 := pointOf_slack (model.length_slackPart x) hlt
      rw [Nat.sub_add_cancel (Nat.pos_of_ne_zero hzero), getElem?_slackPart x hlt,
        Nat.sub_add_cancel (Nat.pos_of_ne_zero hzero)] at hv'
      apply hv'
    · have hlt : v - (1 + model.nrRows) < model.nrColumns := by
        unfold nrVariables at hv
        omega
      have hle : 1 + model.nrRows ≤ v := by omega
      have hv' : model.pointOf (model.structuralPart x) (model.slackPart x)
            (1 + model.nrRows + (v - (1 + model.nrRows)))
          = (model.structuralPart x)[v - (1 + model.nrRows)]?.getD 0 :=
        pointOf_structural (model.length_slackPart x) _
      rw [getElem?_structuralPart x hlt, Nat.add_sub_cancel' hle] at hv'
      apply hv'

/-- A solution within all bounds is feasible. -/
theorem feasible_of_solves {x : ℕ → F} (h : model.Solves x)
    (hcontains : ∀ v bounds, model.bounds? v = some bounds → bounds.Contains (x v)) :
  model.Feasible (model.structuralPart x) (model.slackPart x)
  where
    toSatisfies := (satisfies_of_solves h).1
    contains v bounds hbounds := by
      rw [pointOf_parts h (lt_of_bounds? hbounds)]
      apply hcontains v bounds hbounds

end Model

/-! ### Resting variables -/

namespace Bounds

variable {bounds : Bounds F} {stored side : Side} {y : F}

/-- A value within the bounds lies in the direction of the side at which the variable rests. -/
theorem Contains.direction_mul_nonneg (h : bounds.Contains y)
    (hside : bounds.restingSide? stored = some side) :
  0 ≤ side.direction * (y - bounds.restingValue stored)
  := by
  have hat := at?_of_restingSide? hside
  cases side with
  | lower =>
      have hle := h.lower _ hat
      change 0 ≤ 1 * _
      linarith
  | upper =>
      have hle := h.upper _ hat
      change 0 ≤ -1 * _
      linarith

end Bounds

end RevisedSimplex
