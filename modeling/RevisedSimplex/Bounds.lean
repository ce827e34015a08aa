import RevisedSimplex.Scalar

/-!
# Bounds

A variable has a lower and an upper `Side`, each of which may be missing.  `Bounds` holds what is
there; a lower bound never exceeds an upper one.  A nonbasic variable rests at one of its bounds:
at the side that is stored for it if there is a bound on that side, at the other bound otherwise,
and at zero if it is free.

The tests of the method on a single variable are here as well: whether a value violates the
bounds, how far it can move until it reaches one, and which bound it is closest to.
-/

namespace RevisedSimplex

/-- One of the two ends of the range of a variable. -/
inductive Side where
  | lower
  | upper
deriving DecidableEq, Repr, Inhabited

namespace Side

/-- The opposite side. -/
def other : Side → Side
  | lower => upper
  | upper => lower

/-- The direction that leads from a bound into the range. -/
def direction {F : Type} [One F] [Neg F] : Side → F
  | lower => 1
  | upper => -1

end Side

/-- Where a range ends, as it is written down. -/
inductive Endpoint (F : Type) where
  | value (x : F)
  | minusInfinity
  | plusInfinity
  | undefined

namespace Endpoint

variable {F : Type} [Scalar F]

/-- The end that a number stands for. -/
def of (x : F) : Endpoint F :=
  if Scalar.isNaN x then undefined
  else if Scalar.isFinite x then value x
  else if 0 < x then plusInfinity
  else minusInfinity

/-- The end on the opposite side of zero. -/
def negate : Endpoint F → Endpoint F
  | value x => value (-x)
  | minusInfinity => plusInfinity
  | plusInfinity => minusInfinity
  | undefined => undefined

/-- The end as a double, for reports. -/
def toFloat : Endpoint F → Float
  | value x => Scalar.toFloat x
  | minusInfinity => -1 / 0
  | plusInfinity => 1 / 0
  | undefined => 0 / 0

end Endpoint

/-- The bounds of a variable. -/
structure Bounds (F : Type) [LE F] where
  /-- The lower bound, if there is one. -/
  lower : Option F
  /-- The upper bound, if there is one. -/
  upper : Option F
  /-- The lower bound is at most the upper one. -/
  ordered : ∀ l u, lower = some l → upper = some u → l ≤ u

namespace Bounds

variable {F : Type} [Scalar F]

/-! ### Ranges -/

/-- No bounds at all. -/
def free : Bounds F :=
  ⟨none, none, by simp⟩

/-- A lower bound only. -/
def atLeast (l : F) : Bounds F :=
  ⟨some l, none, by simp⟩

/-- An upper bound only. -/
def atMost (u : F) : Bounds F :=
  ⟨none, some u, by simp⟩

/-- Two bounds. -/
def between (l u : F) (h : l ≤ u) : Bounds F :=
  ⟨some l, some u, fun _ _ hl hu => Option.some.inj hl ▸ Option.some.inj hu ▸ h⟩

/-- The bounds with the given ends, unless an end is undefined or at the wrong infinity, or the
lower end lies above the upper one. -/
def ofEndpoints? : Endpoint F → Endpoint F → Option (Bounds F)
  | .value l, .value u => if h : l ≤ u then some (between l u h) else none
  | .value l, .plusInfinity => some (atLeast l)
  | .minusInfinity, .value u => some (atMost u)
  | .minusInfinity, .plusInfinity => some free
  | _, _ => none

/-- The bound on a side. -/
def at? (bounds : Bounds F) : Side → Option F
  | .lower => bounds.lower
  | .upper => bounds.upper

/-- The distance between the two bounds. -/
def range? (bounds : Bounds F) : Option F :=
  match bounds.lower, bounds.upper with
  | some l, some u => some (u - l)
  | _, _ => none

/-- The distance between the two bounds if it is a finite number. -/
def finiteRange? (bounds : Bounds F) : Option F :=
  bounds.range?.filter fun range => Scalar.isFinite range

/-- Whether the two bounds are less than a tolerance apart. -/
def isFixed (bounds : Bounds F) (tolerance : F) : Bool :=
  bounds.range?.any fun range => range < tolerance

/-! ### Nonbasic variables -/

/-- The side a variable is put to without a better indication. -/
def initialSide (bounds : Bounds F) : Side :=
  if bounds.lower.isSome || bounds.upper.isNone then .lower else .upper

/-- The side a nonbasic variable rests at, given the side stored for it. -/
def restingSide? (bounds : Bounds F) (stored : Side) : Option Side :=
  if (bounds.at? stored).isSome then some stored
  else if (bounds.at? stored.other).isSome then some stored.other
  else none

/-- The value a nonbasic variable rests at, zero if it is free. -/
def restingValue (bounds : Bounds F) (stored : Side) : F :=
  ((bounds.restingSide? stored).bind bounds.at?).getD 0

/-- The side whose bound is closest to a value.  A fixed variable goes to its lower side, and so
does one without bounds. -/
def closestSide (bounds : Bounds F) (tolerance value : F) : Side :=
  if bounds.isFixed tolerance then .lower
  else match bounds.lower, bounds.upper with
    | _, none => .lower
    | none, some _ => .upper
    | some l, some u => if u - value < value - l then .upper else .lower

/-! ### Basic variables -/

/-- The side on which a value lies outside by more than a tolerance, with the bound there. -/
def violated? (bounds : Bounds F) (tolerance value : F) : Option (Side × F) :=
  match bounds.lower.filter fun l => value < l - tolerance with
  | some l => some (.lower, l)
  | none => (bounds.upper.filter fun u => u + tolerance < value).map (Side.upper, ·)

/-- The amount by which a value lies outside, zero if it does so by no more than a tolerance. -/
def violation (bounds : Bounds F) (tolerance value : F) : F :=
  match bounds.violated? tolerance value with
  | some (.lower, l) => l - value
  | some (.upper, u) => value - u
  | none => 0

/-- Whether a value is less than a tolerance away from the bound on a side. -/
def isAt (bounds : Bounds F) (side : Side) (tolerance value : F) : Bool :=
  (bounds.at? side).any fun bound => Scalar.magnitude (value - bound) < tolerance

/-- The step after which a value that decreases at a rate reaches the relaxed bound ahead of it.
There is none if no bound lies ahead. -/
def reach? (bounds : Bounds F) (relaxation value rate : F) : Option F :=
  if 0 < rate then
    bounds.lower.map fun l => Scalar.larger ((value - l + relaxation) / rate) 0
  else if rate < 0 then
    bounds.upper.map fun u => Scalar.larger ((value - u - relaxation) / rate) 0
  else none

/-- The signed step that moves a value which decreases at a rate onto the relaxed bound that it
violates, zero if it violates none. -/
def repairStep (bounds : Bounds F) (tolerance relaxation value rate : F) : F :=
  match bounds.violated? tolerance value with
  | some (.lower, l) => (value - l + relaxation) / rate
  | some (.upper, u) => (value - u - relaxation) / rate
  | none => 0

end Bounds

end RevisedSimplex
