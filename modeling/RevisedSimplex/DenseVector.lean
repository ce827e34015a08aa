import RevisedSimplex.Scalar

/-!
# Dense vectors

A `DenseVector` lists all its entries.  Positions are checked: an operation that would reach
beyond the end of a vector has no result.  `roundRelative` drops the entries that are small
beside the largest one, which is how the noise of a long product of eliminations is removed.
-/

namespace RevisedSimplex

/-- A vector given by all its entries. -/
abbrev DenseVector (F : Type) := List F

namespace DenseVector

variable {F : Type} [Scalar F]

/-- The vector of `size` zeros. -/
def zero (size : Nat) : DenseVector F :=
  List.replicate size 0

@[simp]
theorem length_zero (size : Nat) :
  (zero size : DenseVector F).length = size
  := List.length_replicate

/-- The vector with the entry at `position` replaced, if there is one. -/
def set? (vector : DenseVector F) (position : Nat) (value : F) : Option (DenseVector F) :=
  if position < vector.length then some (List.set vector position value) else none

/-- The vector with `change` applied to the entry at `position`, if there is one. -/
def modify? (vector : DenseVector F) (position : Nat) (change : F → F) : Option (DenseVector F) := do
  let value ← vector[position]?
  set? vector position (change value)

/-- The unit vector of a position. -/
def unit? (position size : Nat) : Option (DenseVector F) :=
  set? (zero size) position 1

/-- The largest magnitude of an entry, zero for the empty vector. -/
def maxMagnitude (vector : DenseVector F) : F :=
  vector.foldl (fun largest value => Scalar.larger largest (Scalar.magnitude value)) 0

/-- Replaces the entries of magnitude below `tolerance` by zero. -/
def roundAbsolute (tolerance : F) (vector : DenseVector F) : DenseVector F :=
  vector.map fun value => if Scalar.magnitude value < tolerance then 0 else value

@[simp]
theorem length_roundAbsolute (tolerance : F) (vector : DenseVector F) :
  (roundAbsolute tolerance vector).length = vector.length
  := List.length_map _

/-- Replaces the entries below the fraction `tolerance` of the largest magnitude by zero. -/
def roundRelative (tolerance : F) (vector : DenseVector F) : DenseVector F :=
  let threshold := tolerance * maxMagnitude vector
  if 0 < threshold then roundAbsolute threshold vector else vector

@[simp]
theorem length_roundRelative (tolerance : F) (vector : DenseVector F) :
  (roundRelative tolerance vector).length = vector.length
  := by
  dsimp only [roundRelative]
  split <;> simp

/-- The vector `target - factor * source` of two vectors of one length.  Zero entries of
`source` leave the target as it is, and so does a zero factor. -/
def subtractMultiple? (target : DenseVector F) (factor : F) (source : DenseVector F) :
    Option (DenseVector F) :=
  if target.length = source.length then
    if factor == 0 then some target
    else some <| List.zipWith
      (fun value change => if change == 0 then value else value - factor * change) target source
  else none

end DenseVector

end RevisedSimplex
