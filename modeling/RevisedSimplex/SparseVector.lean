import RevisedSimplex.DenseVector

/-!
# Sparse vectors

A `SparseVector` lists positions together with the entries there; all other entries are zero.
`scatter?` writes it over a dense vector, `inner?` multiplies it with one.  A vector is
`Ordered` when its positions increase.
-/

namespace RevisedSimplex

/-- A vector given by some positions and the entries there. -/
abbrev SparseVector (F : Type) := List (Nat × F)

namespace SparseVector

variable {F : Type}

/-- The positions of a sparse vector, in the order of its list. -/
def positions (vector : SparseVector F) : List Nat :=
  vector.map Prod.fst

/-- The positions of the vector increase. -/
def Ordered (vector : SparseVector F) : Prop :=
  vector.positions.Pairwise (· < ·)

instance (vector : SparseVector F) : Decidable vector.Ordered :=
  inferInstanceAs (Decidable (vector.positions.Pairwise (· < ·)))

/-- The entry listed at a position. -/
def valueAt? (vector : SparseVector F) (position : Nat) : Option F :=
  (vector.find? fun entry => entry.1 == position).map Prod.snd

/-- The vector with `offset` added to every position. -/
def shift (offset : Nat) (vector : SparseVector F) : SparseVector F :=
  vector.map fun entry => (entry.1 + offset, entry.2)

variable [Scalar F]

/-- Writes the listed entries over those of a dense vector. -/
def scatter? (vector : SparseVector F) (target : DenseVector F) : Option (DenseVector F) :=
  vector.foldlM (fun dense entry => DenseVector.set? dense entry.1 entry.2) target

/-- The dense vector of a given size with the listed entries. -/
def toDense? (vector : SparseVector F) (size : Nat) : Option (DenseVector F) :=
  vector.scatter? (DenseVector.zero size)

/-- The products of the listed entries with those of a dense vector, added up in order. -/
def inner? (vector : SparseVector F) (dense : DenseVector F) : Option F :=
  vector.foldlM (fun total entry => do
    let value ← dense[entry.1]?
    some (total + value * entry.2)) Scalar.emptySum

/-- The entries of a dense vector that are not zero. -/
def nonzeros (dense : DenseVector F) : SparseVector F :=
  dense.zipIdx.filterMap fun entry => if entry.1 == 0 then none else some (entry.2, entry.1)

end SparseVector

end RevisedSimplex
