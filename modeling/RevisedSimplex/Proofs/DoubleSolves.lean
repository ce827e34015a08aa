import RevisedSimplex.EtaFile
import RevisedSimplex.Proofs.ExactScalar
import Mathlib.Data.List.Forall2
import Mathlib.Data.Option.NAry

/-!
# Two rows at a time

`applyLeftDouble?` goes through the columns of a file once and adds up two inner products side by
side.  `applyLeft?` adds up one of them, and has to be applied to each row by itself.  The single
sums start from `emptySum` and the others from zero, so that with machine numbers the results need
not be the same.

They are related by every relation of numbers that `KeptBySums`: one that holds between the two
starts, and that adding multiples of related numbers keeps.  Any two numbers are related in such a
way, which says that both ways succeed on the same vectors with results of the same lengths.  So are
equal numbers if they are exact.
-/

namespace RevisedSimplex

/-! ### Related results -/

section Related

variable {α β γ δ : Type} {R : α → β → Prop} {S : γ → δ → Prop}

/-- Both components of two pairs are related. -/
def OnBoth (R : α → β → Prop) (first : α × α) (second : β × β) : Prop :=
  R first.1 second.1 ∧ R first.2 second.2

theorem rel_bind {a : Option α} {b : Option β} {f : α → Option γ} {g : β → Option δ}
    (h : Option.Rel R a b) (hstep : ∀ x y, R x y → Option.Rel S (f x) (g y)) :
  Option.Rel S (a.bind f) (b.bind g)
  := by
  cases h with
  | some hxy => apply hstep _ _ hxy
  | none => apply Option.Rel.none

theorem rel_map₂ {a c : Option α} {b d : Option β} (h : Option.Rel R a b)
    (h' : Option.Rel R c d) :
  Option.Rel (OnBoth R) (Option.map₂ Prod.mk a c) (Option.map₂ Prod.mk b d)
  := by
  cases h with
  | none => apply Option.Rel.none
  | some hab =>
      cases h' with
      | none => apply Option.Rel.none
      | some hcd => apply Option.Rel.some ⟨hab, hcd⟩

theorem eq_of_rel_onBoth {a b : Option (α × α)} (h : Option.Rel (OnBoth Eq) a b) :
  a = b
  := by
  cases h with
  | some hab => rw [Prod.ext hab.1 hab.2]
  | none => rfl

/-- Folds over the same list with steps that keep a relation. -/
theorem rel_foldlM {f : α → γ → Option α} {g : β → γ → Option β}
    (hstep : ∀ x y entry, R x y → Option.Rel R (f x entry) (g y entry)) :
    ∀ (entries : List γ) {a : α} {b : β}, R a b →
      Option.Rel R (entries.foldlM f a) (entries.foldlM g b)
  | [], _, _, h => .some h
  | entry :: entries, _, _, h => by
      rw [List.foldlM_cons, List.foldlM_cons]
      apply rel_bind (hstep _ _ entry h)
      intro x y hxy
      apply rel_foldlM hstep entries hxy

theorem rel_getElem? :
    ∀ {first : List α} {second : List β}, List.Forall₂ R first second → ∀ i : ℕ,
      Option.Rel R first[i]? second[i]?
  | _, _, .nil, _ => .none
  | _, _, .cons h _, 0 => .some h
  | _, _, .cons _ hs, i + 1 => rel_getElem? hs i

theorem forall₂_set {x : α} {y : β} (hxy : R x y) :
    ∀ {first : List α} {second : List β}, List.Forall₂ R first second → ∀ i : ℕ,
      List.Forall₂ R (first.set i x) (second.set i y)
  | _, _, .nil, _ => .nil
  | _, _, .cons _ hs, 0 => .cons hxy hs
  | _, _, .cons h hs, i + 1 => .cons h (forall₂_set hxy hs i)

end Related

section Pairs

variable {α β : Type}

/-- Two computations one after the other, as one on pairs. -/
theorem bind_bind_eq_bind_map₂ (a b : Option α) (f : α × α → Option β) :
  (a.bind fun x => b.bind fun y => f (x, y)) = (Option.map₂ Prod.mk a b).bind f
  := by
  cases a with
  | none => rfl
  | some x => cases b <;> rfl

/-- Two computations that go on, as one on pairs.  It fails when one of the two does, now or
later. -/
theorem map₂_bind (a b : Option α) (f g : α → Option β) :
  Option.map₂ Prod.mk (a.bind f) (b.bind g)
    = (Option.map₂ Prod.mk a b).bind fun pair => Option.map₂ Prod.mk (f pair.1) (g pair.2)
  := by
  cases a with
  | none => rfl
  | some x =>
      cases b with
      | none => apply Option.map₂_none_right
      | some y => rfl

/-- Two folds over one list, as one fold on pairs. -/
theorem map₂_foldlM (f g : α → β → Option α) (entries : List β) (a b : α) :
  Option.map₂ Prod.mk (entries.foldlM f a) (entries.foldlM g b)
    = entries.foldlM (fun pair entry => Option.map₂ Prod.mk (f pair.1 entry) (g pair.2 entry))
      (a, b)
  := by
  induction entries generalizing a b with
  | nil => rfl
  | cons entry entries ih =>
      rw [List.foldlM_cons, List.foldlM_cons, List.foldlM_cons]
      apply (map₂_bind _ _ _ _).trans
      congr 1
      funext pair
      apply ih

end Pairs

variable {F : Type}

theorem DenseVector.rel_set? {R : F → F → Prop} {first second : DenseVector F} {x y : F}
    (h : List.Forall₂ R first second) (hxy : R x y) (i : ℕ) :
  Option.Rel (List.Forall₂ R) (first.set? i x) (second.set? i y)
  := by
  unfold set?
  rw [h.length_eq]
  split
  · apply Option.Rel.some (forall₂_set hxy h i)
  · apply Option.Rel.none

variable [Scalar F]

/-! ### Sums -/

/-- The relation holds between what a sum of one kind and one of the other start from, and is kept
when multiples of related numbers are added. -/
structure KeptBySums (R : F → F → Prop) : Prop where
  start : R Scalar.emptySum 0
  add : ∀ {a b x y : F} (value : F), R a b → R x y → R (a + x * value) (b + y * value)

theorem keptBySums_true :
  KeptBySums fun _ _ : F => True
  := ⟨trivial, fun _ _ _ => trivial⟩

/-- A single sum goes through the entries of a column in the order in which they are stored. -/
theorem EtaColumn.inner?_eq_foldlM (column : EtaColumn F) (vector : DenseVector F) :
  column.inner? vector = column.stored.foldlM (fun total entry => do
    let value ← vector[entry.1]?
    some (total + value * entry.2)) Scalar.emptySum
  := by
  unfold stored
  rw [List.foldlM_append]
  unfold inner? SparseVector.inner?
  congr 1
  funext total
  rw [List.foldlM_cons]
  cases vector[column.pivotRow]? <;> rfl

namespace KeptBySums

variable {R : F → F → Prop} {first second first' second' : DenseVector F}

theorem innerDouble? (h : KeptBySums R) (hfirst : List.Forall₂ R first first')
    (hsecond : List.Forall₂ R second second') (column : EtaColumn F) :
  Option.Rel (OnBoth R) (Option.map₂ Prod.mk (column.inner? first) (column.inner? second))
    (column.innerDouble? first' second')
  := by
  rw [EtaColumn.inner?_eq_foldlM, EtaColumn.inner?_eq_foldlM, map₂_foldlM]
  apply rel_foldlM _ _ ⟨h.start, h.start⟩
  intro totals totals' entry htotals
  have hdouble := bind_bind_eq_bind_map₂ first'[entry.1]? second'[entry.1]? fun values =>
    some (totals'.1 + values.1 * entry.2, totals'.2 + values.2 * entry.2)
  simp only [Option.bind_eq_bind, map₂_bind, hdouble]
  apply rel_bind (rel_map₂ (rel_getElem? hfirst entry.1) (rel_getElem? hsecond entry.1))
  intro values values' hvalues
  apply Option.Rel.some
  constructor
  · apply h.add entry.2 htotals.1 hvalues.1
  · apply h.add entry.2 htotals.2 hvalues.2

/-- A column, applied to two rows at once and to each by itself. -/
theorem column_applyLeftDouble? (h : KeptBySums R) (hfirst : List.Forall₂ R first first')
    (hsecond : List.Forall₂ R second second') (column : EtaColumn F) :
  Option.Rel (OnBoth (List.Forall₂ R))
    (Option.map₂ Prod.mk (column.applyLeft? first) (column.applyLeft? second))
    (column.applyLeftDouble? first' second')
  := by
  have hdouble : column.applyLeftDouble? first' second'
      = (column.innerDouble? first' second').bind fun totals =>
        Option.map₂ Prod.mk (first'.set? column.pivotRow totals.1)
          (second'.set? column.pivotRow totals.2) := by
    unfold EtaColumn.applyLeftDouble?
    apply Option.bind_congr
    intro totals _
    apply (bind_bind_eq_bind_map₂ _ _ some).trans (Option.bind_fun_some _)
  rw [hdouble]
  unfold EtaColumn.applyLeft?
  rw [Option.bind_eq_bind, map₂_bind]
  apply rel_bind (h.innerDouble? hfirst hsecond column)
  intro totals totals' htotals
  apply rel_map₂
  · apply DenseVector.rel_set? hfirst htotals.1
  · apply DenseVector.rel_set? hsecond htotals.2

/-- A file, applied to two rows at once and to each by itself. -/
theorem applyLeftDouble? (h : KeptBySums R) (hfirst : List.Forall₂ R first first')
    (hsecond : List.Forall₂ R second second') (file : EtaFile F) :
  Option.Rel (OnBoth (List.Forall₂ R))
    (Option.map₂ Prod.mk (file.applyLeft? first) (file.applyLeft? second))
    (file.applyLeftDouble? first' second')
  := by
  rw [EtaFile.applyLeft?_eq_foldlM, EtaFile.applyLeft?_eq_foldlM, map₂_foldlM,
    EtaFile.applyLeftDouble?_eq_foldlM]
  apply rel_foldlM _ _ ⟨hfirst, hsecond⟩
  intro pair pair' column hpair
  apply h.column_applyLeftDouble? hpair.1 hpair.2 column

end KeptBySums

namespace EtaFile

/-- Two rows at once have results when each of them has one, and results of the same lengths. -/
theorem exists_applyLeftDouble? {file : EtaFile F} {first second a b : DenseVector F}
    (ha : file.applyLeft? first = some a) (hb : file.applyLeft? second = some b) :
  ∃ c d, file.applyLeftDouble? first second = some (c, d) ∧ a.length = c.length
    ∧ b.length = d.length
  := by
  have hrel := keptBySums_true.applyLeftDouble? (F := F)
    (List.forall₂_same.mpr fun x (_ : x ∈ first) => trivial)
    (List.forall₂_same.mpr fun x (_ : x ∈ second) => trivial) file
  rw [ha, hb] at hrel
  generalize file.applyLeftDouble? first second = double at hrel
  obtain ⟨hboth⟩ := hrel
  exact ⟨_, _, rfl, hboth.1.length_eq, hboth.2.length_eq⟩

/-- Exact numbers are the same for two rows at once as for each by itself. -/
theorem applyLeftDouble?_eq {F : Type} [ExactScalar F] (file : EtaFile F)
    (first second : DenseVector F) :
  file.applyLeftDouble? first second
    = Option.map₂ Prod.mk (file.applyLeft? first) (file.applyLeft? second)
  := by
  have heq : KeptBySums (Eq : F → F → Prop) :=
    ⟨ExactScalar.emptySum_eq_zero, by rintro a _ x _ value rfl rfl; rfl⟩
  have hrel := heq.applyLeftDouble? (List.forall₂_refl first) (List.forall₂_refl second) file
  rw [List.forall₂_eq_eq_eq] at hrel
  apply (eq_of_rel_onBoth hrel).symm

end EtaFile

end RevisedSimplex
