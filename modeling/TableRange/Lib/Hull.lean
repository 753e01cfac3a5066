import Mathlib.Order.Bounds.Basic

/-!
# Hulls that are folded together from parts

The hull of a set in a preorder is a least upper bound.  A program that folds a
set keeps some representatives in place of the elements it has seen, and nothing
is lost as long as the two sets have the same upper bounds (`SameHull`).
-/

namespace Lib.Hull

variable {α : Type} [Preorder α] {s s' t t' : Set α} {a b c : α}

/-- The same elements lie above both sets. -/
def SameHull (s t : Set α) : Prop := upperBounds s = upperBounds t

theorem SameHull.refl (s : Set α) : SameHull s s := rfl

theorem SameHull.trans (h : SameHull s t) (h' : SameHull t t') : SameHull s t' := Eq.trans h h'

theorem SameHull.union (h : SameHull s s') (h' : SameHull t t') : SameHull (s ∪ t) (s' ∪ t') := by
  unfold SameHull
  rw [upperBounds_union, upperBounds_union, h, h']

/-- One element can stand for a set when it is its hull. -/
theorem sameHull_singleton_iff : SameHull s {a} ↔ IsLUB s a := by
  constructor
  · intro h
    rw [IsLUB, h]
    exact isLUB_singleton
  · intro h
    exact h.upperBounds_eq.trans upperBounds_singleton.symm

/-- Elements that lie below everything leave no trace. -/
theorem sameHull_empty (h : ∀ x ∈ s, ∀ y, x ≤ y) : SameHull s ∅ := by
  unfold SameHull
  rw [upperBounds_empty]
  exact Set.eq_univ_of_forall fun y x hx => h x hx y

/-- The hull of a set and one more element. -/
theorem isLUB_insert (hs : IsLUB s a) (h : IsLUB {a, b} c) : IsLUB (insert b s) c := by
  rw [← sameHull_singleton_iff] at hs h ⊢
  have hswap : insert b s = s ∪ {b} := by
    rw [Set.union_comm, Set.singleton_union]
  rw [hswap]
  exact (hs.union (.refl {b})).trans h

end Lib.Hull
