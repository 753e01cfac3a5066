import Mathlib.Order.Interval.Set.Basic
import Mathlib.Order.Antisymmetrization

/-!
# Comparisons decided on an interval

In a total preorder, a set of values is known only through two bounds that
enclose it.  `Comparison.Excludes` is the test on the bounds that settles a
comparison with a constant for every value between them, and `excludes_iff` says
that the test is exact: it succeeds precisely when no element of the interval
satisfies the comparison.  `excludes_sound` is the half that needs no
assumption on the bounds.

`Comparison.Within` asks of a value only what the test relies on, the bounds it
looks at, and `within_iff` says that it asks for no more than that.

`Comparison.flip` is the comparison read from the other side, and
`lowerBound_step` and `upperBound_step` are the two updates that make an
interval take in one more value.
-/

namespace Lib.Interval

/-- The five comparisons of an order. -/
inductive Comparison
  | lt | le | eq | ge | gt
deriving DecidableEq, Repr

section Total

variable {α : Type} [Preorder α] [@Std.Total α (· ≤ ·)]

theorem lt_of_not_le {a b : α} (h : ¬ a ≤ b) : b < a :=
  lt_of_le_not_ge ((Std.Total.total b a).resolve_right h) h

theorem le_of_not_lt {a b : α} (h : ¬ a < b) : b ≤ a :=
  by_contra fun hn => h (lt_of_not_le hn)

end Total

namespace Comparison

variable {α : Type} [Preorder α]

/-- `x` compares with `k` as the comparison says. -/
def Holds : Comparison → α → α → Prop
  | lt, x, k => x < k
  | le, x, k => x ≤ k
  | eq, x, k => AntisymmRel (· ≤ ·) x k
  | ge, x, k => k ≤ x
  | gt, x, k => k < x

instance decidableHolds [DecidableLE α] [DecidableLT α] (c : Comparison) (x k : α) :
    Decidable (c.Holds x k) :=
  match c with
  | lt => inferInstanceAs (Decidable (x < k))
  | le => inferInstanceAs (Decidable (x ≤ k))
  | eq => inferInstanceAs (Decidable (x ≤ k ∧ k ≤ x))
  | ge => inferInstanceAs (Decidable (k ≤ x))
  | gt => inferInstanceAs (Decidable (k < x))

/-- The test on the bounds `lo` and `hi`. -/
def Excludes : Comparison → α → α → α → Prop
  | lt, lo, _, k => k ≤ lo
  | le, lo, _, k => k < lo
  | eq, lo, hi, k => k < lo ∨ hi < k
  | ge, _, hi, k => hi < k
  | gt, _, hi, k => hi ≤ k

/-- The same comparison with its sides exchanged. -/
def flip : Comparison → Comparison
  | lt => gt
  | le => ge
  | eq => eq
  | ge => le
  | gt => lt

theorem holds_flip (c : Comparison) (x k : α) : c.flip.Holds x k ↔ c.Holds k x := by
  cases c with
  | eq => exact antisymmRel_comm
  | lt | le | ge | gt => exact Iff.rfl

/-- The test looks at the lower bound. -/
def TestsLower : Comparison → Prop
  | lt | le | eq => True
  | ge | gt => False

/-- The test looks at the upper bound. -/
def TestsUpper : Comparison → Prop
  | lt | le => False
  | eq | ge | gt => True

/-- The value is inside every bound that the test looks at. -/
structure Within (c : Comparison) (lo hi x : α) : Prop where
  lower : c.TestsLower → lo ≤ x
  upper : c.TestsUpper → x ≤ hi

theorem Within.of_mem {c : Comparison} {lo hi x : α} (h : x ∈ Set.Icc lo hi) :
    c.Within lo hi x :=
  ⟨fun _ => h.1, fun _ => h.2⟩

/-- When the test succeeds, nothing within the bounds satisfies the
comparison. -/
theorem excludes_sound {c : Comparison} {lo hi k x : α} (h : c.Excludes lo hi k)
    (hx : c.Within lo hi x) : ¬ c.Holds x k := by
  intro hc
  cases c with
  | lt => exact absurd (lt_of_lt_of_le hc h) (not_lt_of_ge (hx.lower trivial))
  | le => exact absurd (lt_of_le_of_lt hc h) (not_lt_of_ge (hx.lower trivial))
  | eq =>
      rcases h with h | h
      · exact absurd (lt_of_le_of_lt hc.1 h) (not_lt_of_ge (hx.lower trivial))
      · exact absurd (lt_of_lt_of_le h hc.2) (not_lt_of_ge (hx.upper trivial))
  | ge => exact absurd (lt_of_lt_of_le h hc) (not_lt_of_ge (hx.upper trivial))
  | gt => exact absurd (lt_of_le_of_lt h hc) (not_lt_of_ge (hx.upper trivial))

/-- A comparison other than `=` that holds within an interval holds at one of its ends. -/
theorem holds_end {c : Comparison} (hc : c ≠ eq) {lo hi k x : α} (hlo : lo ≤ x) (hhi : x ≤ hi)
    (h : c.Holds x k) : c.Holds lo k ∨ c.Holds hi k := by
  cases c with
  | lt => exact Or.inl (lt_of_le_of_lt hlo h)
  | le => exact Or.inl (le_trans hlo h)
  | eq => exact absurd rfl hc
  | ge => exact Or.inr (le_trans h hhi)
  | gt => exact Or.inr (lt_of_lt_of_le h hhi)

theorem flip_ne_eq {c : Comparison} (hc : c ≠ eq) : c.flip ≠ eq := by
  cases c <;> simp_all [flip]

section Exact

variable [@Std.Total α (· ≤ ·)]

/-- The test is exact on a non-empty interval. -/
theorem excludes_iff {c : Comparison} {lo hi k : α} (hle : lo ≤ hi) :
    c.Excludes lo hi k ↔ ∀ x ∈ Set.Icc lo hi, ¬ c.Holds x k := by
  refine ⟨fun h x hx => excludes_sound h (.of_mem hx), fun h => ?_⟩
  have hlo := h lo ⟨le_refl lo, hle⟩
  have hhi := h hi ⟨hle, le_refl hi⟩
  cases c with
  | lt => exact by_contra fun hk => hlo (lt_of_not_le hk)
  | le => exact lt_of_not_le hlo
  | eq =>
      by_contra hk
      have hlk : lo ≤ k := by_contra fun hn => hk (Or.inl (lt_of_not_le hn))
      have hkh : k ≤ hi := by_contra fun hn => hk (Or.inr (lt_of_not_le hn))
      exact h k ⟨hlk, hkh⟩ ⟨le_refl k, le_refl k⟩
  | ge => exact lt_of_not_le hhi
  | gt => exact by_contra fun hk => hhi (lt_of_not_le hk)

/-- A value outside a bound that the test looks at satisfies the comparison with
some constant that the test excludes. -/
theorem within_iff {c : Comparison} {lo hi x : α} :
    c.Within lo hi x ↔ ∀ k, c.Excludes lo hi k → ¬ c.Holds x k := by
  refine ⟨fun hx k h => excludes_sound h hx, fun h => ⟨fun hc => ?_, fun hc => ?_⟩⟩
  · by_contra hlo
    have hlt : x < lo := lt_of_not_le hlo
    cases c with
    | lt => exact h lo (le_refl lo) hlt
    | le => exact h x hlt (le_refl x)
    | eq => exact h x (Or.inl hlt) ⟨le_refl x, le_refl x⟩
    | ge | gt => exact hc
  · by_contra hhi
    have hlt : hi < x := lt_of_not_le hhi
    cases c with
    | lt | le => exact hc
    | eq => exact h x (Or.inr hlt) ⟨le_refl x, le_refl x⟩
    | ge => exact h x hlt (le_refl x)
    | gt => exact h hi (le_refl hi) hlt

/-- A list of constants is excluded one by one. -/
theorem forall_excludes_eq_iff {lo hi : α} (ks : List α) :
    (∀ k ∈ ks, Comparison.eq.Excludes lo hi k) ↔ ∀ k ∈ ks, ¬ (lo ≤ k ∧ k ≤ hi) := by
  refine forall₂_congr fun k _ => ⟨fun h hk => ?_, fun h => ?_⟩
  · rcases h with h | h
    · exact absurd hk.1 (not_le_of_gt h)
    · exact absurd hk.2 (not_le_of_gt h)
  · by_cases hk : lo ≤ k
    · exact Or.inr (lt_of_not_le fun hhi => h ⟨hk, hhi⟩)
    · exact Or.inl (lt_of_not_le hk)

end Exact

end Comparison

/-! ## Taking in one more value -/

section Step

variable {α : Type} [Preorder α] [@Std.Total α (· ≤ ·)]

/-- A lower bound that moves down to `v` when `v` is below it is below both. -/
theorem lowerBound_step {lo lo' v : α} (hbelow : v < lo → lo' = v) (hkeep : ¬ v < lo → lo' = lo) :
    lo' ≤ lo ∧ lo' ≤ v := by
  by_cases h : v < lo
  · rw [hbelow h]
    exact ⟨le_of_lt h, le_refl v⟩
  · rw [hkeep h]
    exact ⟨le_refl lo, le_of_not_lt h⟩

/-- An upper bound that moves up to `v` when `v` is above it is above both. -/
theorem upperBound_step {hi hi' v : α} (habove : hi < v → hi' = v) (hkeep : ¬ hi < v → hi' = hi) :
    hi ≤ hi' ∧ v ≤ hi' := by
  by_cases h : hi < v
  · rw [habove h]
    exact ⟨le_of_lt h, le_refl v⟩
  · rw [hkeep h]
    exact ⟨le_refl hi, le_of_not_lt h⟩

end Step

end Lib.Interval
