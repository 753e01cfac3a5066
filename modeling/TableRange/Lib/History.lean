import Mathlib.Algebra.BigOperators.Ring.List
import Mathlib.Algebra.Order.BigOperators.Group.List
import Mathlib.Algebra.Order.Ring.Nat
import Mathlib.Data.List.Infix
import Mathlib.Tactic.Common

/-!
# Runs and their histories

A machine moves by events, and `Run` relates the history of its events, the
latest first, to the states that the history leads to.  A property of a run is a
statement about its history: a moment of the past is a suffix of the history, and
`Run.past` gives the state of that moment.  How often an event happens is bounded by
what pays for it (`Run.amortized`).
-/

namespace Lib.History

variable {σ ε : Type} {step : σ → ε → σ → Prop} {init : σ}

variable (step init) in
/-- The history leads to the state. -/
inductive Run : List ε → σ → Prop
  | nil : Run [] init
  | cons {es : List ε} {e : ε} {s s' : σ} (h : Run es s) (hstep : step s e s') : Run (e :: es) s'

theorem Run.of_cons {es : List ε} {e : ε} {s' : σ} (h : Run step init (e :: es) s') :
    ∃ s, Run step init es s ∧ step s e s' := by
  cases h with
  | cons h hstep => exact ⟨_, h, hstep⟩

/-- The state at a moment of the past. -/
theorem Run.past {es past : List ε} {s : σ} (h : Run step init es s) (hpast : past <:+ es) :
    ∃ s', Run step init past s' := by
  induction h with
  | nil =>
      rw [List.suffix_nil] at hpast
      exact ⟨init, hpast ▸ .nil⟩
  | cons h hstep ih =>
      rcases List.suffix_cons_iff.mp hpast with rfl | hpast
      · exact ⟨_, .cons h hstep⟩
      · exact ih hpast

theorem countP_eq_sum {α : Type} (p : α → Bool) (l : List α) :
    l.countP p = (l.map fun a => (p a).toNat).sum := by
  induction l with
  | nil => rfl
  | cons a l ih => cases ha : p a <;> simp [ha, ih, Nat.add_comm]

/-- If every step pays for what it costs out of what it brings and out of the potential
of the state, so does every run. -/
theorem Run.amortized {es : List ε} {s : σ} (h : Run step init es s) (pot : σ → ℕ)
    (cost gain : ε → ℕ)
    (hstep : ∀ {es s e s'}, Run step init es s → step s e s' → pot s' + cost e ≤ pot s + gain e) :
    pot s + (es.map cost).sum ≤ pot init + (es.map gain).sum := by
  induction h with
  | nil => simp
  | cons h hmove ih =>
      have hpays := hstep h hmove
      simp only [List.map_cons, List.sum_cons]
      omega

end Lib.History
