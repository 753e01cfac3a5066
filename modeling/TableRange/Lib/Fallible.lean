import Mathlib.Data.List.Forall2

/-!
# Sequences of calls that may fail

Inversion rules for programs in `Except ε`: what is known once such a program
has returned normally.  `bind_eq_ok` takes a sequence apart, `forall₂_of_mapM`
does so for a call on each element of a list, and `foldlM_run` is the induction
rule for a loop: an invariant of the state and of the items done so far that
every turn keeps holds when the loop ends.
-/

namespace Lib.Fallible

variable {ε α β σ : Type}

/-- A sequence of calls returns only when each of them does. -/
theorem bind_eq_ok {x : Except ε α} {f : α → Except ε β} {b : β} :
    x >>= f = .ok b ↔ ∃ a, x = .ok a ∧ f a = .ok b := by
  cases x with
  | error e =>
      constructor
      · intro h
        cases h
      · rintro ⟨_, h, _⟩
        cases h
  | ok a =>
      constructor
      · intro h
        exact ⟨a, rfl, h⟩
      · rintro ⟨_, h, hf⟩
        cases h
        exact hf

/-- A call on each element returns only when every call does. -/
theorem forall₂_of_mapM {f : α → Except ε β} {xs : List α} {ys : List β}
    (h : xs.mapM f = .ok ys) : List.Forall₂ (fun x y => f x = .ok y) xs ys := by
  induction xs generalizing ys with
  | nil =>
      cases h
      exact .nil
  | cons x xs ih =>
      rw [List.mapM_cons] at h
      obtain ⟨y, hy, h⟩ := bind_eq_ok.mp h
      obtain ⟨rest, hrest, h⟩ := bind_eq_ok.mp h
      cases h
      exact .cons hy (ih hrest)

/-- If no call fails, neither does the whole. -/
theorem exists_mapM {f : α → Except ε β} {xs : List α} (h : ∀ x ∈ xs, ∃ y, f x = .ok y) :
    ∃ ys, xs.mapM f = .ok ys := by
  induction xs with
  | nil => exact ⟨[], rfl⟩
  | cons x xs ih =>
      obtain ⟨y, hy⟩ := h x List.mem_cons_self
      obtain ⟨ys, hys⟩ := ih fun x' hx' => h x' (List.mem_cons_of_mem x hx')
      exact ⟨y :: ys, by rw [List.mapM_cons, hy, hys]; rfl⟩

/-- The loop rule: `P done s` is kept by every turn that returns. -/
theorem foldlM_run {P : List α → σ → Prop} {f : σ → α → Except ε σ}
    (step : ∀ done x s s', P done s → f s x = .ok s' → P (done ++ [x]) s')
    (done : List α) {xs : List α} {s s' : σ} (h₀ : P done s) (h : xs.foldlM f s = .ok s') :
    P (done ++ xs) s' := by
  induction xs generalizing done s with
  | nil =>
      cases h
      simpa using h₀
  | cons x xs ih =>
      rw [List.foldlM_cons] at h
      obtain ⟨s₁, hs₁, h⟩ := bind_eq_ok.mp h
      simpa using ih (done ++ [x]) (step done x s s₁ h₀ hs₁) h

/-- A search that has found nothing has looked at every element. -/
theorem anyM_eq_false {f : α → Except ε Bool} {xs : List α} (h : xs.anyM f = .ok false) :
    ∀ x ∈ xs, f x = .ok false := by
  induction xs with
  | nil => exact nofun
  | cons x xs ih =>
      rw [List.anyM] at h
      obtain ⟨b, hb, h⟩ := bind_eq_ok.mp h
      cases b with
      | true => cases h
      | false =>
          intro y hy
          rcases List.mem_cons.mp hy with rfl | hy
          · exact hb
          · exact ih h y hy

/-- A search that succeeds has found an element. -/
theorem anyM_eq_true {f : α → Except ε Bool} {xs : List α} (h : xs.anyM f = .ok true) :
    ∃ x ∈ xs, f x = .ok true := by
  induction xs with
  | nil => cases h
  | cons x xs ih =>
      rw [List.anyM] at h
      obtain ⟨b, hb, h⟩ := bind_eq_ok.mp h
      cases b with
      | true => exact ⟨x, List.mem_cons_self, hb⟩
      | false =>
          obtain ⟨y, hy, hfy⟩ := ih h
          exact ⟨y, List.mem_cons_of_mem x hy, hfy⟩

/-- If no test fails, neither does the search. -/
theorem exists_anyM {f : α → Except ε Bool} {xs : List α} (h : ∀ x ∈ xs, ∃ b, f x = .ok b) :
    ∃ b, xs.anyM f = .ok b := by
  induction xs with
  | nil => exact ⟨false, rfl⟩
  | cons x xs ih =>
      obtain ⟨b, hb⟩ := h x List.mem_cons_self
      cases b with
      | true => exact ⟨true, by rw [List.anyM, hb]; rfl⟩
      | false =>
          obtain ⟨r, hr⟩ := ih fun y hy => h y (List.mem_cons_of_mem x hy)
          exact ⟨r, by rw [List.anyM, hb]; exact hr⟩

/-- A search whose tests do not fail finds nothing exactly when no element passes. -/
theorem anyM_eq_false_iff {f : α → Except ε Bool} {xs : List α} (h : ∀ x ∈ xs, ∃ b, f x = .ok b) :
    xs.anyM f = .ok false ↔ ∀ x ∈ xs, f x = .ok false := by
  constructor
  · exact anyM_eq_false
  · intro hnone
    obtain ⟨b, hb⟩ := exists_anyM h
    cases b with
    | false => exact hb
    | true =>
        obtain ⟨x, hx, htrue⟩ := anyM_eq_true hb
        have hfalse := hnone x hx
        rw [htrue] at hfalse
        cases hfalse

end Lib.Fallible
