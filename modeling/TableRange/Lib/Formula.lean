import Mathlib.Data.Set.Basic
import Mathlib.Logic.Function.Basic
import Mathlib.Tactic.Common

/-!
# Refuting a formula over a product of sets

A formula is built from leaves by conjunctions and disjunctions, and each leaf looks at
one variable.  A variable ranges over a set of its own, and the leaves are known that no
value of their variable satisfies.  `Refuted` composes these: one operand of a
conjunction, all operands of a disjunction.

That is always sound.  It is complete when the operands of a conjunction look at
different variables (`Splits`), because witnesses for the operands then combine into one
assignment; `refuted_iff` puts the two together.
-/

namespace Lib

variable {L V A : Type}

inductive Formula (L : Type)
  | leaf (l : L)
  | and (fs : List (Formula L))
  | or (fs : List (Formula L))

namespace Formula

/-- The leaf occurs in the formula. -/
inductive Mem (l : L) : Formula L → Prop
  | leaf : Mem l (.leaf l)
  | and {f : Formula L} {fs : List (Formula L)} (hf : f ∈ fs) (h : Mem l f) : Mem l (.and fs)
  | or {f : Formula L} {fs : List (Formula L)} (hf : f ∈ fs) (h : Mem l f) : Mem l (.or fs)

@[simp] theorem mem_leaf {l l' : L} : Mem l (.leaf l') ↔ l = l' := by
  constructor
  · intro h
    cases h
    rfl
  · rintro rfl
    exact .leaf

@[simp] theorem mem_and {l : L} {fs : List (Formula L)} : Mem l (.and fs) ↔ ∃ f ∈ fs, Mem l f := by
  constructor
  · intro h
    cases h with
    | and hf h => exact ⟨_, hf, h⟩
  · rintro ⟨f, hf, h⟩
    exact .and hf h

@[simp] theorem mem_or {l : L} {fs : List (Formula L)} : Mem l (.or fs) ↔ ∃ f ∈ fs, Mem l f := by
  constructor
  · intro h
    cases h with
    | or hf h => exact ⟨_, hf, h⟩
  · rintro ⟨f, hf, h⟩
    exact .or hf h

/-- At most `n` connectives are nested. -/
inductive DepthLe : ℕ → Formula L → Prop
  | leaf (n : ℕ) (l : L) : DepthLe n (.leaf l)
  | and {n : ℕ} {fs : List (Formula L)} (h : ∀ f ∈ fs, DepthLe n f) : DepthLe (n + 1) (.and fs)
  | or {n : ℕ} {fs : List (Formula L)} (h : ∀ f ∈ fs, DepthLe n f) : DepthLe (n + 1) (.or fs)

section Semantics

variable (var : L → V) (holds : L → A → Prop)

inductive Sat (ρ : V → A) : Formula L → Prop
  | leaf {l : L} (h : holds l (ρ (var l))) : Sat ρ (.leaf l)
  | and {fs : List (Formula L)} (h : ∀ f ∈ fs, Sat ρ f) : Sat ρ (.and fs)
  | or {f : Formula L} {fs : List (Formula L)} (hf : f ∈ fs) (h : Sat ρ f) : Sat ρ (.or fs)

/-- The formula looks at the variable. -/
def Looks (f : Formula L) (v : V) : Prop := ∃ l, Mem l f ∧ var l = v

/-- The operands of a conjunction look at different variables, and a disjunction has
operands. -/
inductive Splits : Formula L → Prop
  | leaf (l : L) : Splits (.leaf l)
  | and {fs : List (Formula L)} (h : ∀ f ∈ fs, Splits f)
      (hdisjoint : fs.Pairwise fun f f' => ∀ v, Looks var f v → ¬Looks var f' v) :
      Splits (.and fs)
  | or {fs : List (Formula L)} (hne : fs ≠ []) (h : ∀ f ∈ fs, Splits f) : Splits (.or fs)

/-- The leaves in `never` are known to be false. -/
inductive Refuted (never : L → Prop) : Formula L → Prop
  | leaf {l : L} (h : never l) : Refuted never (.leaf l)
  | and {f : Formula L} {fs : List (Formula L)} (hf : f ∈ fs) (h : Refuted never f) :
      Refuted never (.and fs)
  | or {fs : List (Formula L)} (hne : fs ≠ []) (h : ∀ f ∈ fs, Refuted never f) :
      Refuted never (.or fs)

variable {var holds}

@[simp] theorem sat_leaf {ρ : V → A} {l : L} : Sat var holds ρ (.leaf l) ↔ holds l (ρ (var l)) := by
  constructor
  · intro h
    cases h with
    | leaf h => exact h
  · exact .leaf

@[simp] theorem sat_and {ρ : V → A} {fs : List (Formula L)} :
    Sat var holds ρ (.and fs) ↔ ∀ f ∈ fs, Sat var holds ρ f := by
  constructor
  · intro h
    cases h with
    | and h => exact h
  · exact .and

@[simp] theorem sat_or {ρ : V → A} {fs : List (Formula L)} :
    Sat var holds ρ (.or fs) ↔ ∃ f ∈ fs, Sat var holds ρ f := by
  constructor
  · intro h
    cases h with
    | or hf h => exact ⟨_, hf, h⟩
  · rintro ⟨f, hf, h⟩
    exact .or hf h

@[simp] theorem refuted_leaf {never : L → Prop} {l : L} : Refuted never (.leaf l) ↔ never l := by
  constructor
  · intro h
    cases h with
    | leaf h => exact h
  · exact .leaf

@[simp] theorem refuted_and {never : L → Prop} {fs : List (Formula L)} :
    Refuted never (.and fs) ↔ ∃ f ∈ fs, Refuted never f := by
  constructor
  · intro h
    cases h with
    | and hf h => exact ⟨_, hf, h⟩
  · rintro ⟨f, hf, h⟩
    exact .and hf h

@[simp] theorem refuted_or {never : L → Prop} {fs : List (Formula L)} :
    Refuted never (.or fs) ↔ fs ≠ [] ∧ ∀ f ∈ fs, Refuted never f := by
  constructor
  · intro h
    cases h with
    | or hne h => exact ⟨hne, h⟩
  · rintro ⟨hne, h⟩
    exact .or hne h

/-- Only the variables that a formula looks at matter. -/
theorem Sat.congr {ρ ρ' : V → A} {f : Formula L} (h : Sat var holds ρ f)
    (hsame : ∀ v, Looks var f v → ρ v = ρ' v) : Sat var holds ρ' f := by
  induction h with
  | leaf h => exact .leaf (hsame _ ⟨_, .leaf, rfl⟩ ▸ h)
  | and h ih =>
      refine .and fun f hf => ih f hf fun v hv => hsame v ?_
      obtain ⟨l, hl, rfl⟩ := hv
      exact ⟨l, .and hf hl, rfl⟩
  | or hf h ih =>
      refine .or hf (ih fun v hv => hsame v ?_)
      obtain ⟨l, hl, rfl⟩ := hv
      exact ⟨l, .or hf hl, rfl⟩

theorem Refuted.not_sat {never : L → Prop} {f : Formula L} (h : Refuted never f) {ρ : V → A}
    (hnever : ∀ l, Mem l f → never l → ¬holds l (ρ (var l))) : ¬Sat var holds ρ f := by
  induction h with
  | leaf h =>
      rw [sat_leaf]
      exact hnever _ .leaf h
  | and hf h ih =>
      rw [sat_and]
      exact fun hall => ih (fun l hl => hnever l (.and hf hl)) (hall _ hf)
  | or hne h ih =>
      rw [sat_or]
      rintro ⟨f, hf, hsat⟩
      exact ih f hf (fun l hl => hnever l (.or hf hl)) hsat

/-- Some leaf is known to be false. -/
theorem Refuted.exists_leaf {never : L → Prop} {f : Formula L} (h : Refuted never f) :
    ∃ l, Mem l f ∧ never l := by
  induction h with
  | leaf h => exact ⟨_, .leaf, h⟩
  | and hf h ih =>
      obtain ⟨l, hl, hnever⟩ := ih
      exact ⟨l, .and hf hl, hnever⟩
  | or hne h ih =>
      obtain ⟨f, hf⟩ := List.exists_mem_of_ne_nil _ hne
      obtain ⟨l, hl, hnever⟩ := ih f hf
      exact ⟨l, .or hf hl, hnever⟩

variable {box : V → Set A}

/-- Witnesses for operands that look at different variables combine. -/
theorem exists_sat_all (hbox : ∃ ρ : V → A, ∀ v, ρ v ∈ box v) {fs : List (Formula L)}
    (hdisjoint : fs.Pairwise fun f f' => ∀ v, Looks var f v → ¬Looks var f' v)
    (h : ∀ f ∈ fs, ∃ ρ : V → A, (∀ v, ρ v ∈ box v) ∧ Sat var holds ρ f) :
    ∃ ρ : V → A, (∀ v, ρ v ∈ box v) ∧ ∀ f ∈ fs, Sat var holds ρ f := by
  classical
  induction fs with
  | nil =>
      obtain ⟨ρ, hρ⟩ := hbox
      exact ⟨ρ, hρ, by simp⟩
  | cons f fs ih =>
      obtain ⟨hfirst, hrest⟩ := List.pairwise_cons.mp hdisjoint
      obtain ⟨ρ, hρ, hf⟩ := h f List.mem_cons_self
      obtain ⟨ρ', hρ', hfs⟩ := ih hrest fun f' hf' => h f' (List.mem_cons_of_mem f hf')
      refine ⟨fun v => if Looks var f v then ρ v else ρ' v, fun v => ?_, fun f' hf' => ?_⟩
      · show (if Looks var f v then ρ v else ρ' v) ∈ box v
        split
        · exact hρ v
        · exact hρ' v
      · rcases List.mem_cons.mp hf' with rfl | hf'
        · exact hf.congr fun v hv => (if_pos hv).symm
        · exact (hfs f' hf').congr fun v hv => (if_neg fun hv' => hfirst f' hf' v hv' hv).symm

/-- What is not refuted is satisfied somewhere in the product. -/
theorem Splits.exists_sat (hbox : ∃ ρ : V → A, ∀ v, ρ v ∈ box v) {never : L → Prop}
    {f : Formula L} (hsplits : Splits var f)
    (hleaf : ∀ l, Mem l f → ¬never l → ∃ a ∈ box (var l), holds l a)
    (h : ¬Refuted never f) : ∃ ρ : V → A, (∀ v, ρ v ∈ box v) ∧ Sat var holds ρ f := by
  classical
  induction hsplits with
  | leaf l =>
      obtain ⟨a, ha, hholds⟩ := hleaf l .leaf fun hl => h (.leaf hl)
      obtain ⟨ρ, hρ⟩ := hbox
      refine ⟨Function.update ρ (var l) a, fun v => ?_, .leaf ?_⟩
      · by_cases hv : v = var l
        · rw [hv, Function.update_self]
          exact ha
        · rw [Function.update_of_ne hv]
          exact hρ v
      · rw [Function.update_self]
        exact hholds
  | and hsplits hdisjoint ih =>
      obtain ⟨ρ, hρ, hall⟩ := exists_sat_all hbox hdisjoint fun f hf =>
        ih f hf (fun l hl => hleaf l (.and hf hl)) fun hrefuted => h (.and hf hrefuted)
      exact ⟨ρ, hρ, .and hall⟩
  | or hne hsplits ih =>
      obtain ⟨f, hf, hnot⟩ : ∃ f ∈ _, ¬Refuted never f := by
        by_contra hno
        push Not at hno
        exact h (.or hne hno)
      obtain ⟨ρ, hρ, hsat⟩ := ih f hf (fun l hl => hleaf l (.or hf hl)) hnot
      exact ⟨ρ, hρ, .or hf hsat⟩

/-- If the leaves are decided exactly, so is a formula whose conjunctions split. -/
theorem refuted_iff (hbox : ∃ ρ : V → A, ∀ v, ρ v ∈ box v) {never : L → Prop} {f : Formula L}
    (hsplits : Splits var f)
    (hleaf : ∀ l, Mem l f → (never l ↔ ∀ a ∈ box (var l), ¬holds l a)) :
    Refuted never f ↔ ∀ ρ : V → A, (∀ v, ρ v ∈ box v) → ¬Sat var holds ρ f := by
  constructor
  · intro h ρ hρ
    exact h.not_sat fun l hl hnever => (hleaf l hl).mp hnever _ (hρ (var l))
  · intro h
    by_contra hnot
    obtain ⟨ρ, hρ, hsat⟩ := hsplits.exists_sat hbox (fun l hl hnever => by
      by_contra hno
      push Not at hno
      exact hnever ((hleaf l hl).mpr hno)) hnot
    exact h ρ hρ hsat

/-- A formula without conjunctions, whose disjunctions have operands. -/
inductive Disjunctive : Formula L → Prop
  | leaf (l : L) : Disjunctive (.leaf l)
  | or {fs : List (Formula L)} (hne : fs ≠ []) (h : ∀ f ∈ fs, Disjunctive f) : Disjunctive (.or fs)

/-- Without conjunctions nothing has to be combined: if the leaves are decided exactly on
some assignments, so is the formula. -/
theorem Disjunctive.refuted_iff {never : L → Prop} {f : Formula L} (hdisj : Disjunctive f)
    {ρs : Set (V → A)} (hleaf : ∀ l, Mem l f → (never l ↔ ∀ ρ ∈ ρs, ¬holds l (ρ (var l)))) :
    Refuted never f ↔ ∀ ρ ∈ ρs, ¬Sat var holds ρ f := by
  induction hdisj with
  | leaf l => simpa using hleaf l .leaf
  | or hne _ ih =>
      have hfs := fun f hf => ih f hf fun l hl => hleaf l (.or hf hl)
      simp only [refuted_or, sat_or]
      constructor
      · rintro ⟨-, hall⟩ ρ hρ ⟨f, hf, hsat⟩
        exact (hfs f hf).mp (hall f hf) ρ hρ hsat
      · intro hnone
        exact ⟨hne, fun f hf => (hfs f hf).mpr fun ρ hρ hsat => hnone ρ hρ ⟨f, hf, hsat⟩⟩

end Semantics

end Formula

end Lib
