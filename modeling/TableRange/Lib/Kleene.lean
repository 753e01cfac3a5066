import Mathlib.Tactic.Common

/-!
# Three-valued connectives

The strong Kleene connectives over lists of operands, with `none` for
"unknown".  A conjunction is true only when every operand is, and a disjunction
only when some operand is; these two facts are what a decision procedure for
"never true" composes.
-/

namespace Lib.Kleene

abbrev Truth := Option Bool

def neg : Truth → Truth := Option.map not

/-- False as soon as one operand is false, true when all are true. -/
def conj (xs : List Truth) : Truth :=
  if some false ∈ xs then some false
  else if none ∈ xs then none
  else some true

/-- True as soon as one operand is true, false when all are false. -/
def disj (xs : List Truth) : Truth :=
  if some true ∈ xs then some true
  else if none ∈ xs then none
  else some false

theorem conj_eq_true {xs : List Truth} : conj xs = some true ↔ ∀ x ∈ xs, x = some true := by
  unfold conj
  split
  · rename_i hf
    exact ⟨fun h => by simp at h, fun h => by simpa using h _ hf⟩
  · rename_i hf
    split
    · rename_i hn
      exact ⟨fun h => by simp at h, fun h => by simpa using h _ hn⟩
    · rename_i hn
      refine ⟨fun _ x hx => ?_, fun _ => rfl⟩
      rcases x with _ | _ | _
      · exact absurd hx hn
      · exact absurd hx hf
      · rfl

theorem disj_eq_true {xs : List Truth} : disj xs = some true ↔ some true ∈ xs := by
  unfold disj
  split
  · rename_i ht
    exact ⟨fun _ => ht, fun _ => rfl⟩
  · rename_i ht
    split <;> exact ⟨fun h => by simp at h, fun h => absurd h ht⟩

end Lib.Kleene
