import Mathlib.Data.List.Forall2

/-!
# Lists that correspond position by position

Rules for `List.Forall₂` that follow one list through a sequence of updates
while another list stays what it was.
-/

namespace Lib.Aligned

variable {α β γ : Type}

/-- Two correspondences in a row. -/
theorem forall₂_comp {R : α → β → Prop} {Q : β → γ → Prop} {P : α → γ → Prop}
    (hcomp : ∀ a b c, R a b → Q b c → P a c) :
    ∀ {as : List α} {bs : List β} {cs : List γ},
      List.Forall₂ R as bs → List.Forall₂ Q bs cs → List.Forall₂ P as cs
  | _, _, _, .nil, .nil => .nil
  | _, _, _, .cons hab habs, .cons hbc hbcs =>
      .cons (hcomp _ _ _ hab hbc) (forall₂_comp hcomp habs hbcs)

/-- Two correspondences side by side. -/
theorem forall₂_and {R Q : α → β → Prop} :
    ∀ {as : List α} {bs : List β}, List.Forall₂ R as bs → List.Forall₂ Q as bs →
      List.Forall₂ (fun a b => R a b ∧ Q a b) as bs
  | _, _, .nil, .nil => .nil
  | _, _, .cons hR hRs, .cons hQ hQs => .cons ⟨hR, hQ⟩ (forall₂_and hRs hQs)

/-- Any number of correspondences side by side. -/
theorem forall₂_forall {ι : Type} {R : α → β → Prop} {P : ι → α → β → Prop} {as : List α}
    {bs : List β} (hR : List.Forall₂ R as bs) (hP : ∀ i, List.Forall₂ (P i) as bs) :
    List.Forall₂ (fun a b => R a b ∧ ∀ i, P i a b) as bs := by
  induction hR with
  | nil => exact .nil
  | cons hab _ ih =>
      exact .cons ⟨hab, fun i => (List.forall₂_cons.mp (hP i)).1⟩
        (ih fun i => (List.forall₂_cons.mp (hP i)).2)

/-- A list that corresponds to the pairs of two others corresponds to each of the
two. -/
theorem forall₂_zip {R : α → β → Prop} {P : α × β → γ → Prop} {as : List α} {bs : List β}
    {cs : List γ} (hR : List.Forall₂ R as bs) (hP : List.Forall₂ P (as.zip bs) cs) :
    List.Forall₂ (fun a c => ∃ b, R a b ∧ P (a, b) c) as cs ∧
      List.Forall₂ (fun b c => ∃ a, R a b ∧ P (a, b) c) bs cs := by
  induction hR generalizing cs with
  | nil =>
      cases hP
      exact ⟨.nil, .nil⟩
  | cons hab _ ih =>
      cases hP with
      | cons hc hcs =>
          obtain ⟨has, hbs⟩ := ih hcs
          exact ⟨.cons ⟨_, hab, hc⟩ has, .cons ⟨_, hab, hc⟩ hbs⟩

/-- Every element of the second list has a partner in the first. -/
theorem forall₂_mem_right {R : α → β → Prop} {as : List α} {bs : List β}
    (h : List.Forall₂ R as bs) : ∀ b ∈ bs, ∃ a ∈ as, R a b := by
  induction h with
  | nil => simp
  | cons hab _ ih =>
      intro b hb
      rcases List.mem_cons.mp hb with rfl | hb
      · exact ⟨_, List.mem_cons_self, hab⟩
      · obtain ⟨a, ha, hR⟩ := ih b hb
        exact ⟨a, List.mem_cons_of_mem _ ha, hR⟩

/-- Every element of the first list has a partner in the second. -/
theorem forall₂_mem_left {R : α → β → Prop} {as : List α} {bs : List β}
    (h : List.Forall₂ R as bs) : ∀ a ∈ as, ∃ b ∈ bs, R a b := by
  intro a ha
  obtain ⟨b, hb, hR⟩ := forall₂_mem_right h.flip a ha
  exact ⟨b, hb, hR⟩

/-- A correspondence may be weakened with the help of the two memberships. -/
theorem forall₂_imp_mem {R Q : α → β → Prop} {as : List α} {bs : List β}
    (h : List.Forall₂ R as bs) (himp : ∀ a b, a ∈ as → b ∈ bs → R a b → Q a b) :
    List.Forall₂ Q as bs := by
  induction h with
  | nil => exact .nil
  | cons hab _ ih =>
      exact .cons (himp _ _ List.mem_cons_self List.mem_cons_self hab)
        (ih fun a b ha hb => himp a b (List.mem_cons_of_mem _ ha) (List.mem_cons_of_mem _ hb))

/-- A search in the two lists ends at the same position. -/
theorem forall₂_find? {R : α → β → Prop} {p : α → Bool} {q : β → Bool}
    (hpq : ∀ a b, R a b → p a = q b) {as : List α} {bs : List β} (h : List.Forall₂ R as bs) {b : β}
    (hb : bs.find? q = some b) : ∃ a, as.find? p = some a ∧ R a b := by
  induction h with
  | nil => cases hb
  | @cons a b' as bs hab _ ih =>
      rw [List.find?_cons] at hb ⊢
      rw [hpq a b' hab]
      split at hb
      · cases hb
        exact ⟨a, rfl, hab⟩
      · exact ih hb

/-- What corresponding elements have in common, the two lists have. -/
theorem forall₂_map_eq {R : α → β → Prop} {f : α → γ} {g : β → γ} (hR : ∀ a b, R a b → f a = g b)
    {as : List α} {bs : List β} (h : List.Forall₂ R as bs) : as.map f = bs.map g := by
  induction h with
  | nil => rfl
  | cons hab _ ih => rw [List.map_cons, List.map_cons, hR _ _ hab, ih]

/-- Lists in correspondence have a partner at every position. -/
theorem forall₂_getElem? {R : α → β → Prop} {as : List α} {bs : List β} (h : List.Forall₂ R as bs)
    {i : Nat} {a : α} (ha : as[i]? = some a) : ∃ b, bs[i]? = some b ∧ R a b := by
  induction h generalizing i with
  | nil => simp at ha
  | cons hab _ ih =>
      cases i with
      | zero =>
          obtain rfl : _ = a := by simpa using ha
          exact ⟨_, rfl, hab⟩
      | succ i => exact ih (by simpa using ha)

end Lib.Aligned
