import TableRange.Coverage.History

/-!
# The entry that is consulted

Both the insert and the planner find the entry of a heap column by its attribute
number, and take the first one.  `Maintained.firstEntry_rule` is the induction
rule for that entry: whatever a build establishes, a fold of a row's value keeps
and a drop of the bounds keeps holds of it after every history, also when the
index lists the heap column more than once.
-/

namespace TableRange

open Lib.Fallible

variable {D : Type} {pg : Pg D}

/-- The entry that the planner consults about an attribute. -/
def firstEntry (cols : List ColSummary) (attnum : Int16) : Option ColSummary :=
  cols.find? fun c => c.attnum == attnum

theorem widenFirst_firstEntry {attnum n : Int16} {f : ColSummary → PgResult (ColSummary × Bool)}
    (hf : ∀ c c' changed, f c = .ok (c', changed) → SameColumn c c') {cols cols' : List ColSummary}
    {changed : Bool} (h : widenFirst attnum f cols = .ok (cols', changed)) {c' : ColSummary}
    (hc' : firstEntry cols' n = some c') :
    ∃ c, firstEntry cols n = some c ∧ if attnum = n then f c = .ok (c', changed) else c' = c := by
  induction cols generalizing cols' with
  | nil =>
      cases h
      cases hc'
  | cons d cols ih =>
      rw [widenFirst] at h
      split at h
      · rename_i hd
        obtain ⟨⟨d', _⟩, hd', h⟩ := bind_eq_ok.mp h
        cases h
        have hsame := (hf _ _ _ hd').attnum
        by_cases hn : attnum = n
        · simp only [firstEntry, List.find?_cons, hsame, hd, hn, beq_self_eq_true] at hc' ⊢
          cases hc'
          exact ⟨d, rfl, by simpa [hn] using hd'⟩
        · have hne : (attnum == n) = false := by simpa using hn
          simp only [firstEntry, List.find?_cons, hsame, hd, hne] at hc' ⊢
          exact ⟨c', hc', by simp [hn]⟩
      · rename_i hd
        obtain ⟨⟨rest, _⟩, hrest, h⟩ := bind_eq_ok.mp h
        cases h
        by_cases hn : d.attnum = n
        · have hne : attnum ≠ n := fun he => hd (hn.trans he.symm)
          simp only [firstEntry, List.find?_cons, hn, beq_self_eq_true] at hc' ⊢
          cases hc'
          exact ⟨_, rfl, by simp [hne]⟩
        · have hne : (d.attnum == n) = false := by simpa using hn
          simp only [firstEntry, List.find?_cons, hne] at hc' ⊢
          exact ih hrest hc'

/-- Every position of the attribute folds the row's value into its first
entry. -/
theorem widenSummaryFrom_firstEntry {g : Guc} {row : Row D} {tuple : Nat → Option D} {n : Int16}
    (hn : 0 < n) {P Q : ColSummary → Prop} {pos : Nat} {todo : List (IndexAttr D)}
    (step : ∀ a ∈ todo, a.attnum = n → ∀ c c' changed, P c ∨ Q c →
      widenColumn pg g c a.typ a.collation (row n) = .ok (c', changed) → Q c')
    {cols cols' : List ColSummary} {changed : Bool}
    (htuple : ∀ i a, todo[i]? = some a → tuple (pos + i) = a.value row)
    (h : widenSummaryFrom pg g tuple pos todo cols = .ok (cols', changed))
    (hcols : ∀ c, firstEntry cols n = some c →
      if n ∈ todo.map IndexAttr.attnum then P c ∨ Q c else Q c)
    {c' : ColSummary} (hc' : firstEntry cols' n = some c') : Q c' := by
  induction todo generalizing pos cols cols' changed with
  | nil =>
      cases h
      simpa using hcols c' hc'
  | cons a todo ih =>
      obtain ⟨⟨cols₁, ch⟩, hfirst, h⟩ := bind_eq_ok.mp h
      obtain ⟨⟨cols₂, _⟩, hrest, h⟩ := bind_eq_ok.mp h
      cases h
      have htuple' : ∀ i b, todo[i]? = some b → tuple (pos + 1 + i) = b.value row := by
        intro i b hb
        rw [Nat.add_assoc, Nat.add_comm 1 i]
        exact htuple (i + 1) b (by simpa using hb)
      refine ih (fun b hb => step b (List.mem_cons_of_mem a hb)) htuple' hrest
        (fun c₁ hc₁ => ?_) hc'
      obtain ⟨c, hc, hwiden⟩ := widenFirst_firstEntry (fun _ _ _ hc => widenColumn_sameColumn hc)
        hfirst hc₁
      have hold := hcols c hc
      by_cases ha : a.attnum = n
      · rw [if_pos (by simp [ha])] at hold
        rw [if_pos ha, show pos = pos + 0 from rfl, htuple 0 a rfl, a.value_of_pos (ha ▸ hn),
          ha] at hwiden
        have hq : Q c₁ := step a List.mem_cons_self ha c c₁ ch hold hwiden
        split
        · exact Or.inr hq
        · exact hq
      · rw [if_neg ha] at hwiden
        have hmem : n ∈ (a :: todo).map IndexAttr.attnum ↔ n ∈ todo.map IndexAttr.attnum := by
          simp [Ne.symm ha]
        simpa only [hwiden, hmem] using hold

/-- The entries are those of the heap columns, in order. -/
theorem Maintained.attnums {attrs : List (IndexAttr D)} {s : IndexSummary} {rows : List (Row D)}
    (h : Maintained pg attrs s rows) :
    s.cols.map ColSummary.attnum = (summarized attrs).map IndexAttr.attnum := by
  induction h with
  | build h =>
      have hcols := buildLeafSummary_forall₂ (R := Counted pg attrs)
        (Q := fun a _ c => a.attnum = c.attnum) (fun _ _ hplan hfresh => hfresh.counted hplan)
        (fun _ _ _ _ _ _ hcount hstep => buildColumn_counted hcount hstep)
        (fun _ _ _ _ _ _ hcount hout =>
          hcount.planned.attnum.symm.trans (finishColumn_counts hout).1.symm) h
      exact (Lib.Aligned.forall₂_map_eq (fun _ _ hac => hac) hcols).symm
  | insert _ h ih =>
      obtain ⟨⟨cols, _⟩, hcols, h⟩ := bind_eq_ok.mp (widenStable_eq_ok h)
      cases h
      exact (SameColumn.attnums (widenSummaryFrom_sameColumn hcols)).trans ih
  | fit _ ih =>
      refine Eq.trans (Eq.symm ?_) ih
      refine Lib.Aligned.forall₂_map_eq (fun c c' hdrop => ?_) (encodeFitting_dropped _)
      rcases hdrop with rfl | ⟨-, rfl⟩ <;> rfl

/-- The induction rule for the first entry of an attribute. -/
theorem Maintained.firstEntry_rule {attrs : List (IndexAttr D)} {n : Int16} (hn : 0 < n)
    {P : List (Row D) → ColSummary → Prop}
    (build : ∀ session rows s, buildLeafSummary pg session attrs rows = .ok s →
      ∀ c ∈ s.cols, c.attnum = n → P rows c)
    (insert : ∀ rows row g a c c' changed, a ∈ attrs → a.attnum = n → g.Stable →
      P rows c ∨ P (row :: rows) c →
      widenColumn pg g c a.typ a.collation (row n) = .ok (c', changed) → P (row :: rows) c')
    (fit : ∀ rows c, P rows c → P rows c.makeUnbounded)
    {s : IndexSummary} {rows : List (Row D)} (h : Maintained pg attrs s rows) {c : ColSummary}
    (hc : firstEntry s.cols n = some c) : P rows c := by
  have hattnum : ∀ {cols : List ColSummary} {c : ColSummary}, firstEntry cols n = some c →
      c ∈ cols ∧ c.attnum = n := fun hc =>
    ⟨List.mem_of_find?_eq_some hc, by simpa using List.find?_some hc⟩
  induction h generalizing c with
  | build h => exact build _ _ _ h c (hattnum hc).1 (hattnum hc).2
  | @insert session rows row s s' changed hs h ih =>
      have hs' : Maintained pg attrs s' (row :: rows) := .insert hs h
      have hmem : n ∈ attrs.map IndexAttr.attnum := by
        have hmap : n ∈ s'.cols.map ColSummary.attnum :=
          List.mem_map.mpr ⟨c, (hattnum hc).1, (hattnum hc).2⟩
        rw [hs'.attnums] at hmap
        obtain ⟨a, ha, han⟩ := List.mem_map.mp hmap
        exact List.mem_map.mpr ⟨a, (mem_summarized.mp ha).1, han⟩
      obtain ⟨⟨cols, _⟩, hcols, h⟩ := bind_eq_ok.mp (widenStable_eq_ok h)
      cases h
      refine widenSummaryFrom_firstEntry hn (P := P rows) (fun a ha han c c' changed hold hwiden =>
        insert rows row _ a c c' changed ha han session.guc.pin_stable hold hwiden)
        (fun i a ha => indexTuple_eq (by simpa using ha) row) hcols (fun d hd => ?_) hc
      rw [if_pos hmem]
      exact Or.inl (ih hd)
  | @fit rows s hs ih =>
      obtain ⟨d, hd, hdrop⟩ := Lib.Aligned.forall₂_find? (fun d d' hdrop => by
        rcases hdrop with rfl | ⟨-, rfl⟩ <;> rfl) (encodeFitting_dropped s) hc
      rcases hdrop with rfl | ⟨-, rfl⟩
      · exact ih hd
      · exact fit _ _ (ih hd)

end TableRange
