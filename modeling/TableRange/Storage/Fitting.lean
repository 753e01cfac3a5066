import Mathlib.Logic.Relation
import TableRange.Lib.Aligned
import TableRange.Storage.Page

/-!
# Fitting a summary on the page

`encode_fitting` of `src/index_storage.rs`: while the encoding is longer than
the page allows, the column with the longest bounds loses them.  The loop is
`encodeFitting`, and it ends because every turn leaves one column fewer with
bounds of positive length.

`DroppedTo` is what the turns do to one column, and `encodeFitting_dropped` says
that this is all they do.  `writeSummary` and `readSummary` close the module:
the page reads back as the summary that was written.
-/

namespace TableRange

open Lib.Aligned

/-- The bytes of the two bounds together. -/
def ColSummary.boundLen (c : ColSummary) : Nat := optLen c.min + optLen c.max

/-- `iter_mut().filter(|c| bound_len(c) > 0).max_by_key(|c| bound_len(c))`: the
position and the length of the longest bounds.  `max_by_key` returns the last
of several maxima. -/
def largestBounds : List ColSummary → Option (Nat × Nat)
  | [] => none
  | c :: cs =>
      match largestBounds cs with
      | some (j, len) => if len < c.boundLen then some (0, c.boundLen) else some (j + 1, len)
      | none => if 0 < c.boundLen then some (0, c.boundLen) else none

/-- How many columns have bounds of positive length. -/
def boundedCols (cols : List ColSummary) : Nat := cols.countP fun c => 0 < c.boundLen

@[simp] theorem ColSummary.boundLen_makeUnbounded (c : ColSummary) :
    c.makeUnbounded.boundLen = 0 := rfl

/-- Without a column to pick, no column has bounds that cost bytes. -/
theorem largestBounds_none {cols : List ColSummary} (h : largestBounds cols = none) :
    ∀ c ∈ cols, c.boundLen = 0 := by
  induction cols with
  | nil => simp
  | cons c cs ih =>
      rw [largestBounds] at h
      split at h
      · split at h <;> cases h
      · rename_i hcs
        split at h
        · cases h
        · intro c' hc'
          rcases List.mem_cons.mp hc' with rfl | hc'
          · omega
          · exact ih hcs c' hc'

theorem largestBounds_eq_none {cols : List ColSummary} (h : ∀ c ∈ cols, c.boundLen = 0) :
    largestBounds cols = none := by
  induction cols with
  | nil => rfl
  | cons c cs ih =>
      have hc : ¬0 < c.boundLen := by simp [h c List.mem_cons_self]
      rw [largestBounds, ih fun d hd => h d (List.mem_cons_of_mem c hd)]
      exact if_neg hc

/-- The column `largestBounds` picks has the longest bounds, and they are not
empty. -/
theorem largestBounds_spec {cols : List ColSummary} {j len : Nat}
    (h : largestBounds cols = some (j, len)) :
    ∃ c, cols[j]? = some c ∧ c.boundLen = len ∧ 0 < len ∧ ∀ c' ∈ cols, c'.boundLen ≤ len := by
  induction cols generalizing j len with
  | nil => cases h
  | cons c cs ih =>
      rw [largestBounds] at h
      split at h
      · rename_i j' len' hcs
        obtain ⟨d, hd, hdlen, hpos, hmax⟩ := ih hcs
        split at h <;> obtain ⟨rfl, rfl⟩ := Prod.mk.inj (Option.some.inj h)
        · refine ⟨c, rfl, rfl, by omega, fun c' hc' => ?_⟩
          rcases List.mem_cons.mp hc' with rfl | hc'
          · exact Nat.le_refl _
          · have := hmax c' hc'
            omega
        · refine ⟨d, hd, hdlen, hpos, fun c' hc' => ?_⟩
          rcases List.mem_cons.mp hc' with rfl | hc'
          · omega
          · exact hmax c' hc'
      · rename_i hcs
        split at h
        · rename_i hpos
          obtain ⟨rfl, rfl⟩ := Prod.mk.inj (Option.some.inj h)
          refine ⟨c, rfl, rfl, hpos, fun c' hc' => ?_⟩
          rcases List.mem_cons.mp hc' with rfl | hc'
          · exact Nat.le_refl _
          · have := largestBounds_none hcs c' hc'
            omega
        · cases h

/-- Dropping the picked bounds leaves one column fewer with bounds. -/
theorem boundedCols_modify_lt {cols : List ColSummary} {j : Nat} {c : ColSummary}
    (hj : cols[j]? = some c) (hpos : 0 < c.boundLen) :
    boundedCols (cols.modify j ColSummary.makeUnbounded) < boundedCols cols := by
  induction cols generalizing j with
  | nil => simp at hj
  | cons d ds ih =>
      cases j with
      | zero =>
          obtain rfl : d = c := by simpa using hj
          simp [boundedCols, hpos]
      | succ j =>
          have hlt := ih (j := j) (by simpa using hj)
          simp only [boundedCols, List.modify_succ_cons, List.countP_cons] at hlt ⊢
          omega

/-- The loop of `encode_fitting`: the summary it leaves behind and the bytes it
returns. -/
def encodeFitting (summary : IndexSummary) : IndexSummary × Bytes :=
  if (serialize summary).length ≤ maxBlobLen then (summary, serialize summary)
  else
    match _h : largestBounds summary.cols with
    | some (j, _) => encodeFitting ⟨summary.cols.modify j ColSummary.makeUnbounded⟩
    -- nothing left to drop: the write reports the size error
    | none => (summary, serialize summary)
termination_by boundedCols summary.cols
decreasing_by
  obtain ⟨c, hc, hlen, hpos, -⟩ := largestBounds_spec _h
  exact boundedCols_modify_lt hc (hlen ▸ hpos)

/-- A summary that fits is written as it is. -/
theorem encodeFitting_of_fits {s : IndexSummary} (h : (serialize s).length ≤ maxBlobLen) :
    encodeFitting s = (s, serialize s) := by
  rw [encodeFitting, if_pos h]

theorem encodeFitting_of_some {s : IndexSummary} {j len : Nat}
    (h : ¬ (serialize s).length ≤ maxBlobLen) (hj : largestBounds s.cols = some (j, len)) :
    encodeFitting s = encodeFitting ⟨s.cols.modify j ColSummary.makeUnbounded⟩ := by
  rw [encodeFitting, if_neg h]
  split
  · rename_i j' len' h'
    obtain ⟨rfl, -⟩ := Prod.mk.inj (Option.some.inj (h'.symm.trans hj))
    rfl
  · rename_i h'
    cases h'.symm.trans hj

theorem encodeFitting_of_none {s : IndexSummary} (h : ¬ (serialize s).length ≤ maxBlobLen)
    (hj : largestBounds s.cols = none) : encodeFitting s = (s, serialize s) := by
  rw [encodeFitting, if_neg h]
  split
  · rename_i h'
    cases h'.symm.trans hj
  · rfl

/-! ## The turns of the loop -/

/-- A turn after which the loop goes on: the encoding does not fit, and the column
with the longest bounds loses them. -/
def FitTurn (s s' : IndexSummary) : Prop :=
  maxBlobLen < (serialize s).length ∧
    ∃ j len, largestBounds s.cols = some (j, len) ∧ s' = ⟨s.cols.modify j ColSummary.makeUnbounded⟩

/-- Every turn leaves one column fewer with bounds, so the loop ends. -/
theorem FitTurn.boundedCols_lt {s s' : IndexSummary} (h : FitTurn s s') :
    boundedCols s'.cols < boundedCols s.cols := by
  obtain ⟨-, j, len, hj, rfl⟩ := h
  obtain ⟨c, hc, hlen, hpos, -⟩ := largestBounds_spec hj
  exact boundedCols_modify_lt hc (hlen ▸ hpos)

/-- What the loop leaves behind is reached in turns. -/
theorem encodeFitting_turns (s : IndexSummary) :
    Relation.ReflTransGen FitTurn s (encodeFitting s).1 := by
  induction s using encodeFitting.induct with
  | case1 s hfits =>
      rw [encodeFitting_of_fits hfits]
  | case2 s hbig j len hj ih =>
      rw [encodeFitting_of_some hbig hj]
      exact ih.head ⟨Nat.lt_of_not_le hbig, j, len, hj, rfl⟩
  | case3 s hbig hj =>
      rw [encodeFitting_of_none hbig hj]

/-- The loop ends when the encoding fits, or when there is nothing left to drop. -/
theorem encodeFitting_done (s : IndexSummary) :
    (serialize (encodeFitting s).1).length ≤ maxBlobLen ∨
      largestBounds (encodeFitting s).1.cols = none := by
  induction s using encodeFitting.induct with
  | case1 s hfits =>
      rw [encodeFitting_of_fits hfits]
      exact Or.inl hfits
  | case2 s hbig j len hj ih =>
      rw [encodeFitting_of_some hbig hj]
      exact ih
  | case3 s hbig hj =>
      rw [encodeFitting_of_none hbig hj]
      exact Or.inr hj

/-- The bytes are those of the summary the loop leaves behind. -/
theorem encodeFitting_bytes (summary : IndexSummary) :
    (encodeFitting summary).2 = serialize (encodeFitting summary).1 := by
  induction summary using encodeFitting.induct with
  | case1 s hfits => rw [encodeFitting_of_fits hfits]
  | case2 s hbig j len hj ih =>
      rw [encodeFitting_of_some hbig hj]
      exact ih
  | case3 s hbig hj => rw [encodeFitting_of_none hbig hj]

/-! ## What the turns do to a column -/

/-- What the turns of the loop do to one column: nothing, or they drop its
bounds once. -/
def DroppedTo (c c' : ColSummary) : Prop :=
  c' = c ∨ (0 < c.boundLen ∧ c' = c.makeUnbounded)

theorem DroppedTo.trans {c c' c'' : ColSummary} (h : DroppedTo c c') (h' : DroppedTo c' c'') :
    DroppedTo c c'' := by
  rcases h with rfl | ⟨hpos, rfl⟩
  · exact h'
  · rcases h' with rfl | ⟨hpos', -⟩
    · exact Or.inr ⟨hpos, rfl⟩
    · exact absurd hpos' (Nat.lt_irrefl 0)

theorem droppedTo_refl (cols : List ColSummary) : List.Forall₂ DroppedTo cols cols :=
  List.forall₂_same.mpr fun _ _ => Or.inl rfl

theorem droppedTo_modify {cols : List ColSummary} {j : Nat} {c : ColSummary}
    (hj : cols[j]? = some c) (hpos : 0 < c.boundLen) :
    List.Forall₂ DroppedTo cols (cols.modify j ColSummary.makeUnbounded) := by
  induction cols generalizing j with
  | nil => simp at hj
  | cons d ds ih =>
      cases j with
      | zero =>
          obtain rfl : d = c := by simpa using hj
          exact .cons (Or.inr ⟨hpos, rfl⟩) (droppedTo_refl ds)
      | succ j => exact .cons (Or.inl rfl) (ih (by simpa using hj))

theorem FitTurn.dropped {s s' : IndexSummary} (h : FitTurn s s') :
    List.Forall₂ DroppedTo s.cols s'.cols := by
  obtain ⟨-, j, len, hj, rfl⟩ := h
  obtain ⟨c, hc, hlen, hpos, -⟩ := largestBounds_spec hj
  exact droppedTo_modify hc (hlen ▸ hpos)

/-- The turns only drop bounds. -/
theorem fitTurns_dropped {s s' : IndexSummary} (h : Relation.ReflTransGen FitTurn s s') :
    List.Forall₂ DroppedTo s.cols s'.cols := by
  induction h with
  | refl => exact droppedTo_refl s.cols
  | tail _ hturn ih => exact forall₂_comp (fun _ _ _ h h' => h.trans h') ih hturn.dropped

theorem encodeFitting_dropped (summary : IndexSummary) :
    List.Forall₂ DroppedTo summary.cols (encodeFitting summary).1.cols :=
  fitTurns_dropped (encodeFitting_turns summary)

/-- The turns drop the longest bounds first: `c` loses its bounds and `d` keeps
them only if those of `d` are no longer. -/
theorem fitTurns_largest {s s' : IndexSummary} (h : Relation.ReflTransGen FitTurn s s') {i j : Nat}
    {c d : ColSummary} (hc : s.cols[i]? = some c) (hc' : s'.cols[i]? ≠ some c)
    (hd : s.cols[j]? = some d) (hd' : s'.cols[j]? = some d) : d.boundLen ≤ c.boundLen := by
  induction h using Relation.ReflTransGen.head_induction_on with
  | refl => exact absurd hc hc'
  | head hturn hrest ih =>
      obtain ⟨-, k, len, hk, rfl⟩ := hturn
      obtain ⟨e, he, hlen, hpos, hmax⟩ := largestBounds_spec hk
      by_cases hik : k = i
      · -- `c` goes in this turn
        subst hik
        obtain rfl : e = c := Option.some.inj (he.symm.trans hc)
        rw [hlen]
        exact hmax d (List.mem_of_getElem? hd)
      · by_cases hjk : k = j
        · -- `d` would have gone in this turn
          subst hjk
          obtain ⟨d', hd'', hdrop⟩ := forall₂_getElem? (fitTurns_dropped hrest)
            (by rw [List.getElem?_modify_eq, hd]; rfl)
          obtain rfl : d' = d := Option.some.inj (hd''.symm.trans hd')
          rcases hdrop with hdrop | ⟨hpos', -⟩
          · rw [hdrop]
            exact Nat.zero_le _
          · exact absurd hpos' (Nat.lt_irrefl 0)
        · exact ih (by rw [List.getElem?_modify_ne _ _ hik, hc])
            (by rw [List.getElem?_modify_ne _ _ hjk, hd])

/-! ## When the loop succeeds -/

/-- The bytes that a column takes once the loop has no use for its bounds any more:
bounds that are all empty texts have no length, so they are never dropped. -/
def ColSummary.leastLen (c : ColSummary) : Nat :=
  if 0 < c.boundLen then (putCol c.makeUnbounded).length else (putCol c).length

def IndexSummary.leastLen (s : IndexSummary) : Nat := 3 + (s.cols.map ColSummary.leastLen).sum

theorem ColSummary.leastLen_makeUnbounded {c : ColSummary} (h : 0 < c.boundLen) :
    c.makeUnbounded.leastLen = c.leastLen := by
  simp [leastLen, h]

theorem ColSummary.leastLen_le (c : ColSummary) : c.leastLen ≤ (putCol c).length := by
  have hone (t : Option String) : 1 ≤ (putOptStr t).length := by
    cases t <;> simp [putOptStr]
  have hmin := hone c.min
  have hmax := hone c.max
  unfold leastLen
  split
  · have hnone : (putOptStr none).length = 1 := rfl
    rw [putCol_length, putCol_length, show c.makeUnbounded.min = none from rfl,
      show c.makeUnbounded.max = none from rfl, show c.makeUnbounded.typeName = c.typeName from rfl]
    omega
  · exact Nat.le_refl _

theorem IndexSummary.leastLen_le (s : IndexSummary) : s.leastLen ≤ (serialize s).length := by
  rw [serialize_length, leastLen]
  exact Nat.add_le_add_left (List.sum_le_sum fun c _ => c.leastLen_le) 3

/-- A turn gains nothing on the least size. -/
theorem FitTurn.leastLen_eq {s s' : IndexSummary} (h : FitTurn s s') :
    s'.leastLen = s.leastLen := by
  have hcols : s'.cols.map ColSummary.leastLen = s.cols.map ColSummary.leastLen := by
    refine (forall₂_map_eq (fun c c' hdrop => ?_) h.dropped).symm
    rcases hdrop with rfl | ⟨hpos, rfl⟩
    · rfl
    · exact (ColSummary.leastLen_makeUnbounded hpos).symm
  rw [IndexSummary.leastLen, hcols, IndexSummary.leastLen]

theorem fitTurns_leastLen {s s' : IndexSummary} (h : Relation.ReflTransGen FitTurn s s') :
    s'.leastLen = s.leastLen := by
  induction h with
  | refl => rfl
  | tail _ hturn ih => exact hturn.leastLen_eq.trans ih

/-- The encoding fits exactly when the least size does. -/
theorem encodeFitting_fits_iff (s : IndexSummary) :
    (encodeFitting s).2.length ≤ maxBlobLen ↔ s.leastLen ≤ maxBlobLen := by
  rw [← fitTurns_leastLen (encodeFitting_turns s), encodeFitting_bytes]
  constructor
  · intro hfits
    exact Nat.le_trans (IndexSummary.leastLen_le _) hfits
  · intro hleast
    rcases encodeFitting_done s with hfits | hnone
    · exact hfits
    · have hcols : (encodeFitting s).1.cols.map ColSummary.leastLen =
          (encodeFitting s).1.cols.map fun c => (putCol c).length := by
        refine List.map_congr_left fun c hc => ?_
        rw [ColSummary.leastLen, if_neg (by rw [largestBounds_none hnone c hc]; omega)]
      rw [IndexSummary.leastLen, hcols, ← serialize_length] at hleast
      exact hleast

/-! ## Writing and reading the typed summary -/

/-- `write_summary`. -/
def writeSummary (file : IndexFile) (summary : IndexSummary) : Except String Unit × IndexFile :=
  writeBlob file (encodeFitting summary).2

/-- `read_summary`. -/
def readSummary (file : IndexFile) : Option IndexSummary := (readBlob file).bind deserialize

theorem serialize_ne_nil (s : IndexSummary) : serialize s ≠ [] := List.cons_ne_nil _ _

/-- What fits on the page decodes to what was encoded: no length has wrapped. -/
theorem deserialize_of_fits {s : IndexSummary} (h : (serialize s).length ≤ maxBlobLen) :
    deserialize (serialize s) = some s := by
  refine deserialize_serialize (encodable_of_length_lt (Nat.lt_of_le_of_lt h ?_))
  decide

theorem deserialize_encodeFitting {s : IndexSummary}
    (h : (encodeFitting s).2.length ≤ maxBlobLen) :
    deserialize (encodeFitting s).2 = some (encodeFitting s).1 := by
  rw [encodeFitting_bytes] at h ⊢
  exact deserialize_of_fits h

/-- A second call finds nothing left to do. -/
theorem encodeFitting_idem (s : IndexSummary) :
    encodeFitting (encodeFitting s).1 = encodeFitting s := by
  have hpair : encodeFitting s = ((encodeFitting s).1, serialize (encodeFitting s).1) :=
    Prod.ext rfl (encodeFitting_bytes s)
  by_cases hfits : (serialize (encodeFitting s).1).length ≤ maxBlobLen
  · rw [encodeFitting_of_fits hfits]
    exact hpair.symm
  · rw [encodeFitting_of_none hfits ((encodeFitting_done s).resolve_left hfits)]
    exact hpair.symm

theorem not_fitTurn_encodeFitting (s s' : IndexSummary) : ¬FitTurn (encodeFitting s).1 s' := by
  rintro ⟨hbig, j, len, hj, -⟩
  rcases encodeFitting_done s with hfits | hnone
  · omega
  · rw [hnone] at hj
    cases hj

/-- Everything about `encode_fitting`, for every summary.  The loop ends; it returns
the encoding of the summary it leaves behind, which decodes if it fits and has no
bounds left if it does not; it leaves a summary that fits as it is; it only drops
bounds, the longest first, and not one more than it has to; and a second call
changes nothing. -/
theorem encodeFitting_greedy (s : IndexSummary) :
    (∀ t t', FitTurn t t' → boundedCols t'.cols < boundedCols t.cols) ∧
    Relation.ReflTransGen FitTurn s (encodeFitting s).1 ∧
    (∀ t, ¬FitTurn (encodeFitting s).1 t) ∧
    (encodeFitting s).2 = serialize (encodeFitting s).1 ∧
    ((encodeFitting s).2.length ≤ maxBlobLen →
      deserialize (encodeFitting s).2 = some (encodeFitting s).1) ∧
    (maxBlobLen < (encodeFitting s).2.length → ∀ c ∈ (encodeFitting s).1.cols, c.boundLen = 0) ∧
    ((serialize s).length ≤ maxBlobLen → (encodeFitting s).1 = s) ∧
    List.Forall₂ DroppedTo s.cols (encodeFitting s).1.cols ∧
    (∀ (i j : Nat) (c d : ColSummary), s.cols[i]? = some c →
      (encodeFitting s).1.cols[i]? ≠ some c → s.cols[j]? = some d →
      (encodeFitting s).1.cols[j]? = some d → d.boundLen ≤ c.boundLen) ∧
    ((encodeFitting s).1 ≠ s → ∃ t, Relation.ReflTransGen FitTurn s t ∧
      maxBlobLen < (serialize t).length ∧ FitTurn t (encodeFitting s).1) ∧
    encodeFitting (encodeFitting s).1 = encodeFitting s := by
  have hturns := encodeFitting_turns s
  refine ⟨fun t t' h => h.boundedCols_lt, hturns, not_fitTurn_encodeFitting s,
    encodeFitting_bytes s,
    deserialize_encodeFitting, ?_, ?_, fitTurns_dropped hturns, ?_, ?_, encodeFitting_idem s⟩
  · intro hbig
    rw [encodeFitting_bytes] at hbig
    rcases encodeFitting_done s with hfits | hnone
    · omega
    · exact largestBounds_none hnone
  · intro hfits
    rw [encodeFitting_of_fits hfits]
  · intro i j c d hc hc' hd hd'
    exact fitTurns_largest hturns hc hc' hd hd'
  · intro hne
    rcases Relation.ReflTransGen.cases_tail hturns with heq | ⟨t, ht, hlast⟩
    · exact absurd heq hne
    · exact ⟨t, ht, hlast.1, hlast⟩

theorem readSummary_writeSummary {file file' : IndexFile} {s : IndexSummary}
    (h : writeSummary file s = (.ok (), file')) :
    readSummary file' = some (encodeFitting s).1 := by
  have hne : (encodeFitting s).2 ≠ [] := encodeFitting_bytes s ▸ serialize_ne_nil _
  have hfits : (encodeFitting s).2.length ≤ maxBlobLen := by
    unfold writeSummary writeBlob at h
    split at h
    · assumption
    · cases h
  rw [readSummary, readBlob_writeBlob hne h]
  exact deserialize_encodeFitting hfits

end TableRange
