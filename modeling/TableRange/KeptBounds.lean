import TableRange.Extents
import TableRange.WellFormed

/-!
# Bounds that are kept

An entry gives its bounds up when a value has no text form, when a bound is not read
back, or when the summary does not fit the page.  `KeptUp` is the history of a summary
that always fits, told apart by the rows that the build scanned and the rows that were
inserted afterwards.  As long as every value has a text form, the btree and range
columns of such a summary keep their bounds (`KeptUp.bounded`), and `all_nulls` says
that the scan has seen a NULL and nothing since has been anything else
(`KeptUp.allNulls`).
-/

namespace TableRange

open Lib.Fallible

variable {D : Type} {pg : Pg D} {eord : pg.ExtentOrder}

namespace Pg

variable (pg : Pg D)

/-- The value can be written as text. -/
def HasText (typ : Oid) (v : D) : Prop := ∃ t, pg.Renders typ t v

/-- What has a text form in one session has one in every session, and the union of two
ranges that have one has one. -/
structure TextLaws : Prop where
  everywhere : ∀ {typ : Oid} {v : D}, pg.HasText typ v → ∀ g : Guc, g.Stable →
    ∃ t, pg.datumToText g typ v = .ok (some t)
  rangeMerge : ∀ {typ : Oid} {a b r : D}, pg.HasText typ a → pg.HasText typ b →
    pg.rangeMerge a b = .ok r → pg.HasText typ r

end Pg

/-- A summary that was built over the rows `scanned` and has taken in the rows
`inserted` since, the last one first, and that fitted the page each time. -/
inductive KeptUp (pg : Pg D) (attrs : List (IndexAttr D)) (scanned : List (Row D)) :
    IndexSummary → List (Row D) → Prop
  | build {session : Session} {s : IndexSummary}
      (h : buildLeafSummary pg session attrs scanned = .ok s)
      (hfits : (serialize s).length ≤ maxBlobLen) : KeptUp pg attrs scanned (encodeFitting s).1 []
  | insert {session : Session} {inserted : List (Row D)} {row : Row D} {s s' : IndexSummary}
      {changed : Bool} (hs : KeptUp pg attrs scanned s inserted)
      (h : widenStable pg session attrs row s = .ok (s', changed))
      (hfits : (serialize s').length ≤ maxBlobLen) :
      KeptUp pg attrs scanned (encodeFitting s').1 (row :: inserted)

section KeptUp

variable {attrs : List (IndexAttr D)} {scanned inserted : List (Row D)} {s : IndexSummary}

theorem KeptUp.maintained (h : KeptUp pg attrs scanned s inserted) :
    Maintained pg attrs s (inserted ++ scanned) := by
  induction h with
  | build h _ => exact .fit (.build h)
  | insert _ h _ ih => exact .fit (.insert ih h)

/-- The induction rule for the entry of a column that the index lists once: the summary
fits, so nothing is dropped. -/
theorem KeptUp.entry_rule {a : IndexAttr D} (hdistinct : DistinctColumns attrs)
    (ha : a ∈ summarized attrs) {P : List (Row D) → ColSummary → Prop}
    (build : ∀ session s, buildLeafSummary pg session attrs scanned = .ok s →
      ∀ c ∈ s.cols, c.attnum = a.attnum → P [] c)
    (insert : ∀ inserted row g c c' changed, g.Stable → P inserted c ∨ P (row :: inserted) c →
      widenColumn pg g c a.typ a.collation (row a.attnum) = .ok (c', changed) →
      P (row :: inserted) c')
    (h : KeptUp pg attrs scanned s inserted) {c : ColSummary}
    (hc : firstEntry s.cols a.attnum = some c) : P inserted c := by
  have hpos := (mem_summarized.mp ha).2
  induction h generalizing c with
  | build h hfits =>
      rw [encodeFitting_of_fits hfits] at hc
      exact build _ _ h c (List.mem_of_find?_eq_some hc) (by simpa using List.find?_some hc)
  | @insert session inserted row s s' changed hs h hfits ih =>
      rw [encodeFitting_of_fits hfits] at hc
      obtain ⟨⟨cols, _⟩, hcols, h⟩ := bind_eq_ok.mp (widenStable_eq_ok h)
      cases h
      refine widenSummaryFrom_firstEntry hpos (P := P inserted)
        (fun b hb hba c c' changed hold hwiden => ?_)
        (fun i b hb => indexTuple_eq (by simpa using hb) row) hcols (fun d hd => ?_) hc
      · obtain rfl : b = a := List.inj_on_of_nodup_map hdistinct
          (mem_summarized.mpr ⟨hb, hba ▸ hpos⟩) ha hba
        exact insert inserted row _ c c' changed session.guc.pin_stable hold hwiden
      · rw [if_pos (List.mem_map.mpr ⟨a, (mem_summarized.mp ha).1, rfl⟩)]
        exact Or.inl (ih hd)

theorem KeptUp.exists_entry {a : IndexAttr D} (ha : a ∈ summarized attrs)
    (h : KeptUp pg attrs scanned s inserted) : ∃ c, firstEntry s.cols a.attnum = some c := by
  have hmem : a.attnum ∈ s.cols.map ColSummary.attnum := by
    rw [h.maintained.attnums]
    exact List.mem_map_of_mem ha
  obtain ⟨c, hc, hattnum⟩ := List.mem_map.mp hmem
  exact Option.isSome_iff_exists.mp (List.find?_isSome.mpr ⟨c, hc, by simp [hattnum]⟩)

end KeptUp

/-! ## `all_nulls` -/

theorem widenColumn_allNulls {g : Guc} {typ collation : Oid} {c c' : ColSummary} {value : Option D}
    {changed : Bool} (h : widenColumn pg g c typ collation value = .ok (c', changed)) :
    c'.allNulls = true ↔ c.allNulls = true ∧ value = none := by
  cases value with
  | none =>
      simp only [widenColumn] at h
      split at h <;> cases h <;> simp
  | some value =>
      simp only [widenColumn] at h
      split at h
      · cases h
        simp
      · obtain ⟨widened, hwidened, h⟩ := bind_eq_ok.mp h
        cases widened with
        | none =>
            cases h
            simp [ColSummary.makeUnbounded]
        | some r =>
            obtain ⟨w, ch⟩ := r
            cases h
            rw [widenBounds_frame hwidened]
            simp

/-- The scan has seen a NULL, and no row is anything else. -/
theorem KeptUp.allNulls {attrs : List (IndexAttr D)} {scanned inserted : List (Row D)}
    {s : IndexSummary} {a : IndexAttr D} (h : KeptUp pg attrs scanned s inserted)
    (hdistinct : DistinctColumns attrs) (ha : a ∈ summarized attrs) {c : ColSummary}
    (hc : firstEntry s.cols a.attnum = some c) :
    c.allNulls = true ↔ (∃ row ∈ scanned, row a.attnum = none) ∧
      ∀ row ∈ inserted ++ scanned, row a.attnum = none := by
  have hpos := (mem_summarized.mp ha).2
  refine h.entry_rule hdistinct ha (P := fun inserted c => c.allNulls = true ↔
    (∃ row ∈ scanned, row a.attnum = none) ∧ ∀ row ∈ inserted ++ scanned, row a.attnum = none)
    ?_ ?_ hc
  · intro session s hbuilt c hmem hattnum
    have hcols := buildLeafSummary_forall₂ (R := Counted pg attrs)
      (Q := fun a seen c => c.attnum = a.attnum ∧
        (c.allNulls = true ↔ none ∈ seen ∧ ∀ v ∈ seen, v = none))
      (fun _ _ hplan hfresh => hfresh.counted hplan)
      (fun _ _ _ _ _ _ hcount hstep => buildColumn_counted hcount hstep)
      (fun g b seen col out _ hcount hout => ?_) hbuilt
    · obtain ⟨b, hb, hbc, hall⟩ := Lib.Aligned.forall₂_mem_right hcols c hmem
      obtain rfl : b = a := List.inj_on_of_nodup_map hdistinct hb ha (hbc.symm.trans hattnum)
      rw [hall]
      simp [b.value_of_pos hpos]
    · obtain ⟨hattnum, -, hall⟩ := finishColumn_counts hout
      refine ⟨hattnum.trans hcount.planned.attnum, ?_⟩
      rw [hall, hcount.nonnull, hcount.nulls, decide_eq_true_iff, List.length_eq_zero_iff,
        filterMap_id_eq_nil, List.countP_pos_iff, and_comm]
      simp
  · intro inserted row g c c' changed _ hold hwiden
    rw [widenColumn_allNulls hwiden]
    rcases hold with hold | hold
    · rw [hold]
      simp only [List.cons_append, List.mem_cons, forall_eq_or_imp]
      tauto
    · rw [hold]
      simp only [List.cons_append, List.mem_cons, forall_eq_or_imp]
      tauto

/-! ## The bounds of the build -/

/-- What the accumulator of a btree or range column holds can be written as text. -/
def Accumulator.HasTexts (pg : Pg D) (typ : Oid) : Accumulator D → Prop
  | .minMax _ min max => (∀ d ∈ min, pg.HasText typ d) ∧ ∀ d ∈ max, pg.HasText typ d
  | .range extent => ∀ d ∈ extent, pg.HasText typ d
  | .geometry .. | .unsupported => True

theorem planAccumulator_hasTexts (typ : Oid) : (planAccumulator pg typ).HasTexts pg typ := by
  rcases planAccumulator_cases pg typ with h | h | h | ⟨cmp, h⟩ <;> rw [h] <;>
    simp [Accumulator.HasTexts]

/-- A column whose bounds are computed by the extension itself, and not by
`ST_Extent`. -/
def HasPlainBounds (pg : Pg D) (typ : Oid) : Prop :=
  (planAccumulator pg typ).kind = .minMax ∨ (planAccumulator pg typ).kind = .range

theorem addValue_hasTexts (texts : pg.TextLaws) {g : Guc} {typ : Oid} {col col' : ColumnBuild D}
    {value : D} (hkind : col.acc.kind = .minMax ∨ col.acc.kind = .range)
    (hacc : col.acc.HasTexts pg typ) (hvalue : pg.HasText typ value)
    (h : addValue pg g col value = .ok col') : col'.acc.HasTexts pg typ := by
  unfold addValue at h
  split at h
  · rename_i cmp lo hi hcol
    rw [hcol] at hacc
    obtain ⟨below, -, h⟩ := bind_eq_ok.mp h
    obtain ⟨above, -, h⟩ := bind_eq_ok.mp h
    cases h
    constructor
    · rintro d ⟨⟩
      split
      · exact hvalue
      · exact hacc.1 lo rfl
    · rintro d ⟨⟩
      split
      · exact hvalue
      · exact hacc.2 hi rfl
  · cases h
    simpa [Accumulator.HasTexts] using hvalue
  · cases h
    simpa [Accumulator.HasTexts] using hvalue
  · rename_i old hcol
    rw [hcol] at hacc
    obtain ⟨merged, hmerged, h⟩ := bind_eq_ok.mp h
    cases h
    rintro d ⟨⟩
    exact texts.rangeMerge (hacc old rfl) hvalue hmerged
  · rename_i hcol
    simp [hcol, Accumulator.kind] at hkind
  · rename_i hcol
    simp [hcol, Accumulator.kind] at hkind

variable (pg) in
/-- The column has taken in the values, and can be written as text. -/
structure Written (attrs : List (IndexAttr D)) (a : IndexAttr D) (seen : List (Option D))
    (col : ColumnBuild D) : Prop extends Shaped pg attrs a seen col where
  texts : HasPlainBounds pg a.typ → (∀ v, some v ∈ seen → pg.HasText a.typ v) →
    col.acc.HasTexts pg a.typ

theorem buildColumn_written (texts : pg.TextLaws) {g : Guc} {attrs : List (IndexAttr D)}
    {a : IndexAttr D} {col col' : ColumnBuild D} {seen : List (Option D)} {row : Row D}
    (hwritten : Written pg attrs a seen col)
    (h : buildColumn pg g (indexTuple attrs row) col = .ok col') :
    Written pg attrs a (seen ++ [a.value row]) col' := by
  refine ⟨buildColumn_shaped hwritten.toShaped h, fun hplain hseen => ?_⟩
  have hacc := hwritten.texts hplain fun v hv => hseen v (List.mem_append_left _ hv)
  have hkind : col.acc.kind = .minMax ∨ col.acc.kind = .range := by
    rw [hwritten.kind]
    exact hplain
  rw [buildColumn, hwritten.tuple row] at h
  split at h
  · cases h
    exact hacc
  · rename_i value hval
    have hvalue : pg.HasText a.typ value := hseen value (by simp [hval])
    refine addValue_hasTexts texts ?_ ?_ hvalue h
    · exact hkind
    · exact hacc

/-- The bounds in an entry are texts of values. -/
structure KeptEntry (pg : Pg D) (a : IndexAttr D) (c : ColSummary) : Prop extends
    EntryKind pg a c where
  bounded : c.unbounded = false
  paired : c.overlap = false → (c.min = none ↔ c.max = none)
  min : ∀ t ∈ c.min, ∃ v, pg.Renders a.typ t v
  max : ∀ t ∈ c.max, ∃ v, pg.Renders a.typ t v

/-- What is held is rendered. -/
theorem renderBound_of_hasText (texts : pg.TextLaws) {g : Guc} (hg : g.Stable) {typ : Oid}
    {d : Option D} {text : Option String} (hd : ∀ v ∈ d, pg.HasText typ v)
    (h : renderBound pg g typ d = .ok text) :
    (text = none ↔ d = none) ∧ ∀ t ∈ text, ∃ v, pg.Renders typ t v := by
  cases d with
  | none =>
      cases h
      simp
  | some v =>
      obtain ⟨t, ht⟩ := texts.everywhere (hd v rfl) g hg
      obtain rfl : some t = text := Except.ok.inj (ht.symm.trans h)
      refine ⟨by simp, ?_⟩
      rintro t' ⟨⟩
      exact ⟨v, g, hg, ht⟩

/-- The build renders every bound that it has. -/
theorem finishColumn_kept (texts : pg.TextLaws) {g : Guc} (hg : g.Stable)
    {attrs : List (IndexAttr D)} {a : IndexAttr D} {col : ColumnBuild D} {seen : List (Option D)}
    {out : ColSummary} (hwritten : Written pg attrs a seen col) (hplain : HasPlainBounds pg a.typ)
    (hseen : ∀ v, some v ∈ seen → pg.HasText a.typ v) (h : finishColumn pg g col = .ok out) :
    KeptEntry pg a out := by
  have hkind := finishColumn_entryKind hwritten.toCounted h
  have hwell := finishColumn_wellFormed hwritten.toShaped h
  have htexts := hwritten.texts hplain hseen
  have hplain' : col.acc.kind = .minMax ∨ col.acc.kind = .range := by
    rw [hwritten.kind]
    exact hplain
  obtain ⟨flushed, overlap, min, max, unbounded, hflush, hrender, rfl⟩ := finishColumn_cases h
  have hsame : flushed = col := by
    unfold flushGeometry at hflush
    split at hflush
    · rename_i hcol
      simp [hcol, Accumulator.kind] at hplain'
    · cases hflush
      rfl
  subst hsame
  have hne (hpos : 0 < flushed.nonnull) : seen.filterMap id ≠ [] := by
    rw [hwritten.nonnull] at hpos
    exact List.length_pos_iff.mp hpos
  -- a bound that is missing was never there
  have hrendered : unbounded = false ∧
      (0 < flushed.nonnull → flushed.acc.lostBound min max = false) ∧
      (∀ t ∈ min, ∃ v, pg.Renders a.typ t v) ∧ ∀ t ∈ max, ∃ v, pg.Renders a.typ t v := by
    have hshape := hwritten.shape
    unfold renderBounds at hrender
    rw [hwritten.planned.typ] at hrender
    split at hrender
    · rename_i cmp lo hi hcol
      rw [hcol] at htexts hshape ⊢
      obtain ⟨lot, hlot, hrender⟩ := bind_eq_ok.mp hrender
      obtain ⟨hit, hhit, hrender⟩ := bind_eq_ok.mp hrender
      cases hrender
      obtain ⟨hlonone, hlo⟩ := renderBound_of_hasText texts hg htexts.1 hlot
      obtain ⟨hhinone, hhi⟩ := renderBound_of_hasText texts hg htexts.2 hhit
      refine ⟨rfl, fun hpos => ?_, hlo, hhi⟩
      have hlo' : ¬lo = none := fun hno => hne hpos (hshape.1.mp hno)
      have hhi' : ¬hi = none := fun hno => hne hpos (hshape.2.mp hno)
      simp [Accumulator.lostBound, Option.isSome_iff_ne_none, hlonone, hhinone, hlo', hhi']
    · rename_i extent hcol
      rw [hcol] at htexts hshape ⊢
      obtain ⟨text, htext, hrender⟩ := bind_eq_ok.mp hrender
      cases hrender
      obtain ⟨hnone, hmin⟩ := renderBound_of_hasText texts hg htexts htext
      refine ⟨rfl, fun hpos => ?_, hmin, by simp⟩
      have hextent : ¬extent = none := fun hno => hne hpos (hshape.mp hno)
      simp [Accumulator.lostBound, Option.isSome_iff_ne_none, hnone, hextent]
    · rename_i hcol
      simp [hcol, Accumulator.kind] at hplain'
    · rename_i hcol
      simp [hcol, Accumulator.kind] at hplain'
  obtain ⟨hunb, hlost, hmin, hmax⟩ := hrendered
  have hkeep : flushed.settle (flushed.entry overlap min max unbounded) =
      flushed.entry overlap min max unbounded := by
    unfold ColumnBuild.settle
    rw [if_neg]
    simp only [ColumnBuild.entry, hunb, Bool.false_or, Bool.and_eq_true, decide_eq_true_eq, not_and,
      Bool.not_eq_true]
    exact hlost
  rw [hkeep] at hkind hwell ⊢
  exact ⟨hkind, hunb, hwell.paired, hmin, hmax⟩

/-! ## The bounds of an insert -/

/-- A value with a text form is taken into btree bounds. -/
theorem widenMinmax_taken (io : pg.TextRoundTrip) (texts : pg.TextLaws) {g : Guc} (hg : g.Stable)
    {a : IndexAttr D} {c : ColSummary} {value : D} {r : Option (ColSummary × Bool)}
    (hkind : (planAccumulator pg a.typ).kind = .minMax) (hc : KeptEntry pg a c)
    (hov : c.overlap = false) (hvalue : pg.HasText a.typ value)
    (h : widenMinmax pg g c a.typ a.collation value = .ok r) :
    ∃ c' changed, r = some (c', changed) ∧ (∀ t ∈ c'.min, ∃ v, pg.Renders a.typ t v) ∧
      ∀ t ∈ c'.max, ∃ v, pg.Renders a.typ t v := by
  obtain ⟨newText, hnew⟩ := texts.everywhere hvalue g hg
  have hvalue' : pg.Renders a.typ newText value := ⟨g, hg, hnew⟩
  cases r with
  | some r =>
      obtain ⟨c', changed⟩ := r
      refine ⟨c', changed, rfl, ?_⟩
      obtain ⟨newText', hnew', hcases⟩ := widenMinmax_cases h
      obtain rfl : newText = newText' := Option.some.inj (Except.ok.inj (hnew.symm.trans hnew'))
      rcases hcases with ⟨-, -, -, rfl⟩ |
        ⟨s, t, cmp, lo, hi, below, above, hs, ht, -, -, -, -, -, -, rfl⟩
      · constructor
        · rintro t ⟨⟩
          exact ⟨value, hvalue'⟩
        · rintro t ⟨⟩
          exact ⟨value, hvalue'⟩
      · constructor
        · rintro t' ⟨⟩
          split
          · exact ⟨value, hvalue'⟩
          · exact hc.min s hs
        · rintro t' ⟨⟩
          split
          · exact ⟨value, hvalue'⟩
          · exact hc.max t ht
  | none =>
      -- the type has an order, and the bounds are read back
      obtain ⟨cmp, hcmp⟩ := exists_btreeCmpProc hkind
      unfold widenMinmax at h
      simp only [hnew, bind, Except.bind] at h
      split at h
      · rename_i s t hs ht
        obtain ⟨lo, hlo⟩ := hc.min s hs
        obtain ⟨hi, hhi⟩ := hc.max t ht
        simp only [hcmp, io.read hg hlo, io.read hg hhi] at h
        split at h
        · cases h
        · split at h <;> cases h
      · cases h
      · rename_i hboth hnone
        cases hmin : c.min with
        | none => exact absurd ((hc.paired hov).mp hmin) (hnone hmin)
        | some s =>
            cases hmax : c.max with
            | none => exact absurd hmin (by simp [(hc.paired hov).mpr hmax])
            | some t => exact absurd hmax (hboth s t hmin)

/-- So is one into an extent. -/
theorem widenOverlap_taken (io : pg.TextRoundTrip) (texts : pg.TextLaws) (laws : eord.RangeLaws)
    {g : Guc} (hg : g.Stable) {a : IndexAttr D} {c : ColSummary} {value : D}
    {r : Option (ColSummary × Bool)} (hkind : (planAccumulator pg a.typ).kind = .range)
    (hc : KeptEntry pg a c) (hvalue : pg.HasText a.typ value)
    (h : widenOverlap pg g c a.typ value = .ok r) :
    ∃ c' changed, r = some (c', changed) ∧ (∀ t ∈ c'.min, ∃ v, pg.Renders a.typ t v) ∧
      c'.max = c.max := by
  obtain ⟨extent, hextent, h⟩ := bind_eq_ok.mp h
  -- the extent is the union with the old one, and has a text form
  obtain ⟨w, rfl, e, he⟩ : ∃ w, extent = some (some w) ∧ ∃ e, pg.Renders a.typ w e := by
    unfold extentWith at hextent
    split at hextent
    · -- `ST_Extent` over ranges raises an error
      obtain ⟨newText, hnew⟩ := texts.everywhere hvalue g hg
      obtain ⟨text, htext, hextent⟩ := bind_eq_ok.mp hextent
      obtain rfl : some newText = text := Except.ok.inj (hnew.symm.trans htext)
      obtain ⟨extent', hno, -⟩ := bind_eq_ok.mp hextent
      exact absurd hno (laws.extentQuery_range hc.typeName hkind)
    · obtain ⟨merged, hmerged, hextent⟩ := bind_eq_ok.mp hextent
      obtain ⟨m, rfl, hm⟩ : ∃ m, merged = some m ∧ pg.HasText a.typ m := by
        unfold mergedExtent at hmerged
        split at hmerged
        · cases hmerged
          exact ⟨value, rfl, hvalue⟩
        · rename_i t ht
          obtain ⟨old, hold⟩ := hc.min t ht
          simp only [io.read hg hold, bind, Except.bind] at hmerged
          split at hmerged
          · cases hmerged
          · rename_i m hm
            cases hmerged
            exact ⟨m, rfl, texts.rangeMerge ⟨t, hold⟩ hvalue hm⟩
      obtain ⟨t, ht⟩ := texts.everywhere hm g hg
      simp only [ht, bind, Except.bind] at hextent
      cases hextent
      exact ⟨t, rfl, m, g, hg, ht⟩
  simp only at h
  split at h
  · cases h
    refine ⟨_, _, rfl, ?_, rfl⟩
    rintro t ⟨⟩
    exact ⟨e, he⟩
  · cases h
    exact ⟨_, _, rfl, hc.min, rfl⟩

/-- A value with a text form never costs the bounds. -/
theorem widenColumn_kept (io : pg.TextRoundTrip) (texts : pg.TextLaws) {a : IndexAttr D}
    (laws : (planAccumulator pg a.typ).kind = .range → eord.RangeLaws) {g : Guc} (hg : g.Stable)
    {c c' : ColSummary} {value : Option D} {changed : Bool}
    (hplain : HasPlainBounds pg a.typ) (hc : KeptEntry pg a c)
    (hvalue : ∀ v ∈ value, pg.HasText a.typ v)
    (h : widenColumn pg g c a.typ a.collation value = .ok (c', changed)) : KeptEntry pg a c' := by
  have hkind := hc.toEntryKind.of_same (widenColumn_sameColumn h)
  have hov := (widenColumn_sameColumn h).overlap
  cases value with
  | none =>
      simp only [widenColumn] at h
      split at h
      · cases h
        exact ⟨hkind, hc.bounded, hc.paired, hc.min, hc.max⟩
      · cases h
        exact hc
  | some value =>
      simp only [widenColumn] at h
      split at h
      · rename_i hunb
        exact absurd (hc.bounded.symm.trans hunb) (by decide)
      · obtain ⟨widened, hwidened, h⟩ := bind_eq_ok.mp h
        have hc₀ : KeptEntry pg a { c with allNulls := false } :=
          ⟨⟨hc.typeName, hc.overlap, hc.unsupported⟩, hc.bounded, hc.paired, hc.min, hc.max⟩
        unfold widenBounds at hwidened
        split at hwidened
        · rename_i hextent
          have hrange : (planAccumulator pg a.typ).kind = .range := by
            rcases hplain with hminmax | hrange
            · rcases hc.overlap.mp hextent with h | h <;> cases hminmax.symm.trans h
            · exact hrange
          obtain ⟨w, ch, rfl, hmin, hmax⟩ := widenOverlap_taken io texts (laws hrange) hg
            hrange hc₀ (hvalue value rfl) hwidened
          cases h
          have hunb : c'.unbounded = false := by
            rw [widenOverlap_frame hwidened]
            exact hc.bounded
          refine ⟨hkind, hunb, fun hno => ?_, hmin, hmax ▸ hc₀.max⟩
          cases (hov.trans hextent).symm.trans hno
        · rename_i hextent
          have hextent : c.overlap = false := eq_false_of_ne_true hextent
          have hminmax : (planAccumulator pg a.typ).kind = .minMax := by
            rcases hplain with hminmax | hrange
            · exact hminmax
            · cases hextent.symm.trans (hc.overlap.mpr (Or.inl hrange))
          obtain ⟨w, ch, rfl, hmin, hmax⟩ := widenMinmax_taken io texts hg hminmax hc₀ hextent
            (hvalue value rfl) hwidened
          cases h
          have hunb : c'.unbounded = false := by
            rw [widenMinmax_frame hwidened]
            exact hc.bounded
          obtain ⟨hmin', hmax'⟩ := widenMinmax_bounds hwidened
          exact ⟨hkind, hunb, fun _ => iff_of_false hmin' hmax', hmin, hmax⟩

/-- The btree and range columns of a summary that fits keep their bounds, as long as
every value has a text form. -/
theorem KeptUp.bounded (io : pg.TextRoundTrip) (texts : pg.TextLaws) {a : IndexAttr D}
    (laws : (planAccumulator pg a.typ).kind = .range → eord.RangeLaws)
    {attrs : List (IndexAttr D)} {scanned inserted : List (Row D)} {s : IndexSummary}
    (h : KeptUp pg attrs scanned s inserted) (hdistinct : DistinctColumns attrs)
    (ha : a ∈ summarized attrs) (hplain : HasPlainBounds pg a.typ)
    (hrows : ∀ row ∈ inserted ++ scanned, ∀ v, row a.attnum = some v → pg.HasText a.typ v)
    {c : ColSummary} (hc : firstEntry s.cols a.attnum = some c) : KeptEntry pg a c := by
  have hpos := (mem_summarized.mp ha).2
  refine h.entry_rule hdistinct ha (P := fun inserted c =>
    (∀ row ∈ inserted ++ scanned, ∀ v, row a.attnum = some v → pg.HasText a.typ v) →
      KeptEntry pg a c) ?_ ?_ hc hrows
  · intro session s hbuilt c hmem hattnum hrows
    have hcols := buildLeafSummary_forall₂ (R := Written pg attrs)
      (Q := fun a seen c => c.attnum = a.attnum ∧ (HasPlainBounds pg a.typ →
        (∀ v, some v ∈ seen → pg.HasText a.typ v) → KeptEntry pg a c))
      (fun a _ hplan hfresh => ⟨⟨hfresh.counted hplan, hfresh.acc ▸ planAccumulator_shape pg a.typ⟩,
        fun _ _ => hfresh.acc ▸ planAccumulator_hasTexts a.typ⟩)
      (fun _ _ _ _ _ _ hwritten hstep => buildColumn_written texts hwritten hstep)
      (fun _ _ _ _ _ hg hwritten hout =>
        ⟨(finishColumn_counts hout).1.trans hwritten.planned.attnum,
          fun hplain hseen => finishColumn_kept texts hg hwritten hplain hseen hout⟩) hbuilt
    obtain ⟨b, hb, hbc, hkept⟩ := Lib.Aligned.forall₂_mem_right hcols c hmem
    obtain rfl : b = a := List.inj_on_of_nodup_map hdistinct hb ha (hbc.symm.trans hattnum)
    refine hkept hplain fun v hv => ?_
    obtain ⟨row, hrow, hval⟩ := List.mem_map.mp hv
    exact hrows row hrow v (b.value_of_pos hpos row ▸ hval)
  · intro inserted row g c c' changed hg hold hwiden hrows
    have hkept : KeptEntry pg a c := by
      rcases hold with hold | hold
      · exact hold fun r hr => hrows r (List.mem_cons_of_mem _ hr)
      · exact hold hrows
    exact widenColumn_kept io texts laws hg hplain hkept
      (fun v hv => hrows row List.mem_cons_self v hv)
      hwiden

end TableRange
