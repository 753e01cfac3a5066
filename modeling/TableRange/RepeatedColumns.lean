import Mathlib.Data.List.Nodup
import TableRange.Coverage.History
import TableRange.MiniPg

/-!
# Indexes that list a heap column twice

PostgreSQL lets an index list one heap column several times, for instance under
different collations.  `plan_columns` makes an entry for each position, but
`widen_summary` finds the entry by the heap attribute number, so it widens the
first entry once for every position and the others never.

`wideningCovers_iff` says that this is the only way in which widening loses a
stored row: an index keeps its entries covering exactly when it lists no heap
column twice.
-/

namespace TableRange

open Lib.Fallible

variable {D : Type} {pg : Pg D}

/-- Each entry covers the rows under its own collation. -/
def EntriesCover (ord : pg.BtreeOrder) (eord : pg.ExtentOrder) (attrs : List (IndexAttr D))
    (s : IndexSummary) (rows : Set (Row D)) : Prop :=
  List.Forall₂ (fun a c => ∀ v ∈ rowValues rows a, Covers ord eord a c v) (summarized attrs) s.cols

/-- No insert makes an entry stop covering the stored rows or miss the new
one. -/
def WideningCovers (ord : pg.BtreeOrder) (eord : pg.ExtentOrder) (attrs : List (IndexAttr D)) :
    Prop :=
  ∀ (s s' : IndexSummary) (rows : List (Row D)) (stored : Set (Row D)) (session : Session)
    (row : Row D) (changed : Bool),
    Maintained pg attrs s rows → EntriesCover ord eord attrs s stored →
    widenStable pg session attrs row s = .ok (s', changed) →
    EntriesCover ord eord attrs s' (insert row stored)

/-! ## Without repeats -/

section

variable {ord : pg.BtreeOrder} {eord : pg.ExtentOrder}

theorem wideningCovers_of_distinct (io : pg.TextRoundTrip) {attrs : List (IndexAttr D)}
    (hdistinct : DistinctColumns attrs) : WideningCovers ord eord attrs := by
  intro s s' rows stored session row changed hs hstored h
  have hcovers : SummaryCovers ord eord attrs s (rowValues stored) :=
    (Lib.Aligned.forall₂_and (hs.covers ord eord io hdistinct) hstored).imp
      fun _ _ hac => ⟨hac.1.1, hac.2⟩
  have hnew := (widenStable_covers io hdistinct hcovers h).1
  rw [← rowValues_insert] at hnew
  exact hnew.imp fun _ _ hac => hac.2

end

/-! ## The entries of a repeated column -/

/-- The first entry for an attribute number hides the later ones. -/
theorem widenFirst_shadowed {attnum : Int16} {f : ColSummary → PgResult (ColSummary × Bool)}
    (hf : ∀ c c' changed, f c = .ok (c', changed) → SameColumn c c')
    {before after : List ColSummary}
    {c : ColSummary} {cols : List ColSummary} {changed : Bool}
    (hshadow : c.attnum = attnum → attnum ∈ before.map ColSummary.attnum)
    (h : widenFirst attnum f (before ++ c :: after) = .ok (cols, changed)) :
    ∃ before' after', cols = before' ++ c :: after' ∧
      before'.map ColSummary.attnum = before.map ColSummary.attnum := by
  induction before generalizing cols with
  | nil =>
      have hne : c.attnum ≠ attnum := fun he => by simpa using hshadow he
      rw [List.nil_append, widenFirst, if_neg hne] at h
      obtain ⟨⟨after', _⟩, -, h⟩ := bind_eq_ok.mp h
      cases h
      exact ⟨[], after', rfl, rfl⟩
  | cons d before ih =>
      rw [List.cons_append, widenFirst] at h
      split at h
      · obtain ⟨⟨d', _⟩, hd', h⟩ := bind_eq_ok.mp h
        cases h
        exact ⟨d' :: before, after, rfl, by simp [(hf _ _ _ hd').attnum]⟩
      · rename_i hne
        obtain ⟨⟨rest, _⟩, hrest, h⟩ := bind_eq_ok.mp h
        cases h
        have hshadow' : c.attnum = attnum → attnum ∈ before.map ColSummary.attnum := fun he =>
          (List.mem_cons.mp (hshadow he)).resolve_left fun hd => hne hd.symm
        obtain ⟨before', after', rfl, hmap⟩ := ih hshadow' hrest
        exact ⟨d :: before', after', rfl, by simp [hmap]⟩

/-- No insert touches an entry that an earlier one hides. -/
theorem widenSummaryFrom_shadowed {g : Guc} {tuple : Nat → Option D} {pos : Nat}
    {attrs : List (IndexAttr D)} {before after cols : List ColSummary} {c : ColSummary}
    {changed : Bool} (hshadow : c.attnum ∈ before.map ColSummary.attnum)
    (h : widenSummaryFrom pg g tuple pos attrs (before ++ c :: after) = .ok (cols, changed)) :
    c ∈ cols := by
  induction attrs generalizing pos before after cols changed with
  | nil =>
      cases h
      simp
  | cons a attrs ih =>
      obtain ⟨⟨cols₁, _⟩, hfirst, h⟩ := bind_eq_ok.mp h
      obtain ⟨⟨cols₂, _⟩, hrest, h⟩ := bind_eq_ok.mp h
      cases h
      obtain ⟨before', after', rfl, hmap⟩ := widenFirst_shadowed
        (fun _ _ _ hc => widenColumn_sameColumn hc) (fun he => he ▸ hshadow) hfirst
      exact ih (hmap ▸ hshadow) hrest

/-- A repeated key stands somewhere behind itself. -/
private theorem exists_shadowed {cols : List ColSummary}
    (h : ¬(cols.map ColSummary.attnum).Nodup) :
    ∃ before c after, cols = before ++ c :: after ∧ c.attnum ∈ before.map ColSummary.attnum := by
  induction cols using List.reverseRecOn with
  | nil => exact absurd List.nodup_nil h
  | append_singleton cols d ih =>
      by_cases hd : d.attnum ∈ cols.map ColSummary.attnum
      · exact ⟨cols, d, [], rfl, hd⟩
      · have hrest : ¬(cols.map ColSummary.attnum).Nodup := fun hnodup => by
          rw [List.map_append, List.map_singleton, ← List.concat_eq_append] at h
          exact h (List.Nodup.concat hd hnodup)
        obtain ⟨before, c, after, rfl, hc⟩ := ih hrest
        exact ⟨before, c, after ++ [d], by simp, hc⟩

/-! ## A row of NULLs -/

/-- An update that never fails does not fail on the first entry. -/
theorem widenFirst_ok {attnum : Int16} {f : ColSummary → PgResult (ColSummary × Bool)}
    {cols : List ColSummary}
    (hok : attnum ∈ cols.map ColSummary.attnum → ∀ c, ∃ r, f c = .ok r) :
    ∃ r, widenFirst attnum f cols = .ok r := by
  induction cols with
  | nil => exact ⟨_, rfl⟩
  | cons c cols ih =>
      by_cases hc : c.attnum = attnum
      · obtain ⟨⟨c', changed⟩, hc'⟩ := hok (by simp [hc]) c
        exact ⟨(c' :: cols, changed), by
          simp only [widenFirst, if_pos hc, hc', bind, Except.bind]⟩
      · obtain ⟨⟨cols', changed⟩, hrest⟩ := ih fun hmem => hok (List.mem_cons_of_mem _ hmem)
        exact ⟨(c :: cols', changed), by
          simp only [widenFirst, if_neg hc, hrest, bind, Except.bind]⟩

/-- NULLs are taken in without an error. -/
theorem widenSummaryFrom_nulls {g : Guc} {tuple : Nat → Option D} {pos : Nat}
    {attrs : List (IndexAttr D)} {cols : List ColSummary}
    (htuple : ∀ i a, attrs[i]? = some a → 0 < a.attnum → tuple (pos + i) = none)
    (hpos : ∀ n ∈ cols.map ColSummary.attnum, 0 < n) :
    ∃ r, widenSummaryFrom pg g tuple pos attrs cols = .ok r := by
  induction attrs generalizing pos cols with
  | nil => exact ⟨_, rfl⟩
  | cons a attrs ih =>
      have htuple' : ∀ i b, attrs[i]? = some b → 0 < b.attnum → tuple (pos + 1 + i) = none := by
        intro i b hb
        rw [Nat.add_assoc, Nat.add_comm 1 i]
        exact htuple (i + 1) b (by simpa using hb)
      -- an entry for this position is an entry of a heap column
      have hok : a.attnum ∈ cols.map ColSummary.attnum →
          ∀ c, ∃ r, widenColumn pg g c a.typ a.collation (tuple pos) = .ok r := by
        intro hmem c
        have hnone : tuple pos = none := htuple 0 a rfl (hpos _ hmem)
        rw [hnone]
        simp only [widenColumn]
        split <;> exact ⟨_, rfl⟩
      obtain ⟨⟨cols', c⟩, hfirst⟩ := widenFirst_ok hok
      have hmap := SameColumn.attnums
        (widenFirst_sameColumn (fun _ _ _ hc => widenColumn_sameColumn hc) hfirst)
      obtain ⟨⟨cols'', changed⟩, hrest⟩ := ih htuple' (hmap ▸ hpos)
      exact ⟨(cols'', c || changed), by
        simp only [widenSummaryFrom, hfirst, hrest, bind, Except.bind]⟩

section

variable {ord : pg.BtreeOrder} {eord : pg.ExtentOrder}

/-- With a repeated column, a row of NULLs on an empty table is missed by the
entry that an earlier one hides. -/
theorem not_wideningCovers_of_repeated {session : Session} {attrs : List (IndexAttr D)}
    {planned : List (ColumnBuild D)} (hplan : planColumns pg session attrs = .ok planned)
    (hrepeated : ¬DistinctColumns attrs) : ¬WideningCovers ord eord attrs := by
  intro hcovers
  let serial : Session := { session with inParallelMode := false }
  have hserial : planColumns pg serial attrs = .ok planned := hplan
  obtain ⟨s, hbuilt, hfresh⟩ := buildLeafSummary_nil serial rfl hserial
  have hentries : SummaryCovers ord eord attrs s (rowValues {row | row ∈ []}) :=
    buildLeafSummary_covers hbuilt
  have hmap : (summarized attrs).map IndexAttr.attnum = s.cols.map ColSummary.attnum :=
    Lib.Aligned.forall₂_map_eq (fun _ _ hac => hac.1.attnum.symm) hentries
  let nulls : Row D := fun _ => none
  have hnone : ∀ a ∈ summarized attrs, a.value nulls = none := fun a ha =>
    a.value_of_pos (mem_summarized.mp ha).2 nulls
  obtain ⟨⟨cols, changed⟩, hcols⟩ : ∃ r, widenSummaryFrom pg serial.guc.pin
      (indexTuple attrs nulls) 0 attrs s.cols = .ok r := by
    refine widenSummaryFrom_nulls (fun i a ha hpos => ?_) fun n hn => ?_
    · rw [Nat.zero_add, indexTuple, ha]
      exact a.value_of_pos hpos nulls
    · rw [← hmap] at hn
      obtain ⟨a, ha, rfl⟩ := List.mem_map.mp hn
      exact (mem_summarized.mp ha).2
  have hwiden : widenStable pg serial attrs nulls s = .ok (⟨cols⟩, changed) := by
    rw [widenStable, withStableIo_of_not_parallel _ rfl]
    simp only [widenSummary, hcols, bind, Except.bind]
  have hrepeated' : ¬(s.cols.map ColSummary.attnum).Nodup := by
    rw [← hmap]
    exact hrepeated
  obtain ⟨before, c, after, hc, hshadow⟩ := exists_shadowed hrepeated'
  rw [hc] at hcols
  have hmem : c ∈ cols := widenSummaryFrom_shadowed hshadow hcols
  have hnew := hcovers s ⟨cols⟩ [] ∅ serial nulls changed (.build hbuilt)
    (hentries.imp fun _ _ _ v hv => by simp [rowValues] at hv) hwiden
  obtain ⟨a, ha, hac⟩ := Lib.Aligned.forall₂_mem_right hnew c hmem
  have hcover : c.hasNulls = true := hac none ⟨nulls, Or.inl rfl, hnone a ha⟩
  obtain ⟨_, -, hnulls, -⟩ := Lib.Aligned.forall₂_mem_right hfresh c (by simp [hc])
  rw [hnulls] at hcover
  cases hcover

end

/-- For an index whose columns can be planned, every insert keeps every entry
covering exactly when no heap column is listed twice. -/
theorem wideningCovers_iff (io : pg.TextRoundTrip) (ord : pg.BtreeOrder) (eord : pg.ExtentOrder)
    {session : Session} {attrs : List (IndexAttr D)} {planned : List (ColumnBuild D)}
    (hplan : planColumns pg session attrs = .ok planned) :
    WideningCovers ord eord attrs ↔ DistinctColumns attrs := by
  constructor
  · intro hcovers
    by_contra hrepeated
    exact not_wideningCovers_of_repeated hplan hrepeated hcovers
  · exact wideningCovers_of_distinct io

section Mini

/-- The index on the one column. -/
theorem wideningCovers_iff_int4 :
    let pg := Mini.pg fun _ _ n => n
    WideningCovers (Mini.order fun _ _ n => n) pg.noExtents Mini.index.attrs ↔
      DistinctColumns Mini.index.attrs := by
  intro pg
  have hplan : planColumns pg Mini.session Mini.index.attrs = .ok
      [{ indexPos := 0, attnum := 1, typ := Mini.int4, typeName := "pg_catalog.int4"
         collation := invalidOid, nonnull := 0, nulls := 0,
         acc := .minMax Mini.int4 none none }] := rfl
  exact wideningCovers_iff (Mini.textRoundTrip _) (Mini.order _) pg.noExtents hplan

/-- Collation 2 sorts backwards. -/
def byCollation : Oid → Oid → Int → Int := fun _ collation n => if collation = 2 then -n else n

/-- The one column under two collations. -/
def twoCollations : List (IndexAttr Int) :=
  [{ attnum := 1, typ := Mini.int4, collation := 1, expr := fun _ => none },
    { attnum := 1, typ := Mini.int4, collation := 2, expr := fun _ => none }]

/-- The entry of the one column under a collation. -/
def collatedEntry (collation : Oid) (lo hi : Int) : ColSummary :=
  { Mini.entry lo hi with collation }

/-- The table `{5}` and an insert of 7: the first entry of the column, which the
planner consults, becomes `[7, 7]` and loses the stored 5. -/
theorem not_wideningCovers_twoCollations :
    let pg := Mini.pg byCollation
    let s : IndexSummary := ⟨[collatedEntry 1 5 5, collatedEntry 2 5 5]⟩
    let s' : IndexSummary := ⟨[collatedEntry 1 7 7, collatedEntry 2 5 5]⟩
    buildLeafSummary pg Mini.session twoCollations [Mini.row 5] = .ok s ∧
      EntriesCover (Mini.order byCollation) pg.noExtents twoCollations s {Mini.row 5} ∧
      widenStable pg Mini.session twoCollations (Mini.row 7) s = .ok (s', true) ∧
      (∀ a ∈ twoCollations.head?, ∀ c ∈ s'.cols.head?,
        ¬Covers (Mini.order byCollation) pg.noExtents a c (a.value (Mini.row 5))) ∧
      ¬WideningCovers (Mini.order byCollation) pg.noExtents twoCollations := by
  intro pg s s'
  have hbuilt : buildLeafSummary pg Mini.session twoCollations [Mini.row 5] = .ok s := rfl
  have hwiden : widenStable pg Mini.session twoCollations (Mini.row 7) s = .ok (s', true) := rfl
  have hstored : EntriesCover (Mini.order byCollation) pg.noExtents twoCollations s {Mini.row 5} :=
    (buildLeafSummary_covers hbuilt).imp fun a c hac v hv =>
      hac.2 v (rowValues_mono (fun row hrow => by simpa using hrow) a hv)
  have hlost : ∀ a ∈ twoCollations.head?, ∀ c ∈ s'.cols.head?,
      ¬Covers (Mini.order byCollation) pg.noExtents a c (a.value (Mini.row 5)) := by
    rintro a ⟨⟩ c ⟨⟩ ⟨-, hunb | hin⟩
    · cases hunb
    · obtain ⟨t, -, lo, -, ht, -, hlo, -, hle, -⟩ := hin.inRange rfl
      obtain rfl := Option.some.inj ht
      have hlo7 : lo = 7 := by
        rw [← Mini.parse_text lo, ← (Mini.renders _ hlo).2, Mini.parse_text]
      rw [hlo7] at hle
      exact absurd (show (7 : Int) ≤ 5 from hle) (by decide)
  refine ⟨hbuilt, hstored, hwiden, hlost, fun hcovers => ?_⟩
  have hnew := hcovers s s' [Mini.row 5] {Mini.row 5} Mini.session (Mini.row 7) true (.build hbuilt)
    hstored hwiden
  cases hnew with
  | cons hfirst _ => exact hlost _ rfl _ rfl (hfirst _ ⟨Mini.row 5, Or.inr rfl, rfl⟩)

end Mini

end TableRange
