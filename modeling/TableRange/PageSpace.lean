import TableRange.Classification
import TableRange.Coverage.FirstEntry
import TableRange.WellFormed

/-!
# The space on the page

An insert replaces the page's summary, and `encode_fitting` makes room by dropping
bounds.  It never drops bounds that are empty texts: they have no length, although
each of them takes two bytes more than an absent one.  So an index whose build just
fits can run out of space when empty texts are inserted.

`insertsFit_iff` says how much space an index needs for that never to happen.
-/

namespace TableRange

open Lib.Fallible

variable {D : Type} {pg : Pg D}

/-! ## Runs of inserts -/

/-- One call of `am_insert`, by any session and with any row, that returns or
fails. -/
def InsertStep (pg : Pg D) (attrs : List (IndexAttr D)) (file file' : IndexFile) : Prop :=
  ∃ session row r, AmInsert pg session attrs row file r file'

/-- However many rows are inserted, the next swap has bytes that fit, and does not
report a size error. -/
def InsertsFit (pg : Pg D) (attrs : List (IndexAttr D)) (file : IndexFile) : Prop :=
  ∀ file', Relation.ReflTransGen (InsertStep pg attrs) file file' →
    ∀ (session : Session) (row : Row D) (before after : Bytes),
      widenAttempt pg session attrs row (readBlob file') = .ok (.swap before after) →
      after.length ≤ maxBlobLen ∧ ∃ swapped, (replaceBlobIf file' before after).1 = .ok swapped

/-- The page holds the encoding of a maintained summary. -/
structure OnPage (pg : Pg D) (attrs : List (IndexAttr D)) (file : IndexFile) (s : IndexSummary) :
    Prop where
  blob : readBlob file = some (serialize s)
  fits : (serialize s).length ≤ maxBlobLen
  maintained : ∃ rows, Maintained pg attrs s rows

theorem OnPage.deserialize {attrs : List (IndexAttr D)} {file : IndexFile} {s : IndexSummary}
    (h : OnPage pg attrs file s) : TableRange.deserialize (serialize s) = some s :=
  deserialize_of_fits h.fits

/-- The build leaves such a page. -/
theorem amBuild_onPage {session : Session} {index : IndexDef D} {file file' : IndexFile}
    {rows : List (Row D)} (h : amBuild pg session index file rows = .ok file') :
    ∃ s, OnPage pg index.attrs file' s := by
  unfold amBuild at h
  split at h
  · cases h
  · obtain ⟨built, hbuilt, h⟩ := bind_eq_ok.mp h
    split at h
    · rename_i file₁ hwrite
      cases h
      have hfits : (encodeFitting built).2.length ≤ maxBlobLen := by
        unfold writeSummary writeBlob at hwrite
        split at hwrite
        · assumption
        · cases hwrite
      rw [encodeFitting_bytes] at hfits
      refine ⟨(encodeFitting built).1, ?_, hfits, rows, .fit (.build hbuilt)⟩
      rw [← encodeFitting_bytes]
      exact readBlob_writeBlob (encodeFitting_ne_nil built) hwrite
    · cases h

/-- What a pass swaps is the fitted encoding of the widened summary. -/
theorem OnPage.swap {attrs : List (IndexAttr D)} {file : IndexFile} {s : IndexSummary}
    (hpage : OnPage pg attrs file s) {session : Session} {row : Row D} {before after : Bytes}
    (h : widenAttempt pg session attrs row (readBlob file) = .ok (.swap before after)) :
    before = serialize s ∧ ∃ w, widenStable pg session attrs row s = .ok (w, true) ∧
      after = (encodeFitting w).2 := by
  obtain ⟨hblob, s', w, hs', hwiden, rfl⟩ := widenAttempt_swap_bytes h
  obtain rfl : serialize s = before := Option.some.inj (hpage.blob.symm.trans hblob)
  obtain rfl : s = s' := Option.some.inj (hpage.deserialize.symm.trans hs')
  exact ⟨rfl, w, hwiden, rfl⟩

/-- An insert leaves the page as it is, or replaces the summary by the widened one
and fits it. -/
theorem OnPage.insert {attrs : List (IndexAttr D)} {file file' : IndexFile} {s : IndexSummary}
    (hpage : OnPage pg attrs file s) {session : Session} {row : Row D} {r : PgResult Unit}
    (h : AmInsert pg session attrs row file r file') :
    file' = file ∨ ∃ w, widenStable pg session attrs row s = .ok (w, true) ∧
      OnPage pg attrs file' (encodeFitting w).1 := by
  have hpass {r : PgResult Bool} {file' : IndexFile}
      (h : widenPass pg session attrs row file = (r, file')) :
      file' = file ∨ (r = .ok true ∧ ∃ w, widenStable pg session attrs row s = .ok (w, true) ∧
        OnPage pg attrs file' (encodeFitting w).1) := by
    unfold widenPass at h
    split at h
    · cases h
      exact Or.inl rfl
    · cases h
      exact Or.inl rfl
    · rename_i before after hswap
      obtain ⟨rfl, w, hwiden, rfl⟩ := hpage.swap hswap
      obtain ⟨rows, hs⟩ := hpage.maintained
      rcases replaceBlobIf_cases file (serialize s) (encodeFitting w).2 with ⟨-, he⟩ | ⟨-, -, he⟩ |
        ⟨hfits, -, page, he, hread⟩
      · cases he.symm.trans h
        exact Or.inl rfl
      · cases he.symm.trans h
        exact Or.inl rfl
      · cases he.symm.trans h
        have hblob : readBlob (some page) = some (encodeFitting w).2 :=
          hread (encodeFitting_ne_nil w)
        rw [encodeFitting_bytes] at hblob hfits
        exact Or.inr ⟨rfl, w, hwiden, hblob, hfits, _, .fit (.insert hs hwiden)⟩
  induction h with
  | done h => exact (hpass h).imp_right fun h => h.2
  | error h =>
      rcases hpass h with heq | ⟨hno, -⟩
      · exact Or.inl heq
      · cases hno
  | retry h _ ih =>
      rcases hpass h with rfl | ⟨hno, -⟩
      · exact ih hpage hpass
      · cases hno

/-- Whatever is inserted, the page keeps a maintained summary. -/
theorem OnPage.of_run {attrs : List (IndexAttr D)} {file file' : IndexFile} {s : IndexSummary}
    (hpage : OnPage pg attrs file s)
    (h : Relation.ReflTransGen (InsertStep pg attrs) file file') :
    ∃ s', OnPage pg attrs file' s' := by
  induction h with
  | refl => exact ⟨s, hpage⟩
  | tail _ hstep ih =>
      obtain ⟨s₁, hpage₁⟩ := ih
      obtain ⟨session, row, r, hinsert⟩ := hstep
      rcases hpage₁.insert hinsert with rfl | ⟨w, -, hpage'⟩
      · exact ⟨s₁, hpage₁⟩
      · exact ⟨_, hpage'⟩

/-- A row that widens the summary is inserted when the result fits. -/
theorem OnPage.exists_insert {attrs : List (IndexAttr D)} {file : IndexFile} {s w : IndexSummary}
    (hpage : OnPage pg attrs file s) {session : Session} {row : Row D}
    (hwiden : widenStable pg session attrs row s = .ok (w, true))
    (hfits : (encodeFitting w).2.length ≤ maxBlobLen) :
    ∃ file', InsertStep pg attrs file file' ∧ OnPage pg attrs file' (encodeFitting w).1 := by
  have hattempt : widenAttempt pg session attrs row (readBlob file) =
      .ok (.swap (serialize s) (encodeFitting w).2) := by
    simp [widenAttempt, hpage.blob, hpage.deserialize, hwiden, bind, Except.bind]
  rcases replaceBlobIf_cases file (serialize s) (encodeFitting w).2 with ⟨hbig, -⟩ | ⟨-, hno, -⟩ |
    ⟨-, -, page, hswap, hread⟩
  · omega
  · exact absurd hpage.blob hno
  · obtain ⟨rows, hs⟩ := hpage.maintained
    have hblob : readBlob (some page) = some (encodeFitting w).2 := hread (encodeFitting_ne_nil w)
    rw [encodeFitting_bytes] at hblob hfits
    refine ⟨some page, ⟨session, row, .ok (), .done ?_⟩, hblob, hfits, _, .fit (.insert hs hwiden)⟩
    rw [widenPass, hattempt]
    exact hswap

/-! ## Extents are never empty texts -/

/-- The text of a range, of a geometry and of an extent is not empty. -/
structure Pg.ExtentTexts (pg : Pg D) : Prop where
  renders : ∀ {typ : Oid} {t : String} {v : D}, (planAccumulator pg typ).kind = .range ∨
    (planAccumulator pg typ).kind = .geometry → pg.Renders typ t v → t ≠ ""
  extentQuery : ∀ {typ : Oid} {tn : String} {texts : List String}, pg.HasTypeName typ tn →
    pg.spiValue (extentQuery (geometrySchema tn) tn texts) ≠ .ok (some "")
  flushQuery : ∀ {typ : Oid} {tn : String} {ds : List D} {value : Option Bytes},
    pg.HasTypeName typ tn →
    pg.spiExecuteWithArgs (flushQuery (geometrySchema tn) tn) ds = .ok value →
    value.bind fromUtf8 ≠ some ""

/-- The extent of a geometry accumulator is no empty text. -/
def Accumulator.ExtentText : Accumulator D → Prop
  | .geometry _ extent => extent ≠ some ""
  | _ => True

theorem planAccumulator_extentText (pg : Pg D) (typ : Oid) :
    (planAccumulator pg typ).ExtentText := by
  rcases planAccumulator_cases pg typ with h | h | h | ⟨cmp, h⟩ <;> rw [h] <;>
    simp [Accumulator.ExtentText]

theorem flushGeometry_extentText (texts : pg.ExtentTexts) {g : Guc} {typ : Oid}
    {col col' : ColumnBuild D} (hcol : col.acc.ExtentText)
    (h : flushGeometry pg g col = .ok col') (htypeName : pg.HasTypeName typ col.typeName) :
    col'.acc.ExtentText := by
  unfold flushGeometry at h
  split at h
  · obtain ⟨batch', -, h⟩ := bind_eq_ok.mp h
    split at h
    · cases h
      exact hcol
    · obtain ⟨result, hresult, h⟩ := bind_eq_ok.mp h
      cases h
      exact texts.flushQuery htypeName hresult
  · cases h
    exact hcol

theorem buildColumn_extentText (texts : pg.ExtentTexts) {g : Guc} {typ : Oid}
    {tuple : Nat → Option D} {col col' : ColumnBuild D}
    (htypeName : pg.HasTypeName typ col.typeName) (hcol : col.acc.ExtentText)
    (h : buildColumn pg g tuple col = .ok col') : col'.acc.ExtentText := by
  unfold buildColumn at h
  split at h
  · cases h
    exact hcol
  · unfold addValue at h
    split at h
    · obtain ⟨below, -, h⟩ := bind_eq_ok.mp h
      obtain ⟨above, -, h⟩ := bind_eq_ok.mp h
      cases h
      trivial
    · cases h
      trivial
    · cases h
      trivial
    · obtain ⟨merged, -, h⟩ := bind_eq_ok.mp h
      cases h
      trivial
    · rename_i batch extent hacc
      have hacc : col.acc = .geometry batch extent := hacc
      rw [hacc] at hcol
      have hpushed (batch : List D) : (Accumulator.geometry batch extent).ExtentText := hcol
      split at h
      · exact flushGeometry_extentText texts (hpushed _) h htypeName
      · cases h
        exact hpushed _
    · cases h
      exact hcol

theorem finishColumn_extentText (texts : pg.ExtentTexts) {g : Guc} (hg : g.Stable)
    {attrs : List (IndexAttr D)} {a : IndexAttr D} {seen : List (Option D)} {col : ColumnBuild D}
    {out : ColSummary} (hcount : Counted pg attrs a seen col) (hcol : col.acc.ExtentText)
    (h : finishColumn pg g col = .ok out) : out.overlap = true → out.min ≠ some "" := by
  obtain ⟨flushed, overlap, min, max, unbounded, hflush, hrender, rfl⟩ := finishColumn_cases h
  have hflushed := flushGeometry_extentText texts hcol hflush hcount.planned.typeName
  have hcount' := hcount.of_same (flushGeometry_same hflush)
  have hmin : overlap = true → min ≠ some "" := by
    intro hov
    unfold renderBounds at hrender
    split at hrender
    · obtain ⟨lot, -, hrender⟩ := bind_eq_ok.mp hrender
      obtain ⟨hit, -, hrender⟩ := bind_eq_ok.mp hrender
      cases hrender
      cases hov
    · rename_i extent hacc
      obtain ⟨text, htext, hrender⟩ := bind_eq_ok.mp hrender
      cases hrender
      rintro rfl
      have hkind : (planAccumulator pg a.typ).kind = .range := by rw [← hcount'.kind, hacc]; rfl
      cases extent with
      | none => cases htext
      | some e => exact texts.renders (Or.inl hkind) ⟨g, hg, hcount'.planned.typ ▸ htext⟩ rfl
    · rename_i batch extent hacc
      cases hrender
      rw [hacc] at hflushed
      exact hflushed
    · cases hrender
      cases hov
  unfold ColumnBuild.settle
  split
  · exact fun _ => nofun
  · exact hmin

theorem widenColumn_extentText (texts : pg.ExtentTexts) {g : Guc} (hg : g.Stable) {a : IndexAttr D}
    {c c' : ColSummary} {value : Option D} {changed : Bool} (hkind : EntryKind pg a c)
    (hc : c.overlap = true → c.min ≠ some "")
    (h : widenColumn pg g c a.typ a.collation value = .ok (c', changed)) :
    c'.overlap = true → c'.min ≠ some "" := by
  cases value with
  | none =>
      simp only [widenColumn] at h
      split at h <;> cases h <;> exact hc
  | some value =>
      simp only [widenColumn] at h
      split at h
      · cases h
        exact hc
      · obtain ⟨widened, hwidened, h⟩ := bind_eq_ok.mp h
        cases widened with
        | none =>
            cases h
            simp [ColSummary.makeUnbounded]
        | some r =>
            obtain ⟨w, ch⟩ := r
            cases h
            intro hov'
            have hov : c.overlap = true := by rw [← hov', widenBounds_frame hwidened]
            simp only [widenBounds, hov, if_true] at hwidened
            obtain ⟨extent, hextent, hwidened⟩ := bind_eq_ok.mp hwidened
            cases extent with
            | none => cases hwidened
            | some extent =>
                cases extent with
                | none =>
                    cases hwidened
                    exact hc hov
                | some w =>
                    have hw : w ≠ "" := by
                      unfold extentWith at hextent
                      split at hextent
                      · obtain ⟨text, -, hextent⟩ := bind_eq_ok.mp hextent
                        cases text with
                        | none => cases hextent
                        | some text =>
                            obtain ⟨found, hfound, hextent⟩ := bind_eq_ok.mp hextent
                            cases hextent
                            rintro rfl
                            exact texts.extentQuery hkind.typeName hfound
                      · obtain ⟨merged, -, hextent⟩ := bind_eq_ok.mp hextent
                        cases merged with
                        | none => cases hextent
                        | some merged =>
                            obtain ⟨text, htext, hextent⟩ := bind_eq_ok.mp hextent
                            cases text with
                            | none => cases hextent
                            | some text =>
                                cases hextent
                                exact texts.renders (hkind.overlap.mp hov) ⟨g, hg, htext⟩
                    simp only at hwidened
                    split at hwidened
                    · cases hwidened
                      simpa using hw
                    · cases hwidened
                      exact hc hov

/-- The stored extent of an entry is no empty text. -/
theorem Maintained.extentText (texts : pg.ExtentTexts) {attrs : List (IndexAttr D)}
    (hdistinct : DistinctColumns attrs) {s : IndexSummary} {rows : List (Row D)}
    (h : Maintained pg attrs s rows) :
    List.Forall₂ (fun a c => c.attnum = a.attnum ∧ EntryKind pg a c ∧
      (c.overlap = true → c.min ≠ some "")) (summarized attrs) s.cols := by
  induction h with
  | build h =>
      refine buildLeafSummary_forall₂ (R := fun a seen col => Counted pg attrs a seen col ∧
          col.acc.ExtentText)
        (Q := fun a seen c => c.attnum = a.attnum ∧ EntryKind pg a c ∧
          (c.overlap = true → c.min ≠ some ""))
        (fun a _ hplan hfresh => ⟨hfresh.counted hplan,
          hfresh.acc ▸ planAccumulator_extentText pg a.typ⟩)
        (fun _ _ _ _ _ _ hcol hstep => ⟨buildColumn_counted hcol.1 hstep,
          buildColumn_extentText texts hcol.1.planned.typeName hcol.2 hstep⟩)
        (fun g a seen col out hg hcol hout => ⟨?_, finishColumn_entryKind hcol.1 hout, ?_⟩) h
      · exact (finishColumn_counts hout).1.trans hcol.1.planned.attnum
      · exact finishColumn_extentText texts hg hcol.1 hcol.2 hout
  | insert _ h ih =>
      refine (widenSummary_forall₂ (fun _ _ hac => hac.1) (fun a c c' changed hac hc => ?_)
        hdistinct
        ih (widenStable_eq_ok h)).1
      have hsame := widenColumn_sameColumn hc
      exact ⟨hsame.attnum.trans hac.1, hac.2.1.of_same hsame,
        widenColumn_extentText texts (Guc.pin_stable _) hac.2.1 hac.2.2 hc⟩
  | fit _ ih =>
      refine Lib.Aligned.forall₂_comp (fun a c c' hac hdrop => ?_) ih (encodeFitting_dropped _)
      rcases hdrop with rfl | ⟨-, rfl⟩
      · exact hac
      · exact ⟨hac.1, hac.2.1.of_same ⟨rfl, rfl, rfl, rfl, fun _ => rfl⟩, fun _ => nofun⟩

/-! ## The room an index needs -/

/-- The length of the type name in the column's entry. -/
def typeNameLen (s : IndexSummary) (attnum : Int16) : Nat :=
  ((firstEntry s.cols attnum).map fun c => (utf8Bytes c.typeName).length).getD 0

/-- The btree bounds of the entry have no text, because they are absent or empty,
and a value of the column can be rendered as an empty text. -/
structure MayHoldEmpty (pg : Pg D) (a : IndexAttr D) (c : ColSummary) : Prop where
  overlap : c.overlap = false
  unbounded : c.unbounded = false
  noText : c.boundLen = 0
  value : ∃ v, pg.Renders a.typ "" v

/-- The column's entry may come to hold two empty texts. -/
def MayTurnEmpty (pg : Pg D) (s : IndexSummary) (a : IndexAttr D) : Prop :=
  ∃ c ∈ s.cols, c.attnum = a.attnum ∧ MayHoldEmpty pg a c

open Classical in
/-- The bytes that an entry of the column can come to take when everything that can
be dropped is dropped. -/
noncomputable def columnNeeds (pg : Pg D) (s : IndexSummary) (a : IndexAttr D) : Nat :=
  12 + typeNameLen s a.attnum + if MayTurnEmpty pg s a then 4 else 0

noncomputable def roomNeeded (pg : Pg D) (attrs : List (IndexAttr D)) (s : IndexSummary) : Nat :=
  3 + ((summarized attrs).map (columnNeeds pg s)).sum

/-- A text without bytes is empty. -/
theorem eq_empty_of_utf8Bytes {t : String} (h : (utf8Bytes t).length = 0) : t = "" := by
  have hnil : utf8Bytes t = utf8Bytes "" := List.eq_nil_of_length_eq_zero h
  have hsome : some t = some "" := by rw [← fromUtf8_utf8Bytes t, hnil, fromUtf8_utf8Bytes]
  exact Option.some.inj hsome

/-- Bounds without text are absent or empty. -/
theorem ColSummary.bounds_of_noText {c : ColSummary} (h : c.boundLen = 0) :
    (c.min = none ∨ c.min = some "") ∧ (c.max = none ∨ c.max = some "") := by
  have hempty {t : Option String} (ht : optLen t = 0) : t = none ∨ t = some "" := by
    cases t with
    | none => exact Or.inl rfl
    | some t => exact Or.inr (congrArg some (eq_empty_of_utf8Bytes ht))
  rw [ColSummary.boundLen, Nat.add_eq_zero_iff] at h
  exact ⟨hempty h.1, hempty h.2⟩

/-- What is known of every entry of a maintained summary. -/
structure EntryState (ord : pg.BtreeOrder) (a : IndexAttr D) (c : ColSummary) : Prop where
  entry : EntryOf pg a c
  unbounded : c.unbounded = true → c.min = none ∧ c.max = none
  extent : c.overlap = true → c.max = none ∧ c.min ≠ some ""
  paired : c.overlap = false → (c.min = none ↔ c.max = none)
  inOrder : InOrder ord a c

variable {ord : pg.BtreeOrder}

variable (ord) in
theorem Maintained.entryState (io : pg.TextRoundTrip) (texts : pg.ExtentTexts)
    {attrs : List (IndexAttr D)} (hdistinct : DistinctColumns attrs) {s : IndexSummary}
    {rows : List (Row D)} (h : Maintained pg attrs s rows) :
    List.Forall₂ (EntryState ord) (summarized attrs) s.cols := by
  have hall := Lib.Aligned.forall₂_and (h.wellFormed hdistinct)
    (Lib.Aligned.forall₂_and (h.extentText texts hdistinct)
      (h.covers ord pg.noExtents io hdistinct))
  refine hall.imp fun a c ⟨⟨_, hwell⟩, ⟨_, _, hmin⟩, hentry, hcovers⟩ => ?_
  refine ⟨hentry, hwell.unbounded, fun hov => ⟨hwell.extent hov, hmin hov⟩, hwell.paired, ?_⟩
  refine hwell.inOrder fun v hv => ?_
  obtain ⟨row, hrow, rfl⟩ := List.mem_map.mp hv
  exact hcovers _ ⟨row, hrow, rfl⟩

/-- The entry of a column that the index lists once. -/
theorem typeNameLen_eq {attrs : List (IndexAttr D)} (hdistinct : DistinctColumns attrs)
    {s : IndexSummary}
    (hattnums : List.Forall₂ (fun a c => c.attnum = a.attnum) (summarized attrs) s.cols)
    {c : ColSummary} (hc : c ∈ s.cols) :
    typeNameLen s c.attnum = (utf8Bytes c.typeName).length := by
  have hsome : (firstEntry s.cols c.attnum).isSome = true :=
    List.find?_isSome.mpr ⟨c, hc, beq_self_eq_true c.attnum⟩
  obtain ⟨c', hc'⟩ := Option.isSome_iff_exists.mp hsome
  have hattnum : c'.attnum = c.attnum := by simpa using List.find?_some hc'
  obtain rfl : c' = c := entry_unique hdistinct hattnums (List.mem_of_find?_eq_some hc') hc
    hattnum
  rw [typeNameLen, hc', Option.map_some, Option.getD_some]

/-- Entries that keep their columns and type names. -/
theorem typeNameLen_congr {cols cols' : List ColSummary}
    (h : List.Forall₂ (fun c c' => c'.attnum = c.attnum ∧ c'.typeName = c.typeName) cols cols')
    (attnum : Int16) : typeNameLen ⟨cols'⟩ attnum = typeNameLen ⟨cols⟩ attnum := by
  unfold typeNameLen firstEntry
  induction h with
  | nil => rfl
  | cons hsame _ ih =>
      simp only [List.find?_cons, hsame.1]
      split
      · simp [hsame.2]
      · exact ih

theorem typeNameLen_widenStable {session : Session} {attrs : List (IndexAttr D)} {row : Row D}
    {s w : IndexSummary} {changed : Bool}
    (h : widenStable pg session attrs row s = .ok (w, changed)) (attnum : Int16) :
    typeNameLen w attnum = typeNameLen s attnum := by
  obtain ⟨⟨cols, _⟩, hcols, h⟩ := bind_eq_ok.mp (widenStable_eq_ok h)
  cases h
  exact typeNameLen_congr ((widenSummaryFrom_sameColumn hcols).imp fun _ _ hsame =>
    ⟨hsame.attnum, hsame.typeName⟩) attnum

theorem typeNameLen_encodeFitting (s : IndexSummary) (attnum : Int16) :
    typeNameLen (encodeFitting s).1 attnum = typeNameLen s attnum := by
  refine typeNameLen_congr ((encodeFitting_dropped s).imp fun c c' hdrop => ?_) attnum
  rcases hdrop with rfl | ⟨-, rfl⟩ <;> exact ⟨rfl, rfl⟩

open Classical in
/-- What is left of an entry when everything that can be dropped is. -/
theorem EntryState.leastLen_le {a : IndexAttr D} {c : ColSummary} (h : EntryState ord a c) :
    c.leastLen ≤ 12 + (utf8Bytes c.typeName).length + if MayHoldEmpty pg a c then 4 else 0 := by
  have hnone : (putOptStr none).length = 1 := rfl
  have hempty : (putOptStr (some "")).length = 3 := rfl
  unfold ColSummary.leastLen
  split
  · rw [putCol_length, show c.makeUnbounded.min = none from rfl,
      show c.makeUnbounded.max = none from rfl, show c.makeUnbounded.typeName = c.typeName from rfl]
    omega
  · rename_i hpos
    have hlen : c.boundLen = 0 := by omega
    obtain ⟨hmin, hmax⟩ := ColSummary.bounds_of_noText hlen
    rw [putCol_length]
    cases hov : c.overlap with
    | true =>
        obtain ⟨hmax, hmin'⟩ := h.extent hov
        rw [hmin.resolve_right hmin', hmax]
        omega
    | false =>
        rcases hmin with hmin | hmin
        · rw [hmin, (h.paired hov).mp hmin]
          omega
        · have hunb : c.unbounded = false := by
            by_contra hno
            have habsent := (h.unbounded (eq_true_of_ne_false hno)).1
            rw [hmin] at habsent
            cases habsent
          have hmay : MayHoldEmpty pg a c := ⟨hov, hunb, hlen, h.entry.min hov "" hmin⟩
          rw [if_pos hmay, hmin]
          rcases hmax with hmax | hmax <;> rw [hmax] <;> omega

/-- Dropping bounds changes nothing about what an entry may hold. -/
theorem mayHoldEmpty_droppedTo {a : IndexAttr D} {c c' : ColSummary} (h : DroppedTo c c') :
    MayHoldEmpty pg a c' ↔ MayHoldEmpty pg a c := by
  rcases h with rfl | ⟨hpos, rfl⟩
  · rfl
  · constructor
    · intro hno
      exact absurd hno.unbounded (by simp [ColSummary.makeUnbounded])
    · intro hno
      exact absurd hno.noText (by omega)

variable (ord) in
/-- The fold of a value into bounds in order: when both of the new ones have the empty
text, a value taken for one of them equals the other, so neither was taken. -/
theorem noText_of_widened_noText (io : pg.TextRoundTrip) {a : IndexAttr D} {value lo hi : D}
    {newText s t : String} (hnew : pg.Renders a.typ newText value) (hlo : pg.Renders a.typ s lo)
    (hhi : pg.Renders a.typ t hi) (hle : (columnOrder ord a.typ a.collation).le lo hi)
    {below above : Int} (hlow : below < 0 ↔ (columnOrder ord a.typ a.collation).lt value lo)
    (hhigh : 0 < above ↔ (columnOrder ord a.typ a.collation).lt hi value)
    (hmin : (if below < 0 then newText else s) = "")
    (hmax : (if 0 < above then newText else t) = "") : s = "" ∧ t = "" := by
  let _ := columnOrder ord a.typ a.collation
  have hkeptLow : ¬below < 0 := by
    intro hb
    have hlt := hlow.mp hb
    rw [if_pos hb] at hmin
    by_cases ha : 0 < above
    · exact lt_irrefl _ (lt_of_lt_of_le (lt_of_lt_of_le hlt hle) (le_of_lt (hhigh.mp ha)))
    · rw [if_neg ha] at hmax
      have hsame : value = hi := io.unique (hmin ▸ hnew) (hmax ▸ hhi)
      exact lt_irrefl _ (hsame ▸ lt_of_lt_of_le hlt hle)
  rw [if_neg hkeptLow] at hmin
  have hkeptHigh : ¬0 < above := by
    intro ha
    have hlt := hhigh.mp ha
    rw [if_pos ha] at hmax
    have hsame : value = lo := io.unique (hmax ▸ hnew) (hmin ▸ hlo)
    exact lt_irrefl _ (hsame ▸ lt_of_le_of_lt hle hlt)
  rw [if_neg hkeptHigh] at hmax
  exact ⟨hmin, hmax⟩

/-- A fold of a value does not empty bounds that have text: the two bounds are in
order, and a text is the form of one value only. -/
theorem EntryState.mayHoldEmpty_of_widen (io : pg.TextRoundTrip) {g : Guc} (hg : g.Stable)
    {a : IndexAttr D} {c c' : ColSummary} {value : Option D} {changed : Bool}
    (h : EntryState ord a c)
    (hwiden : widenColumn pg g c a.typ a.collation value = .ok (c', changed))
    (hempty : MayHoldEmpty pg a c') : MayHoldEmpty pg a c := by
  cases value with
  | none =>
      simp only [widenColumn] at hwiden
      split at hwiden
      · cases hwiden
        exact ⟨hempty.overlap, hempty.unbounded, hempty.noText, hempty.value⟩
      · cases hwiden
        exact hempty
  | some value =>
      simp only [widenColumn] at hwiden
      split at hwiden
      · rename_i hunb
        cases hwiden
        exact absurd (hempty.unbounded.symm.trans hunb) (by decide)
      · rename_i hunb
        obtain ⟨widened, hwidened, hwiden⟩ := bind_eq_ok.mp hwiden
        cases widened with
        | none =>
            cases hwiden
            exact absurd hempty.unbounded (by simp [ColSummary.makeUnbounded])
        | some r =>
            obtain ⟨w, ch⟩ := r
            cases hwiden
            have hov : c.overlap = false := by rw [← hempty.overlap, widenBounds_frame hwidened]
            refine ⟨hov, by simpa using hunb, ?_, hempty.value⟩
            simp only [widenBounds, hov, Bool.false_eq_true, if_false] at hwidened
            obtain ⟨newText, htext, ⟨hmin, hmax, -, -⟩ |
                ⟨s, t, cmp, loD, hiD, below, above, hmin, hmax, hcmp, hloD, hhiD, hbelow, habove,
                  -, rfl⟩⟩ := widenMinmax_cases hwidened
            · -- the first value
              have hmin : c.min = none := hmin
              have hmax : c.max = none := hmax
              simp [ColSummary.boundLen, hmin, hmax]
            · have hmin : c.min = some s := hmin
              have hmax : c.max = some t := hmax
              obtain ⟨lo, hi, hlo, hhi, hle⟩ := h.inOrder s t hov hmin hmax
              obtain rfl : lo = loD :=
                Option.some.inj (Except.ok.inj ((io.read hg hlo).symm.trans hloD))
              obtain rfl : hi = hiD :=
                Option.some.inj (Except.ok.inj ((io.read hg hhi).symm.trans hhiD))
              have hnew : pg.Renders a.typ newText value := ⟨g, hg, htext⟩
              have hlow := compareCall_spec ord hcmp hbelow
              have hhigh := compareCall_spec ord hcmp habove
              rw [h.entry.collation] at hle
              obtain ⟨hmin', hmax'⟩ := ColSummary.bounds_of_noText hempty.noText
              have hmin' : (if below < 0 then newText else s) = "" := by simpa using hmin'
              have hmax' : (if 0 < above then newText else t) = "" := by simpa using hmax'
              obtain ⟨hs, ht⟩ :=
                noText_of_widened_noText ord io hnew hlo hhi hle hlow.1 hhigh.2 hmin' hmax'
              simp [ColSummary.boundLen, hmin, hmax, hs, ht, utf8Bytes]

/-! ## Enough room -/

theorem mayTurnEmpty_encodeFitting {s : IndexSummary} {a : IndexAttr D} :
    MayTurnEmpty pg (encodeFitting s).1 a ↔ MayTurnEmpty pg s a := by
  have hdropped := encodeFitting_dropped s
  have hattnum {c c' : ColSummary} (hdrop : DroppedTo c c') : c'.attnum = c.attnum := by
    rcases hdrop with rfl | ⟨-, rfl⟩ <;> rfl
  constructor
  · rintro ⟨c', hc', ha, hmay⟩
    obtain ⟨c, hc, hdrop⟩ := Lib.Aligned.forall₂_mem_right hdropped c' hc'
    exact ⟨c, hc, (hattnum hdrop).symm.trans ha, (mayHoldEmpty_droppedTo hdrop).mp hmay⟩
  · rintro ⟨c, hc, ha, hmay⟩
    obtain ⟨c', hc', hdrop⟩ := Lib.Aligned.forall₂_mem_left hdropped c hc
    exact ⟨c', hc', (hattnum hdrop).trans ha, (mayHoldEmpty_droppedTo hdrop).mpr hmay⟩

/-- No insert makes a column turn empty that could not before. -/
theorem mayTurnEmpty_of_widen (io : pg.TextRoundTrip) {attrs : List (IndexAttr D)}
    (hdistinct : DistinctColumns attrs) {session : Session} {row : Row D} {s w : IndexSummary}
    {changed : Bool} (hs : List.Forall₂ (EntryState ord) (summarized attrs) s.cols)
    (h : widenStable pg session attrs row s = .ok (w, changed)) {a : IndexAttr D}
    (ha : a ∈ summarized attrs) (hmay : MayTurnEmpty pg w a) : MayTurnEmpty pg s a := by
  have hmem : List.Forall₂ (fun a c => c ∈ s.cols ∧ EntryState ord a c) (summarized attrs) s.cols :=
    Lib.Aligned.forall₂_imp_mem hs fun _ _ _ hc hac => ⟨hc, hac⟩
  have hsteps := (widenSummary_forall₂ (fun _ _ hac => hac.2.entry.attnum)
    (Q := fun a c' => c'.attnum = a.attnum ∧ (MayHoldEmpty pg a c' → MayTurnEmpty pg s a))
    (fun a c c' changed hac hc => ⟨(widenColumn_sameColumn hc).attnum.trans hac.2.entry.attnum,
      fun hempty => ⟨c, hac.1, hac.2.entry.attnum,
        hac.2.mayHoldEmpty_of_widen io (Guc.pin_stable _) hc hempty⟩⟩)
    hdistinct hmem (widenStable_eq_ok h)).1
  obtain ⟨c', hc', hattnum, hempty⟩ := hmay
  obtain ⟨a', ha', hattnum', hturn⟩ := Lib.Aligned.forall₂_mem_right hsteps c' hc'
  obtain rfl : a' = a := List.inj_on_of_nodup_map hdistinct ha' ha (hattnum'.symm.trans hattnum)
  exact hturn hempty

/-- The room that is needed never grows. -/
theorem roomNeeded_mono {attrs : List (IndexAttr D)} {s s' : IndexSummary}
    (hnames : ∀ attnum, typeNameLen s' attnum = typeNameLen s attnum)
    (h : ∀ a ∈ summarized attrs, MayTurnEmpty pg s' a → MayTurnEmpty pg s a) :
    roomNeeded pg attrs s' ≤ roomNeeded pg attrs s := by
  refine Nat.add_le_add_left (List.sum_le_sum fun a ha => ?_) 3
  unfold columnNeeds
  rw [hnames a.attnum]
  by_cases hmay : MayTurnEmpty pg s' a
  · rw [if_pos hmay, if_pos (h a ha hmay)]
  · rw [if_neg hmay]
    omega

/-- What is left of a summary when everything that can be dropped is. -/
theorem leastLen_le_roomNeeded {attrs : List (IndexAttr D)} (hdistinct : DistinctColumns attrs)
    {s : IndexSummary} (hs : List.Forall₂ (EntryState ord) (summarized attrs) s.cols) :
    s.leastLen ≤ roomNeeded pg attrs s := by
  refine Nat.add_le_add_left (List.Forall₂.sum_le_sum ?_) 3
  rw [List.forall₂_map_left_iff, List.forall₂_map_right_iff]
  refine (Lib.Aligned.forall₂_imp_mem hs fun a c ha hc hac => ?_).flip
  have hlen : typeNameLen s a.attnum = (utf8Bytes c.typeName).length := by
    rw [← hac.entry.attnum, typeNameLen_eq hdistinct (hs.imp fun _ _ h => h.entry.attnum) hc]
  have hleast := hac.leastLen_le
  rw [← hlen] at hleast
  refine Nat.le_trans hleast (Nat.add_le_add_left ?_ _)
  by_cases hmay : MayHoldEmpty pg a c
  · rw [if_pos hmay, if_pos ⟨c, hc, hac.entry.attnum, hmay⟩]
  · rw [if_neg hmay]
    exact Nat.zero_le _

/-- Whatever is inserted, the page keeps a maintained summary, and the room that is
needed does not grow. -/
theorem OnPage.run (io : pg.TextRoundTrip) (texts : pg.ExtentTexts) (ord : pg.BtreeOrder)
    {attrs : List (IndexAttr D)} (hdistinct : DistinctColumns attrs) {file file' : IndexFile}
    {s : IndexSummary} (hpage : OnPage pg attrs file s)
    (h : Relation.ReflTransGen (InsertStep pg attrs) file file') :
    ∃ s', OnPage pg attrs file' s' ∧ roomNeeded pg attrs s' ≤ roomNeeded pg attrs s := by
  induction h with
  | refl => exact ⟨s, hpage, Nat.le_refl _⟩
  | tail _ hstep ih =>
      obtain ⟨s₁, hpage₁, hroom⟩ := ih
      obtain ⟨session, row, r, hinsert⟩ := hstep
      rcases hpage₁.insert hinsert with rfl | ⟨w, hwiden, hpage'⟩
      · exact ⟨s₁, hpage₁, hroom⟩
      · obtain ⟨rows, hs₁⟩ := hpage₁.maintained
        have hentries := hs₁.entryState ord io texts hdistinct
        have hnames (n : Int16) : typeNameLen (encodeFitting w).1 n = typeNameLen s₁ n :=
          (typeNameLen_encodeFitting w n).trans (typeNameLen_widenStable hwiden n)
        refine ⟨_, hpage', Nat.le_trans (roomNeeded_mono hnames fun a ha hmay => ?_) hroom⟩
        exact mayTurnEmpty_of_widen io hdistinct hentries hwiden ha
          (mayTurnEmpty_encodeFitting.mp hmay)

/-- With enough room no insert fails for lack of space. -/
theorem insertsFit_of_room (io : pg.TextRoundTrip) (texts : pg.ExtentTexts) (ord : pg.BtreeOrder)
    {attrs : List (IndexAttr D)} (hdistinct : DistinctColumns attrs) {file : IndexFile}
    {s : IndexSummary} (hpage : OnPage pg attrs file s)
    (hroom : roomNeeded pg attrs s ≤ maxBlobLen) : InsertsFit pg attrs file := by
  intro file' hrun session row before after hattempt
  obtain ⟨s', hpage', hroom'⟩ := hpage.run io texts ord hdistinct hrun
  obtain ⟨rfl, w, hwiden, rfl⟩ := hpage'.swap hattempt
  obtain ⟨rows, hs'⟩ := hpage'.maintained
  have hentries := hs'.entryState ord io texts hdistinct
  have hmono : roomNeeded pg attrs w ≤ roomNeeded pg attrs s' :=
    roomNeeded_mono (typeNameLen_widenStable hwiden) fun a ha hmay =>
      mayTurnEmpty_of_widen io hdistinct hentries hwiden ha hmay
  have hleast := leastLen_le_roomNeeded hdistinct
    ((hs'.insert hwiden).entryState ord io texts hdistinct)
  have hfits : (encodeFitting w).2.length ≤ maxBlobLen :=
    (encodeFitting_fits_iff w).mpr (by omega)
  refine ⟨hfits, ?_⟩
  rcases replaceBlobIf_cases file' (serialize s') (encodeFitting w).2 with ⟨hbig, -⟩ | ⟨-, -, he⟩ |
    ⟨-, -, page, he, -⟩
  · omega
  · exact ⟨false, by rw [he]⟩
  · exact ⟨true, by rw [he]⟩

/-! ## Too little room -/

/-- The column's entry has no bounds yet. -/
def AbsentBounds (s : IndexSummary) (a : IndexAttr D) : Prop :=
  ∃ c ∈ s.cols, c.attnum = a.attnum ∧ c.unbounded = false ∧ c.min = none

/-- The first value of a column, rendered as an empty text. -/
theorem widenColumn_empty {g : Guc} {a : IndexAttr D} {c : ColSummary} {v : D}
    (hov : c.overlap = false) (hunb : c.unbounded = false) (hmin : c.min = none)
    (hmax : c.max = none) (hv : pg.datumToText g a.typ v = .ok (some "")) :
    widenColumn pg g c a.typ a.collation (some v) =
      .ok ({ c with allNulls := false, min := some "", max := some "" }, true) := by
  simp [widenColumn, widenBounds, widenMinmax, hov, hunb, hmin, hmax, hv, bind, Except.bind]

/-- A NULL leaves the bounds alone. -/
theorem widenColumn_null (g : Guc) (c : ColSummary) (typ collation : Oid) :
    ∃ changed, widenColumn pg g c typ collation none =
      .ok ({ c with hasNulls := true }, changed) := by
  by_cases hnulls : c.hasNulls = true
  · refine ⟨false, ?_⟩
    have hsame : { c with hasNulls := true } = c := by rw [← hnulls]
    simp [widenColumn, hnulls, hsame]
  · exact ⟨true, by simp [widenColumn, hnulls]⟩

/-- The row that has the empty text in the column `a` and NULL in the others: it gives
`a` its bounds and the others none. -/
theorem widenColumn_singleRow {attrs : List (IndexAttr D)} (hdistinct : DistinctColumns attrs)
    {s : IndexSummary}
    (hattnums : List.Forall₂ (fun a c => c.attnum = a.attnum) (summarized attrs) s.cols)
    {a : IndexAttr D} (ha : a ∈ summarized attrs) {c₀ : ColSummary} (hc₀ : c₀ ∈ s.cols)
    (hattnum : c₀.attnum = a.attnum) (hempty : MayHoldEmpty pg a c₀) (hmin : c₀.min = none)
    (hmax : c₀.max = none) {v : D} {g : Guc} (hg : g.Stable)
    (hv : pg.datumToText g a.typ v = .ok (some "")) {b : IndexAttr D} {c : ColSummary}
    (hb : b ∈ summarized attrs) (hc : c ∈ s.cols) (hbc : c.attnum = b.attnum) :
    ∃ c' changed, widenColumn pg g c b.typ b.collation (b.value (singleRow a v)) =
        .ok (c', changed) ∧ c'.attnum = b.attnum ∧ (MayHoldEmpty pg b c → MayHoldEmpty pg b c') ∧
      (c'.unbounded = false → c'.min = none → c.unbounded = false ∧ c.min = none ∧ b ≠ a) := by
  rw [b.value_of_pos (mem_summarized.mp hb).2, singleRow]
  by_cases hba : b = a
  · subst hba
    obtain rfl : c = c₀ := entry_unique hdistinct hattnums hc hc₀ (hbc.trans hattnum.symm)
    rw [if_pos rfl]
    refine ⟨_, true, widenColumn_empty hempty.overlap hempty.unbounded hmin hmax hv, hbc,
      fun _ => ?_, nofun⟩
    exact ⟨hempty.overlap, hempty.unbounded, by simp [ColSummary.boundLen, utf8Bytes],
      ⟨v, g, hg, hv⟩⟩
  · rw [if_neg fun h => hba (List.inj_on_of_nodup_map hdistinct hb ha h)]
    have hnull : ∃ changed, widenColumn pg g c b.typ b.collation none =
        .ok ({ c with hasNulls := true }, changed) := widenColumn_null g c b.typ b.collation
    obtain ⟨changed, hnull⟩ := hnull
    exact ⟨_, changed, hnull, hbc, fun h => ⟨h.overlap, h.unbounded, h.noText, h.value⟩,
      fun hunb hmin => ⟨hunb, hmin, hba⟩⟩

/-- A column without bounds takes an empty text, and nothing else happens. -/
theorem exists_widenEmpty {attrs : List (IndexAttr D)} (hdistinct : DistinctColumns attrs)
    {s : IndexSummary} (hs : List.Forall₂ (EntryState ord) (summarized attrs) s.cols)
    {a : IndexAttr D} (ha : a ∈ summarized attrs) (hmay : MayTurnEmpty pg s a)
    (habsent : AbsentBounds s a) :
    ∃ session row w, widenStable pg session attrs row s = .ok (w, true) ∧
      (∀ b ∈ summarized attrs, MayTurnEmpty pg s b → MayTurnEmpty pg w b) ∧
      (∀ b ∈ summarized attrs, AbsentBounds w b → AbsentBounds s b ∧ b ≠ a) := by
  have hattnums := hs.imp fun _ _ hac => hac.entry.attnum
  obtain ⟨c₀, hc₀, hattnum, hempty⟩ := hmay
  obtain ⟨v, g, hg, hv⟩ := hempty.value
  have hmin : c₀.min = none := by
    obtain ⟨c, hc, hattnum', -, hmin⟩ := habsent
    rwa [entry_unique hdistinct hattnums hc₀ hc (hattnum.trans hattnum'.symm)]
  have hmax : c₀.max = none := by
    obtain ⟨b, -, hb⟩ := Lib.Aligned.forall₂_mem_right hs c₀ hc₀
    exact (hb.paired hempty.overlap).mp hmin
  have hstep {b : IndexAttr D} {c : ColSummary} :=
    widenColumn_singleRow hdistinct hattnums ha hc₀ hattnum hempty hmin hmax hg hv (b := b) (c := c)
  have hreturns : ∃ rs, widenEntries pg g (singleRow a v) ((summarized attrs).zip s.cols) =
      .ok rs := by
    refine exists_mapM fun e he => ?_
    obtain ⟨hb, hc⟩ := List.of_mem_zip (show (e.1, e.2) ∈ _ from he)
    obtain ⟨c', changed, hc', -⟩ := hstep hb hc ((List.forall₂_iff_zip.mp hattnums).2 he)
    exact ⟨_, hc'⟩
  obtain ⟨rs, hrs⟩ := hreturns
  have hwiden : widenSummary pg g attrs (singleRow a v) s =
      .ok (⟨rs.map Prod.fst⟩, rs.any Prod.snd) := by
    rw [widenSummary_eq hdistinct hattnums, hrs]
    rfl
  have hentries : List.Forall₂ (fun b c' => c'.attnum = b.attnum ∧
      ∃ c ∈ s.cols, c.attnum = b.attnum ∧
      (MayHoldEmpty pg b c → MayHoldEmpty pg b c') ∧
      (c'.unbounded = false → c'.min = none → c.unbounded = false ∧ c.min = none ∧ b ≠ a))
      (summarized attrs) (rs.map Prod.fst) := by
    rw [List.forall₂_map_right_iff]
    have hmem := Lib.Aligned.forall₂_imp_mem hattnums
      (Q := fun b c => b ∈ summarized attrs ∧ c ∈ s.cols ∧ c.attnum = b.attnum)
      fun b c hb hc hbc => ⟨hb, hc, hbc⟩
    refine (Lib.Aligned.forall₂_zip hmem (forall₂_of_mapM hrs)).1.imp ?_
    rintro b r ⟨c, ⟨hb, hc, hbc⟩, hr⟩
    obtain ⟨c', changed, hc', hattnum', hkeep, habsent'⟩ := hstep hb hc hbc
    obtain rfl : r = (c', changed) := Except.ok.inj (hr.symm.trans hc')
    exact ⟨hattnum', c, hc, hbc, hkeep, habsent'⟩
  have habsent' : ∀ b ∈ summarized attrs, AbsentBounds ⟨rs.map Prod.fst⟩ b → AbsentBounds s b ∧
      b ≠ a := by
    rintro b hb ⟨c', hc', hbc', hunb, hmin'⟩
    obtain ⟨b', hb', hattnum', c, hc, hbc, -, hno⟩ := Lib.Aligned.forall₂_mem_right hentries c' hc'
    obtain rfl : b' = b := List.inj_on_of_nodup_map hdistinct hb' hb (hattnum'.symm.trans hbc')
    obtain ⟨hunb, hmin, hne⟩ := hno hunb hmin'
    exact ⟨⟨c, hc, hbc, hunb, hmin⟩, hne⟩
  refine ⟨⟨g, false, false⟩, singleRow a v, ⟨rs.map Prod.fst⟩, ?_, ?_, habsent'⟩
  · have hchanged : rs.any Prod.snd = true := by
      by_contra hno
      have hsame := (widenSummary_forall₂ (fun _ _ h => h) (Q := fun _ _ => True)
        (fun _ _ _ _ _ _ => trivial) hdistinct hattnums hwiden).2 (eq_false_of_ne_true hno)
      rw [hsame] at habsent'
      exact (habsent' a ha habsent).2 rfl
    -- the session that renders the value renders it under its own settings
    rw [widenStable, withStableIo_of_not_parallel _ rfl, hg.pin_eq]
    exact hwiden.trans (by rw [hchanged])
  · rintro b hb ⟨c, hc, hbc, hempty'⟩
    obtain ⟨c', hc', hattnum', c₁, hc₁, hbc₁, hkeep, -⟩ :=
      Lib.Aligned.forall₂_mem_left hentries b hb
    obtain rfl : c₁ = c := entry_unique hdistinct hattnums hc₁ hc (hbc₁.trans hbc.symm)
    exact ⟨c', hc', hattnum', hkeep hempty'⟩

theorem absentBounds_of_encodeFitting {s : IndexSummary} {a : IndexAttr D}
    (h : AbsentBounds (encodeFitting s).1 a) : AbsentBounds s a := by
  obtain ⟨c', hc', hattnum, hunb, hmin⟩ := h
  obtain ⟨c, hc, hdrop⟩ := Lib.Aligned.forall₂_mem_right (encodeFitting_dropped s) c' hc'
  rcases hdrop with rfl | ⟨-, rfl⟩
  · exact ⟨c', hc, hattnum, hunb, hmin⟩
  · cases hunb

/-- A page on which every column that may turn empty has is as long as the room that
is needed. -/
theorem roomNeeded_le_length {attrs : List (IndexAttr D)} (hdistinct : DistinctColumns attrs)
    {s : IndexSummary} (hs : List.Forall₂ (EntryState ord) (summarized attrs) s.cols)
    (hnone : ∀ a ∈ summarized attrs, MayTurnEmpty pg s a → ¬AbsentBounds s a) :
    roomNeeded pg attrs s ≤ (serialize s).length := by
  rw [serialize_length]
  refine Nat.add_le_add_left (List.Forall₂.sum_le_sum ?_) 3
  rw [List.forall₂_map_left_iff, List.forall₂_map_right_iff]
  refine Lib.Aligned.forall₂_imp_mem hs fun a c ha hc hac => ?_
  have hone (t : Option String) : 1 ≤ (putOptStr t).length := by
    cases t <;> simp [putOptStr]
  rw [columnNeeds, ← hac.entry.attnum,
    typeNameLen_eq hdistinct (hs.imp fun _ _ h => h.entry.attnum) hc, putCol_length]
  by_cases hmay : MayTurnEmpty pg s a
  · have hnone := hnone a ha hmay
    obtain ⟨c', hc', hattnum, hempty⟩ := hmay
    obtain rfl : c' = c := entry_unique hdistinct (hs.imp fun _ _ h => h.entry.attnum) hc' hc
      (hattnum.trans hac.entry.attnum.symm)
    have hmin : c'.min ≠ none := fun hno => hnone ⟨c', hc', hattnum, hempty.unbounded, hno⟩
    have hmax : c'.max ≠ none := fun hno => hmin ((hac.paired hempty.overlap).mpr hno)
    have hthree (t : Option String) (ht : t ≠ none) : 3 ≤ (putOptStr t).length := by
      cases t with
      | none => exact absurd rfl ht
      | some t =>
          rw [putOptStr_length, if_pos (by rfl)]
          omega
    have hmin3 := hthree _ hmin
    have hmax3 := hthree _ hmax
    split <;> omega
  · have hmin1 := hone c.min
    have hmax1 := hone c.max
    rw [if_neg hmay]
    omega

/-- One element less satisfies the stronger of two tests. -/
private theorem countP_lt {α : Type} {p q : α → Bool} {xs : List α}
    (h : ∀ x ∈ xs, p x → q x) {x : α}
    (hx : x ∈ xs) (hq : q x = true) (hp : p x = false) : xs.countP p < xs.countP q := by
  induction xs with
  | nil => cases hx
  | cons y ys ih =>
      have hle : ys.countP p ≤ ys.countP q :=
        List.countP_mono_left fun z hz => h z (List.mem_cons_of_mem y hz)
      rcases List.mem_cons.mp hx with rfl | hx
      · simp only [List.countP_cons, hp, hq, if_true, Bool.false_eq_true, if_false]
        omega
      · have hlt := ih (fun z hz => h z (List.mem_cons_of_mem y hz)) hx
        have hy := h y List.mem_cons_self
        simp only [List.countP_cons]
        cases hpy : p y with
        | false => simp only [Bool.false_eq_true, if_false]; omega
        | true => simp only [hy hpy, if_true]; omega

open Classical in
/-- If inserts always fit, there is room enough: an empty text can be inserted into
one column after the other. -/
theorem room_of_insertsFit (io : pg.TextRoundTrip) (texts : pg.ExtentTexts) (ord : pg.BtreeOrder)
    {attrs : List (IndexAttr D)} (hdistinct : DistinctColumns attrs) {file : IndexFile}
    {s : IndexSummary} (hpage : OnPage pg attrs file s) (hfit : InsertsFit pg attrs file) :
    roomNeeded pg attrs s ≤ maxBlobLen := by
  -- on the number of columns that have no bounds yet
  induction hn : (summarized attrs).countP (fun a => decide (AbsentBounds s a)) using
    Nat.strong_induction_on generalizing file s with
  | _ n ih =>
  obtain ⟨rows, hs⟩ := hpage.maintained
  have hentries := hs.entryState ord io texts hdistinct
  by_cases hnone : ∀ a ∈ summarized attrs, MayTurnEmpty pg s a → ¬AbsentBounds s a
  · exact Nat.le_trans (roomNeeded_le_length hdistinct hentries hnone) hpage.fits
  · simp only [not_forall, not_not] at hnone
    obtain ⟨a, ha, hmay, habsent⟩ := hnone
    obtain ⟨session, row, w, hwiden, hkeep, hless⟩ :=
      exists_widenEmpty hdistinct hentries ha hmay habsent
    have hattempt : widenAttempt pg session attrs row (readBlob file) =
        .ok (.swap (serialize s) (encodeFitting w).2) := by
      simp [widenAttempt, hpage.blob, hpage.deserialize, hwiden, bind, Except.bind]
    obtain ⟨file', hstep, hpage'⟩ :=
      hpage.exists_insert hwiden (hfit file .refl session row _ _ hattempt).1
    have hfit' : InsertsFit pg attrs file' := fun file'' hrun => hfit file'' (hrun.head hstep)
    have hcount : (summarized attrs).countP (fun a =>
        decide (AbsentBounds (encodeFitting w).1 a)) < n := by
      rw [← hn]
      refine countP_lt (fun b hb h => ?_) ha (by simpa using habsent) ?_
      · have habs := absentBounds_of_encodeFitting (of_decide_eq_true h)
        simpa using (hless b hb habs).1
      · rw [decide_eq_false_iff_not]
        exact fun h => (hless a ha (absentBounds_of_encodeFitting h)).2 rfl
    have hroom := ih _ hcount hpage' hfit' rfl
    have hnames (n : Int16) : typeNameLen s n = typeNameLen (encodeFitting w).1 n :=
      ((typeNameLen_encodeFitting w n).trans (typeNameLen_widenStable hwiden n)).symm
    refine Nat.le_trans (roomNeeded_mono hnames fun b hb hmayb => ?_) hroom
    exact mayTurnEmpty_encodeFitting.mpr (hkeep b hb hmayb)

/-- The most room that an index can need, whatever its table holds. -/
theorem roomNeeded_le (attrs : List (IndexAttr D)) (s : IndexSummary) :
    roomNeeded pg attrs s ≤ 3 + ((summarized attrs).map fun a =>
      16 + typeNameLen s a.attnum).sum := by
  have hneeds : ((summarized attrs).map (columnNeeds pg s)).sum ≤
      ((summarized attrs).map fun a => 16 + typeNameLen s a.attnum).sum := by
    apply List.sum_le_sum
    intro a _
    unfold columnNeeds
    split <;> omega
  unfold roomNeeded
  omega

/-- When inserts fit.  For any index, a swap fits exactly when the widened summary
does once everything that can be dropped is.  For an index that lists no heap column
twice, no insert ever fails for lack of space exactly when the page has room for the
empty texts that its columns may come to hold. -/
theorem insertsFit_iff (io : pg.TextRoundTrip) (texts : pg.ExtentTexts) (ord : pg.BtreeOrder)
    {session : Session} {index : IndexDef D} {file file' : IndexFile} {rows : List (Row D)}
    (hbuild : amBuild pg session index file rows = .ok file') :
    (∀ file'', Relation.ReflTransGen (InsertStep pg index.attrs) file' file'' →
      ∀ (session : Session) (row : Row D) (before after : Bytes),
        widenAttempt pg session index.attrs row (readBlob file'') = .ok (.swap before after) →
        ∃ s w, readSummary file'' = some s ∧
          widenStable pg session index.attrs row s = .ok (w, true) ∧
          (after.length ≤ maxBlobLen ↔ w.leastLen ≤ maxBlobLen)) ∧
    (DistinctColumns index.attrs → ∃ s, readSummary file' = some s ∧
      (InsertsFit pg index.attrs file' ↔ roomNeeded pg index.attrs s ≤ maxBlobLen)) := by
  obtain ⟨s, hpage⟩ := amBuild_onPage hbuild
  have hread {file : IndexFile} {s : IndexSummary} (h : OnPage pg index.attrs file s) :
      readSummary file = some s := Option.bind_eq_some_iff.mpr ⟨_, h.blob, h.deserialize⟩
  constructor
  · intro file'' hrun session row before after hattempt
    obtain ⟨s', hpage''⟩ := hpage.of_run hrun
    obtain ⟨rfl, w, hwiden, rfl⟩ := hpage''.swap hattempt
    exact ⟨s', w, hread hpage'', hwiden, encodeFitting_fits_iff w⟩
  · intro hdistinct
    refine ⟨s, hread hpage, ?_, insertsFit_of_room io texts ord hdistinct hpage⟩
    exact room_of_insertsFit io texts ord hdistinct hpage

/-- A row that widens the summary to one that is too long and has nothing to drop is
refused. -/
theorem OnPage.not_insertsFit {attrs : List (IndexAttr D)} {file : IndexFile} {s w : IndexSummary}
    (hpage : OnPage pg attrs file s) {session : Session} {row : Row D}
    (hwiden : widenStable pg session attrs row s = .ok (w, true))
    (hnone : ∀ c ∈ w.cols, c.boundLen = 0) (hlong : maxBlobLen < (serialize w).length) :
    widenAttempt pg session attrs row (readBlob file) = .ok (.swap (serialize s) (serialize w)) ∧
      replaceBlobIf file (serialize s) (serialize w) = (.error blobTooLong, file) ∧
      ¬InsertsFit pg attrs file := by
  have hfitting : encodeFitting w = (w, serialize w) :=
    encodeFitting_of_none (Nat.not_le_of_lt hlong) (largestBounds_eq_none hnone)
  have hattempt : widenAttempt pg session attrs row (readBlob file) =
      .ok (.swap (serialize s) (serialize w)) := by
    simp only [widenAttempt, hpage.blob, hpage.deserialize, hwiden, hfitting, bind, Except.bind,
      if_true]
  refine ⟨hattempt, ?_, fun hfit => ?_⟩
  · rw [replaceBlobIf, dif_neg (Nat.not_le_of_lt hlong)]
  · exact absurd (hfit file .refl session row _ _ hattempt).1 (Nat.not_le_of_lt hlong)

section Mini

/-- A name of 63 bytes, the longest there is, that `quote_identifier` makes as long as
it can. -/
def quotesName : String := String.ofList (List.replicate 63 '"')

/-- The small server with the longest type names.  The text of zero is empty. -/
def widePg : Pg Int :=
  { Mini.pg fun _ _ => id with
    searchTypeOid := fun _ =>
      some { typname := quotesName, typnamespace := 11, typtype := 'b', typlen := 4 }
    getNamespaceName := fun _ => some quotesName
    quoteIdentifier := fun _ name => String.ofList
      ('"' :: name.toList.flatMap (fun c => if c = '"' then ['"', '"'] else [c]) ++ ['"']) }

/-- An index on 30 columns. -/
def wideIndex : IndexDef Int where
  attrs := (List.range 30).map fun i =>
    { attnum := Int16.ofNat (i + 1), typ := Mini.int4, collation := invalidOid,
      expr := fun _ => none }
  hasPredicate := false

/-- The type name in the entries. -/
def wideName : String := widePg.quoteQualifiedIdentifier false quotesName quotesName

/-- The entry of column `i + 1` with the bounds `bound` and `bound`. -/
def wideEntry (bound : Option String) (i : Nat) : ColSummary :=
  { attnum := Int16.ofNat (i + 1), overlap := false, typeName := wideName, collation := invalidOid
    min := bound, max := bound, hasNulls := false, allNulls := false, unbounded := false }

def wideSummary (bound : Option String) : IndexSummary := ⟨(List.range 30).map (wideEntry bound)⟩

theorem wideName_length : (utf8Bytes wideName).length = 257 := by decide +kernel

theorem putCol_wideEntry (bound : Option String) (i : Nat) :
    (putCol (wideEntry bound i)).length = 267 + 2 * (putOptStr bound).length := by
  have hlength : (putCol (wideEntry bound i)).length =
      10 + (utf8Bytes wideName).length + (putOptStr bound).length + (putOptStr bound).length :=
    putCol_length _
  rw [hlength, wideName_length]
  omega

theorem serialize_wideSummary (bound : Option String) :
    (serialize (wideSummary bound)).length = 3 + 30 * (267 + 2 * (putOptStr bound).length) := by
  have hentries : (fun c => (putCol c).length) ∘ wideEntry bound =
      fun _ => 267 + 2 * (putOptStr bound).length := funext (putCol_wideEntry bound)
  rw [serialize_length, wideSummary, List.map_map, hentries, List.map_const', List.length_range,
    List.sum_replicate, nsmul_eq_mul, Nat.cast_id]

theorem buildLeafSummary_wide :
    buildLeafSummary widePg Mini.session wideIndex.attrs [] = .ok (wideSummary none) := by
  rfl

theorem widenStable_wide :
    widenStable widePg Mini.session wideIndex.attrs (fun _ => some 0) (wideSummary none) =
      .ok (wideSummary (some ""), true) := by
  rfl

theorem serialize_wideSummary_none : (serialize (wideSummary none)).length = 8073 := by
  rw [serialize_wideSummary]
  decide

theorem serialize_wideSummary_empty : (serialize (wideSummary (some ""))).length = 8193 := by
  rw [serialize_wideSummary]
  decide

/-- An empty table, and a row of empty texts: the build leaves 8073 bytes, and the
insert asks for 8193. -/
theorem not_insertsFit_emptyTexts :
    wideIndex.attrs.length = 30 ∧
      ∃ file before after, amBuild widePg Mini.session wideIndex none [] = .ok file ∧
        widenAttempt widePg Mini.session wideIndex.attrs (fun _ => some 0) (readBlob file) =
          .ok (.swap before after) ∧
        before.length = 8073 ∧ after.length = 8193 ∧
        replaceBlobIf file before after = (.error blobTooLong, file) ∧
        ¬InsertsFit widePg wideIndex.attrs file := by
  have hfits : (serialize (wideSummary none)).length ≤ maxBlobLen := by
    rw [serialize_wideSummary_none]
    decide
  have hlong : maxBlobLen < (serialize (wideSummary (some ""))).length := by
    rw [serialize_wideSummary_empty]
    decide
  have hnone : ∀ c ∈ (wideSummary (some "")).cols, c.boundLen = 0 := by
    intro c hc
    obtain ⟨i, -, rfl⟩ := List.mem_map.mp hc
    rfl
  obtain ⟨file, hfile, hread⟩ := amBuild_eq_ok rfl buildLeafSummary_wide hfits none
  obtain ⟨s, hpage⟩ := amBuild_onPage hfile
  obtain rfl : s = wideSummary none :=
    Option.some.inj ((Option.bind_eq_some_iff.mpr ⟨_, hpage.blob,
      hpage.deserialize⟩).symm.trans hread)
  obtain ⟨hattempt, hreplace, hnot⟩ := hpage.not_insertsFit widenStable_wide hnone hlong
  exact ⟨by simp [wideIndex], file, _, _, hfile, hattempt, serialize_wideSummary_none,
    serialize_wideSummary_empty, hreplace, hnot⟩

theorem mini_extentTexts : (Mini.pg fun _ _ => id).ExtentTexts where
  renders {typ _ _} h _ := by
    obtain ⟨hrange, hgeometry⟩ := Mini.planAccumulator_kind (fun _ _ => id) typ
    exact absurd h (not_or.mpr ⟨hrange, hgeometry⟩)
  extentQuery _ h := by cases h
  flushQuery _ h := by
    cases h
    simp

/-- The table `{3}` has room for whatever is inserted. -/
theorem insertsFit_int4 :
    ∃ file, amBuild (Mini.pg fun _ _ => id) Mini.session Mini.index none [Mini.row 3] = .ok file ∧
      InsertsFit (Mini.pg fun _ _ => id) Mini.index.attrs file := by
  have hbuilt : buildLeafSummary (Mini.pg fun _ _ => id) Mini.session Mini.index.attrs
      [Mini.row 3] =
      .ok ⟨[Mini.entry 3 3]⟩ := by decide +kernel
  obtain ⟨file, hfile, hread⟩ := amBuild_eq_ok Mini.index_total hbuilt (by decide) none
  obtain ⟨s, hs, hroom⟩ := (insertsFit_iff (Mini.textRoundTrip _) mini_extentTexts (Mini.order _)
    hfile).2 Mini.index_distinct
  obtain rfl : s = ⟨[Mini.entry 3 3]⟩ := Option.some.inj (hs.symm.trans hread)
  refine ⟨file, hfile, hroom.mpr ?_⟩
  have hle : roomNeeded (Mini.pg fun _ _ => id) Mini.index.attrs ⟨[Mini.entry 3 3]⟩ ≤ 3 +
      ((summarized Mini.index.attrs).map fun a =>
        16 + typeNameLen ⟨[Mini.entry 3 3]⟩ a.attnum).sum := roomNeeded_le _ _
  have hcolumns : ((summarized Mini.index.attrs).map fun a =>
      16 + typeNameLen ⟨[Mini.entry 3 3]⟩ a.attnum).sum ≤ maxBlobLen - 3 := by decide +kernel
  have hmax : maxBlobLen = 8128 := by decide
  omega

end Mini

end TableRange
