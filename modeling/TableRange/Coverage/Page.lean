import TableRange.Coverage.Build
import TableRange.Coverage.Insert

/-!
# What a page promises

A blob that does not decode promises nothing and prunes nothing, so `BlobCovers`
asks something of decodable blobs only.  A build leaves a blob that covers its
rows, a pass of `widen_on_insert` that swaps leaves one that also covers the
inserted row, and a pass that returns without swapping has found the row covered
already.
-/

namespace TableRange

open Lib.Fallible

variable {D : Type} {pg : Pg D}

section

variable (ord : pg.BtreeOrder) (eord : pg.ExtentOrder)

/-- If the blob decodes, its summary covers the values. -/
def BlobCovers (attrs : List (IndexAttr D)) (blob : Option Bytes)
    (vals : IndexAttr D → Set (Option D)) : Prop :=
  ∀ s, blob.bind deserialize = some s → SummaryCovers ord eord attrs s vals

end

/-- The values, and those of one more row. -/
def addRow (row : Row D) (vals : IndexAttr D → Set (Option D)) (a : IndexAttr D) :
    Set (Option D) :=
  insert (a.value row) (vals a)

theorem rowValues_insert (row : Row D) (rows : Set (Row D)) :
    rowValues (insert row rows) = addRow row (rowValues rows) :=
  funext fun _ => Set.image_insert_eq

section

variable {ord : pg.BtreeOrder} {eord : pg.ExtentOrder}

theorem BlobCovers.mono {attrs : List (IndexAttr D)} {blob : Option Bytes}
    {vals vals' : IndexAttr D → Set (Option D)} (h : BlobCovers ord eord attrs blob vals)
    (hsub : ∀ a, vals' a ⊆ vals a) : BlobCovers ord eord attrs blob vals' :=
  fun s hs => (h s hs).mono hsub

/-- Rows that are covered one by one are covered together. -/
theorem BlobCovers.addRows {attrs : List (IndexAttr D)} {blob : Option Bytes}
    {rows rows' : Set (Row D)} (h : BlobCovers ord eord attrs blob (rowValues rows))
    (h' : ∀ row ∈ rows', BlobCovers ord eord attrs blob (rowValues {row})) :
    BlobCovers ord eord attrs blob (rowValues (rows ∪ rows')) := by
  intro s hs
  have hall := Lib.Aligned.forall₂_forall (h s hs)
    fun row : {row // row ∈ rows'} => h' row.1 row.2 s hs
  refine hall.imp fun a c hac => ⟨hac.1.1, ?_⟩
  rintro v ⟨row, hrow | hrow, rfl⟩
  · exact hac.1.2 _ ⟨row, hrow, rfl⟩
  · exact (hac.2 ⟨row, hrow⟩).2 _ ⟨row, rfl, rfl⟩

/-! ## The build -/

variable (ord eord) in
/-- A build that returns leaves a page that decodes and covers the rows. -/
theorem amBuild_covers {session : Session} {index : IndexDef D} {file file' : IndexFile}
    {rows : List (Row D)} (h : amBuild pg session index file rows = .ok file') :
    ∃ s, readSummary file' = some s ∧
      SummaryCovers ord eord index.attrs s (rowValues {row | row ∈ rows}) := by
  unfold amBuild at h
  split at h
  · cases h
  · obtain ⟨built, hbuilt, h⟩ := bind_eq_ok.mp h
    split at h
    · rename_i file₁ hwrite
      cases h
      exact ⟨_, readSummary_writeSummary hwrite,
        summaryCovers_encodeFitting (buildLeafSummary_covers hbuilt)⟩
    · cases h

theorem amBuild_blobCovers {session : Session} {index : IndexDef D} {file file' : IndexFile}
    {rows : List (Row D)} (h : amBuild pg session index file rows = .ok file') :
    BlobCovers ord eord index.attrs (readBlob file') (rowValues {row | row ∈ rows}) := by
  obtain ⟨s, hs, hcovers⟩ := amBuild_covers ord eord h
  intro s' hs'
  obtain rfl : s' = s := Option.some.inj (hs'.symm.trans hs)
  exact hcovers

/-! ## The insert -/

/-- Widening under the pinned settings. -/
theorem widenStable_covers (io : pg.TextRoundTrip) {session : Session}
    {attrs : List (IndexAttr D)} (hdistinct : DistinctColumns attrs) {row : Row D}
    {vals : IndexAttr D → Set (Option D)} {s s' : IndexSummary} {changed : Bool}
    (hcovers : SummaryCovers ord eord attrs s vals)
    (h : widenStable pg session attrs row s = .ok (s', changed)) :
    SummaryCovers ord eord attrs s' (addRow row vals) ∧ (changed = false → s' = s) :=
  widenSummary_covers io session.guc.pin_stable hdistinct hcovers (widenStable_eq_ok h)

/-- The encoding of a summary that covers the values. -/
theorem encodeFitting_blobCovers {attrs : List (IndexAttr D)} {s : IndexSummary}
    {vals : IndexAttr D → Set (Option D)} (hcovers : SummaryCovers ord eord attrs s vals)
    (hfits : (encodeFitting s).2.length ≤ maxBlobLen) :
    BlobCovers ord eord attrs (some (encodeFitting s).2) vals := by
  intro s' hs'
  obtain rfl : s' = (encodeFitting s).1 :=
    Option.some.inj (hs'.symm.trans (deserialize_encodeFitting hfits))
  exact summaryCovers_encodeFitting hcovers

/-- What a pass has decided. -/
theorem widenAttempt_cases {session : Session} {attrs : List (IndexAttr D)} {row : Row D}
    {blob : Option Bytes} {attempt : Attempt}
    (h : widenAttempt pg session attrs row blob = .ok attempt) :
    (attempt = .done ∧ blob.bind deserialize = none) ∨
    ∃ before s s' changed, blob = some before ∧ deserialize before = some s ∧
      widenStable pg session attrs row s = .ok (s', changed) ∧
      attempt = if changed then .swap before (encodeFitting s').2 else .done := by
  unfold widenAttempt at h
  split at h
  · cases h
    exact Or.inl ⟨rfl, rfl⟩
  · rename_i before
    split at h
    · rename_i hnone
      cases h
      exact Or.inl ⟨rfl, hnone⟩
    · rename_i s hs
      obtain ⟨⟨s', changed⟩, hwiden, h⟩ := bind_eq_ok.mp h
      refine Or.inr ⟨before, s, s', changed, rfl, hs, hwiden, ?_⟩
      cases changed <;> cases h <;> rfl

/-- A pass that returns without a swap has found the row covered. -/
theorem widenAttempt_done (io : pg.TextRoundTrip) {session : Session}
    {attrs : List (IndexAttr D)} (hdistinct : DistinctColumns attrs) {row : Row D}
    {vals : IndexAttr D → Set (Option D)} {blob : Option Bytes}
    (hcovers : BlobCovers ord eord attrs blob vals)
    (h : widenAttempt pg session attrs row blob = .ok .done) :
    BlobCovers ord eord attrs blob (addRow row vals) := by
  intro s hs
  rcases widenAttempt_cases h with ⟨-, hnone⟩ | ⟨before, s₀, s', changed, rfl, hs₀, hwiden, hdone⟩
  · cases hnone.symm.trans hs
  · obtain rfl : s = s₀ := Option.some.inj (hs.symm.trans hs₀)
    cases changed with
    | true => cases hdone
    | false =>
        obtain ⟨hnew, hsame⟩ := widenStable_covers io hdistinct (hcovers s hs) hwiden
        rwa [hsame rfl] at hnew

/-- What a pass swaps: the blob it has read for an encoded summary. -/
theorem widenAttempt_swap_bytes {session : Session} {attrs : List (IndexAttr D)} {row : Row D}
    {blob : Option Bytes} {before after : Bytes}
    (h : widenAttempt pg session attrs row blob = .ok (.swap before after)) :
    blob = some before ∧ ∃ s s', deserialize before = some s ∧
      widenStable pg session attrs row s = .ok (s', true) ∧ after = (encodeFitting s').2 := by
  rcases widenAttempt_cases h with ⟨hno, -⟩ | ⟨before', s, s', changed, rfl, hs, hwiden, hswap⟩
  · cases hno
  · cases changed with
    | false => cases hswap
    | true =>
        cases hswap
        exact ⟨rfl, s, s', hs, hwiden, rfl⟩

theorem encodeFitting_ne_nil (s : IndexSummary) : (encodeFitting s).2 ≠ [] :=
  encodeFitting_bytes s ▸ serialize_ne_nil _

/-- A pass that swaps writes a blob that covers the row as well. -/
theorem widenAttempt_swap (io : pg.TextRoundTrip) {session : Session}
    {attrs : List (IndexAttr D)} (hdistinct : DistinctColumns attrs) {row : Row D}
    {vals : IndexAttr D → Set (Option D)} {blob : Option Bytes} {before after : Bytes}
    (hcovers : BlobCovers ord eord attrs blob vals) (hfits : after.length ≤ maxBlobLen)
    (h : widenAttempt pg session attrs row blob = .ok (.swap before after)) :
    BlobCovers ord eord attrs (some after) (addRow row vals) := by
  obtain ⟨rfl, s, s', hs, hwiden, rfl⟩ := widenAttempt_swap_bytes h
  exact encodeFitting_blobCovers (widenStable_covers io hdistinct (hcovers s hs) hwiden).1 hfits

/-- One pass on a page nobody else writes: the page covers what it covered, and
the row if the pass returns. -/
theorem widenPass_covers (io : pg.TextRoundTrip) {session : Session}
    {attrs : List (IndexAttr D)} (hdistinct : DistinctColumns attrs) {row : Row D}
    {vals : IndexAttr D → Set (Option D)} {file file' : IndexFile} {r : PgResult Bool}
    (hcovers : BlobCovers ord eord attrs (readBlob file) vals)
    (h : widenPass pg session attrs row file = (r, file')) :
    BlobCovers ord eord attrs (readBlob file') vals ∧
      (r = .ok true → BlobCovers ord eord attrs (readBlob file') (addRow row vals)) := by
  unfold widenPass at h
  split at h
  · cases h
    exact ⟨hcovers, nofun⟩
  · rename_i hdone
    cases h
    exact ⟨hcovers, fun _ => widenAttempt_done io hdistinct hcovers hdone⟩
  · rename_i before after hswap
    obtain ⟨-, _, s', -, -, hafter⟩ := widenAttempt_swap_bytes hswap
    rcases replaceBlobIf_cases file before after with
      ⟨_, he⟩ | ⟨_, _, he⟩ | ⟨hfits, _, page', he, hread⟩
    · cases he.symm.trans h
      exact ⟨hcovers, nofun⟩
    · cases he.symm.trans h
      exact ⟨hcovers, nofun⟩
    · cases he.symm.trans h
      have hnew := widenAttempt_swap io hdistinct hcovers hfits hswap
      rw [show readBlob (some page') = some after from hread (hafter ▸ encodeFitting_ne_nil s')]
      exact ⟨hnew.mono fun a => Set.subset_insert _ _, fun _ => hnew⟩

/-- `am_insert` on a page nobody else writes. -/
theorem amInsert_covers (io : pg.TextRoundTrip) {session : Session} {attrs : List (IndexAttr D)}
    (hdistinct : DistinctColumns attrs) {row : Row D} {vals : IndexAttr D → Set (Option D)}
    {file file' : IndexFile} {r : PgResult Unit} (h : AmInsert pg session attrs row file r file')
    (hcovers : BlobCovers ord eord attrs (readBlob file) vals) :
    BlobCovers ord eord attrs (readBlob file') vals ∧
      (r = .ok () → BlobCovers ord eord attrs (readBlob file') (addRow row vals)) := by
  induction h with
  | done hpass =>
      have hp := widenPass_covers io hdistinct hcovers hpass
      exact ⟨hp.1, fun _ => hp.2 rfl⟩
  | error hpass => exact ⟨(widenPass_covers io hdistinct hcovers hpass).1, nofun⟩
  | retry hpass _ ih => exact ih (widenPass_covers io hdistinct hcovers hpass).1

end

end TableRange
