import TableRange.Leaf
import TableRange.MiniPg

/-!
# No widening is lost

The guarantee of the compare-and-swap on the metapage, for any number of
inserters and any interleaving of their steps: the page covers what the build
has scanned and the row of every insert that has returned, and no step makes it
cover less.
-/

namespace TableRange

variable {D ι : Type} {pg : Pg D}

/-- The page decodes to a summary that covers the value in the column `a`. -/
def PageCovers (ord : pg.BtreeOrder) (eord : pg.ExtentOrder) (file : IndexFile)
    (a : IndexAttr D) (v : Option D) : Prop :=
  ∃ s, readSummary file = some s ∧ ∃ c ∈ s.cols, c.attnum = a.attnum ∧ Covers ord eord a c v

/-- The leaf before the first insert: its page is the result of a build, or does
not decode. -/
structure LeafInit (pg : Pg D) (index : IndexDef D) (scanned : List (Row D))
    (s : LeafState ι D) : Prop where
  idle : ∀ i, s.phase i = .idle
  returned : s.returned = ∅
  file : (∃ session file₀, amBuild pg session index file₀ scanned = .ok s.file) ∨
    readSummary s.file = none

section

variable {ord : pg.BtreeOrder} {eord : pg.ExtentOrder}

/-- A page that grows covers every value it covered. -/
theorem PageCovers.mono {attrs : List (IndexAttr D)} (hdistinct : DistinctColumns attrs)
    {file file' : IndexFile} (hvalid : BlobCovers ord eord attrs (readBlob file) fun _ => ∅)
    (hle : BlobLe ord eord attrs (readBlob file) (readBlob file')) {a : IndexAttr D}
    (ha : a ∈ summarized attrs) {v : Option D} (h : PageCovers ord eord file a v) :
    PageCovers ord eord file' a v := by
  obtain ⟨s, hs, c, hc, hattnum, hcover⟩ := h
  have hentries : List.Forall₂ (EntryOf pg) (summarized attrs) s.cols :=
    (hvalid s hs).imp fun _ _ hac => hac.1
  -- the summary covers `v` in the column `a`, and nothing is asked of the others
  have hvals : BlobCovers ord eord attrs (readBlob file) fun b => {w | b = a ∧ w = v} := by
    intro s' hs'
    obtain rfl : s' = s := Option.some.inj (hs'.symm.trans hs)
    refine Lib.Aligned.forall₂_imp_mem hentries fun b d _ hd hbd => ⟨hbd, ?_⟩
    rintro w ⟨rfl, rfl⟩
    rwa [entry_unique hdistinct (hentries.imp fun _ _ h => h.attnum) hd hc
      (hbd.attnum.trans hattnum.symm)]
  obtain ⟨s', hs'⟩ := Option.isSome_iff_exists.mp (hle.decodes (by
    rw [show (readBlob file).bind deserialize = some s from hs]
    rfl))
  obtain ⟨c', hc', hac'⟩ := Lib.Aligned.forall₂_mem_left (hle.covers _ hvals s' hs') a ha
  exact ⟨s', hs', c', hc', hac'.1.attnum, hac'.2 v ⟨rfl, rfl⟩⟩

variable (ord eord) in
theorem LeafInit.inv (io : pg.TextRoundTrip) {index : IndexDef D}
    (hdistinct : DistinctColumns index.attrs) {scanned : List (Row D)} {s : LeafState ι D}
    (h : LeafInit pg index scanned s) : LeafInv ord eord io hdistinct s ∧
      BlobCovers ord eord index.attrs (readBlob s.file) (rowValues {row | row ∈ scanned}) := by
  have hcovers : BlobCovers ord eord index.attrs (readBlob s.file)
      (rowValues {row | row ∈ scanned}) := by
    rcases h.file with ⟨session, file₀, hbuild⟩ | hnone
    · exact amBuild_blobCovers hbuild
    · intro s' hs'
      cases hnone.symm.trans hs'
  refine ⟨⟨fun i => ?_, ⟨hcovers.mono fun _ => Set.empty_subset _, fun i => ?_, ?_⟩⟩, hcovers⟩
  · rw [h.idle i]
    trivial
  · rw [show s.abs.phase i = (s.phase i).abs from rfl, h.idle i]
    trivial
  · intro row hrow
    rw [show s.abs.returned = s.returned from rfl, h.returned] at hrow
    cases hrow

end

/-- In every reachable state the page covers what the build has scanned and the
row of every insert that has returned, or it does not decode and prunes nothing;
no step makes it cover less; and a swap that does not return `true` leaves it as
it is. -/
theorem leaf_no_lost_widening (io : pg.TextRoundTrip) (ord : pg.BtreeOrder)
    (eord : pg.ExtentOrder) {index : IndexDef D} (hdistinct : DistinctColumns index.attrs)
    {scanned : List (Row D)} {init s : LeafState ι D} (hinit : LeafInit pg index scanned init)
    (hreach : Relation.ReflTransGen (LeafNext pg index.attrs) init s) :
    ((∃ summary, readSummary s.file = some summary ∧ SummaryCovers ord eord index.attrs summary
        (rowValues ({row | row ∈ scanned} ∪ s.returned))) ∨
      (readSummary s.file = none ∧ ∀ session clauses,
        prunes pg session (summaryCols (readSummary s.file)) clauses = false)) ∧
    (∀ s', LeafNext pg index.attrs s s' → ∀ a ∈ summarized index.attrs, ∀ v,
      PageCovers ord eord s.file a v → PageCovers ord eord s'.file a v) ∧
    ∀ before after, (replaceBlobIf s.file before after).1 ≠ .ok true →
      (replaceBlobIf s.file before after).2 = s.file := by
  obtain ⟨hinv, hscanned⟩ := hinit.inv ord eord io hdistinct
  obtain ⟨hinv, hle⟩ := hinv.run hreach
  refine ⟨?_, fun s' hnext a ha v => ?_, fun before after => replaceBlobIf_unchanged⟩
  · cases hs : readSummary s.file with
    | none => exact Or.inr ⟨rfl, fun session clauses => prunes_nil pg session clauses⟩
    | some summary =>
        exact Or.inl ⟨summary, rfl, (hle.covers _ hscanned).addRows hinv.cas.has summary hs⟩
  · exact PageCovers.mono hdistinct hinv.cas.valid (hinv.step hnext).2 ha

section Mini

theorem Mini.widenStable_five :
    widenStable (Mini.pg fun _ _ n => n) Mini.session Mini.index.attrs (Mini.row 5)
      ⟨[Mini.entry 3 3]⟩ =
      .ok (⟨[Mini.entry 3 5]⟩, true) := rfl

theorem Mini.serialize_fits : (serialize ⟨[Mini.entry 3 5]⟩).length ≤ maxBlobLen := by decide

theorem Mini.encodeFitting_five :
    (encodeFitting ⟨[Mini.entry 3 5]⟩).2 = serialize ⟨[Mini.entry 3 5]⟩ := by
  rw [encodeFitting_of_fits Mini.serialize_fits]

/-- The file of the table `{3}`, and the page after 5 has been inserted. -/
theorem Mini.exists_pages : ∃ file before page,
    amBuild (Mini.pg fun _ _ n => n) Mini.session Mini.index none [Mini.row 3] = .ok file ∧
      readSummary file = some ⟨[Mini.entry 3 3]⟩ ∧ readBlob file = some before ∧
      deserialize before = some ⟨[Mini.entry 3 3]⟩ ∧
      replaceBlobIf file before (serialize ⟨[Mini.entry 3 5]⟩) = (.ok true, some page) ∧
      pageBlob page = some (serialize ⟨[Mini.entry 3 5]⟩) := by
  have hbuilt : buildLeafSummary (Mini.pg fun _ _ n => n) Mini.session Mini.index.attrs
      [Mini.row 3] =
      .ok ⟨[Mini.entry 3 3]⟩ := rfl
  obtain ⟨file, hbuild, hs⟩ := amBuild_eq_ok Mini.index_total hbuilt (by decide) none
  obtain ⟨before, hbefore, hdecode⟩ := readSummary_eq_some hs
  rcases replaceBlobIf_cases file before (serialize ⟨[Mini.entry 3 5]⟩) with ⟨hbig, -⟩ |
    ⟨-, hno, -⟩ | ⟨-, -, page, hswap, hread⟩
  · have hfits := Mini.serialize_fits
    omega
  · exact absurd hbefore hno
  · exact ⟨file, before, page, hbuild, hs, hbefore, hdecode, hswap, hread (serialize_ne_nil _)⟩

/-- Two inserters on the table `{3}`: both read the page, and the first one has
taken in 5 while the second one still holds its stale copy. -/
theorem leaf_no_lost_widening_int4 :
    let pg := Mini.pg fun _ _ n => n
    ∃ s : LeafState Bool Int, s.returned = {Mini.row 5} ∧
      (∃ blob, s.phase false = .read Mini.session (Mini.row 4) blob ∧ blob ≠ readBlob s.file) ∧
      ((∃ summary, readSummary s.file = some summary ∧
        SummaryCovers (Mini.order fun _ _ n => n) pg.noExtents Mini.index.attrs summary
          (rowValues ({row | row ∈ [Mini.row 3]} ∪ s.returned))) ∨
        (readSummary s.file = none ∧ ∀ session clauses,
          prunes pg session (summaryCols (readSummary s.file)) clauses = false)) := by
  intro pg
  obtain ⟨file, before, page, hbuild, -, hbefore, hdecode, hswap, hwritten⟩ := Mini.exists_pages
  let init : LeafState Bool Int := ⟨file, fun _ => .idle, ∅⟩
  have hinit : LeafInit pg Mini.index [Mini.row 3] init :=
    ⟨fun _ => rfl, rfl, Or.inl ⟨Mini.session, none, hbuild⟩⟩
  let s₁ := init.after true .silent file (.started Mini.session (Mini.row 5))
  let s₂ := s₁.after false .silent file (.started Mini.session (Mini.row 4))
  let s₃ := s₂.after true .silent file (.read Mini.session (Mini.row 5) (readBlob file))
  let s₄ := s₃.after false .silent file (.read Mini.session (Mini.row 4) (readBlob file))
  let s₅ := s₄.after true .silent file (.widened Mini.session (Mini.row 5) before
    ⟨[Mini.entry 3 5]⟩)
  let s₆ := s₅.after true .silent file (.encoded Mini.session (Mini.row 5) before
    (serialize ⟨[Mini.entry 3 5]⟩))
  let s₇ := s₆.after true (.returned (Mini.row 5) true) (some page) .idle
  have hread : s₄.phase true = .read Mini.session (Mini.row 5) (some before) := by
    simp [s₄, s₃, LeafState.after, hbefore]
  have h₁ : LeafNext pg Mini.index.attrs init s₁ := LeafState.next_after (.start _ _ _)
  have h₂ : LeafNext pg Mini.index.attrs s₁ s₂ := LeafState.next_after (.start _ _ _)
  have h₃ : LeafNext pg Mini.index.attrs s₂ s₃ := LeafState.next_after (.read _ _ _)
  have h₄ : LeafNext pg Mini.index.attrs s₃ s₄ := LeafState.next_after (.read _ _ _)
  have h₅ : LeafNext pg Mini.index.attrs s₄ s₅ := by
    refine LeafState.next_after ?_
    rw [hread]
    exact .widen hdecode Mini.widenStable_five
  have h₆ : LeafNext pg Mini.index.attrs s₅ s₆ := by
    refine LeafState.next_after ?_
    rw [← Mini.encodeFitting_five]
    exact .encode file Mini.session (Mini.row 5) before ⟨[Mini.entry 3 5]⟩
  have h₇ : LeafNext pg Mini.index.attrs s₆ s₇ := LeafState.next_after (.swap hswap)
  have hreach : Relation.ReflTransGen (LeafNext pg Mini.index.attrs) init s₇ :=
    (((((((Relation.ReflTransGen.single h₁).tail h₂).tail h₃).tail h₄).tail h₅).tail h₆).tail h₇)
  refine ⟨s₇, ?_, ⟨readBlob file, rfl, ?_⟩, (leaf_no_lost_widening (Mini.textRoundTrip _)
    (Mini.order _) pg.noExtents Mini.index_distinct hinit hreach).1⟩
  · simp [s₇, s₆, s₅, s₄, s₃, s₂, s₁, init, LeafState.after, Event.row]
  · intro hsame
    have hdecode' := deserialize_of_fits Mini.serialize_fits
    rw [hbefore, show readBlob s₇.file = _ from hwritten] at hsame
    rw [Option.some.inj hsame, hdecode'] at hdecode
    exact absurd hdecode (by decide)

end Mini

end TableRange
