import TableRange.Coverage.History
import TableRange.MiniPg

/-!
# Well-formed entries

Three flags and two optional bounds leave many states that no entry should be in,
and nothing in the types rules them out.  `WellFormed` is what the build leaves,
every insert keeps, and the drops and the page keep as well.  `Reachable` adds the
trips through the page to the histories of `Maintained`; they bring back what
`encode_fitting` leaves, so they add no summary.
-/

namespace TableRange

open Lib.Fallible

variable {D : Type} {pg : Pg D}

/-- A summary that is built, widened, fitted to the page, or written to the page
and read back, together with the rows that have been folded in. -/
inductive Reachable (pg : Pg D) (attrs : List (IndexAttr D)) : IndexSummary → List (Row D) → Prop
  | build {session : Session} {rows : List (Row D)} {s : IndexSummary}
      (h : buildLeafSummary pg session attrs rows = .ok s) : Reachable pg attrs s rows
  | insert {session : Session} {rows : List (Row D)} {row : Row D} {s s' : IndexSummary}
      {changed : Bool} (hs : Reachable pg attrs s rows)
      (h : widenStable pg session attrs row s = .ok (s', changed)) :
      Reachable pg attrs s' (row :: rows)
  | fit {rows : List (Row D)} {s : IndexSummary} (hs : Reachable pg attrs s rows) :
      Reachable pg attrs (encodeFitting s).1 rows
  /-- `write_summary` and `read_summary`. -/
  | write {rows : List (Row D)} {s s' : IndexSummary} {file file' : IndexFile}
      (hs : Reachable pg attrs s rows) (hwrite : writeSummary file s = (.ok (), file'))
      (hread : readSummary file' = some s') : Reachable pg attrs s' rows
  /-- `replace_blob_if` and `read_summary`. -/
  | replace {rows : List (Row D)} {s s' : IndexSummary} {file file' : IndexFile} {expected : Bytes}
      (hs : Reachable pg attrs s rows)
      (hreplace : replaceBlobIf file expected (encodeFitting s).2 = (.ok true, file'))
      (hread : readSummary file' = some s') : Reachable pg attrs s' rows

/-- A swap that succeeds is read back. -/
theorem readSummary_replaceBlobIf {file file' : IndexFile} {expected : Bytes} {s : IndexSummary}
    (h : replaceBlobIf file expected (encodeFitting s).2 = (.ok true, file')) :
    readSummary file' = some (encodeFitting s).1 := by
  rcases replaceBlobIf_cases file expected (encodeFitting s).2 with ⟨-, he⟩ | ⟨-, -, he⟩ |
    ⟨hfits, -, page, he, hread⟩
  · cases he.symm.trans h
  · cases he.symm.trans h
  · cases he.symm.trans h
    have hblob : readBlob (some page) = some (encodeFitting s).2 := hread (encodeFitting_ne_nil s)
    exact Option.bind_eq_some_iff.mpr ⟨_, hblob, deserialize_encodeFitting hfits⟩

/-- The page brings back what was fitted to it. -/
theorem Reachable.maintained {attrs : List (IndexAttr D)} {s : IndexSummary} {rows : List (Row D)}
    (h : Reachable pg attrs s rows) : Maintained pg attrs s rows := by
  induction h with
  | build h => exact .build h
  | insert _ h ih => exact .insert ih h
  | fit _ ih => exact .fit ih
  | write _ hwrite hread ih =>
      have hs := (readSummary_writeSummary hwrite).symm.trans hread
      exact Option.some.inj hs ▸ ih.fit
  | replace _ hreplace hread ih =>
      have hs := (readSummary_replaceBlobIf hreplace).symm.trans hread
      exact Option.some.inj hs ▸ ih.fit

/-- The extent of the entry is always computed with `range_merge`: the column was
planned as a range, and its type name does not make it a geometry. -/
structure KeptByRangeMerge (pg : Pg D) (a : IndexAttr D) (c : ColSummary) : Prop where
  planned : (planAccumulator pg a.typ).kind = .range
  typeName : endsWith c.typeName ".geometry" = false

/-- The states that an entry with the values `seen` can be in. -/
structure WellFormed (pg : Pg D) (a : IndexAttr D) (seen : List (Option D)) (c : ColSummary) :
    Prop where
  unbounded : c.unbounded = true → c.min = none ∧ c.max = none
  allNulls : c.allNulls = true → c.hasNulls = true ∧ c.min = none ∧ c.max = none
  extent : c.overlap = true → c.max = none
  paired : c.overlap = false → (c.min = none ↔ c.max = none)
  empty : c.unbounded = false → c.overlap = false ∨ KeptByRangeMerge pg a c →
    (c.min = none ↔ ∀ v ∈ seen, v = none)

/-- Giving up the bounds leaves a well-formed entry. -/
theorem WellFormed.makeUnbounded {a : IndexAttr D} {seen seen' : List (Option D)} {c : ColSummary}
    (h : WellFormed pg a seen c) : WellFormed pg a seen' c.makeUnbounded where
  unbounded _ := ⟨rfl, rfl⟩
  allNulls hall := ⟨(h.allNulls hall).1, rfl, rfl⟩
  extent _ := rfl
  paired _ := Iff.rfl
  empty hunb := by cases hunb

/-! ## The build -/

/-- What an accumulator holds before and after the first value. -/
def Accumulator.Shape (seen : List D) : Accumulator D → Prop
  | .minMax _ min max => (min = none ↔ seen = []) ∧ (max = none ↔ seen = [])
  | .range extent => extent = none ↔ seen = []
  | .geometry batch extent => seen = [] → batch = [] ∧ extent = none
  | .unsupported => True

theorem planAccumulator_shape (pg : Pg D) (typ : Oid) : (planAccumulator pg typ).Shape [] := by
  rcases planAccumulator_cases pg typ with h | h | h | ⟨cmp, h⟩ <;> rw [h] <;>
    simp [Accumulator.Shape]

/-- A flush has nothing to do before the first value. -/
theorem flushGeometry_shape {g : Guc} {col col' : ColumnBuild D} {seen : List D}
    (hshape : col.acc.Shape seen) (h : flushGeometry pg g col = .ok col') :
    col'.acc.Shape seen := by
  unfold flushGeometry at h
  split at h
  · rename_i batch extent hacc
    rw [hacc] at hshape
    obtain ⟨batch', hbatch, h⟩ := bind_eq_ok.mp h
    split at h
    · cases h
      rw [hacc]
      exact hshape
    · rename_i hne
      obtain ⟨result, -, h⟩ := bind_eq_ok.mp h
      cases h
      intro hseen
      obtain ⟨rfl, rfl⟩ := hshape hseen
      cases hbatch
      exact absurd rfl hne
  · cases h
    exact hshape

theorem addValue_shape {g : Guc} {col col' : ColumnBuild D} {seen : List D} {value : D}
    (h : addValue pg g col value = .ok col') : col'.acc.Shape (seen ++ [value]) := by
  unfold addValue at h
  split at h
  · obtain ⟨below, -, h⟩ := bind_eq_ok.mp h
    obtain ⟨above, -, h⟩ := bind_eq_ok.mp h
    cases h
    simp [Accumulator.Shape]
  · cases h
    simp [Accumulator.Shape]
  · cases h
    simp [Accumulator.Shape]
  · obtain ⟨merged, -, h⟩ := bind_eq_ok.mp h
    cases h
    simp [Accumulator.Shape]
  · rename_i batch extent hacc
    have hshape : (Accumulator.geometry (batch ++ [value]) extent).Shape (seen ++ [value]) := by
      simp [Accumulator.Shape]
    split at h
    · exact flushGeometry_shape hshape h
    · cases h
      exact hshape
  · rename_i hacc
    cases h
    rw [hacc]
    trivial

/-- The column has counted the values, and its accumulator has taken them in. -/
structure Shaped (pg : Pg D) (attrs : List (IndexAttr D)) (a : IndexAttr D) (seen : List (Option D))
    (col : ColumnBuild D) : Prop extends Counted pg attrs a seen col where
  shape : col.acc.Shape (seen.filterMap id)

theorem buildColumn_shaped {g : Guc} {attrs : List (IndexAttr D)} {a : IndexAttr D}
    {col col' : ColumnBuild D} {seen : List (Option D)} {row : Row D}
    (hshaped : Shaped pg attrs a seen col)
    (h : buildColumn pg g (indexTuple attrs row) col = .ok col') :
    Shaped pg attrs a (seen ++ [a.value row]) col' := by
  refine ⟨buildColumn_counted hshaped.toCounted h, ?_⟩
  rw [buildColumn, hshaped.tuple row] at h
  split at h
  · rename_i hnull
    cases h
    simpa [hnull] using hshaped.shape
  · rename_i value hval
    have hshape : col'.acc.Shape (seen.filterMap id ++ [value]) := addValue_shape h
    simpa [hval] using hshape

theorem filterMap_id_eq_nil {seen : List (Option D)} :
    seen.filterMap id = [] ↔ ∀ v ∈ seen, v = none := by
  simp [List.filterMap_eq_nil_iff]

/-- The bounds that are rendered from an accumulator, as long as none is lost. -/
theorem renderBounds_shape {g : Guc} {col : ColumnBuild D} {seen : List D}
    {overlap unbounded : Bool}
    {min max : Option String} (hshape : col.acc.Shape seen)
    (h : renderBounds pg g col = .ok (overlap, min, max, unbounded)) :
    (overlap = true → max = none) ∧ (seen = [] → min = none ∧ max = none) ∧
      (unbounded = false → col.acc.lostBound min max = false → seen ≠ [] →
        (overlap = false → min ≠ none ∧ max ≠ none) ∧ (col.acc.kind = .range → min ≠ none)) := by
  unfold renderBounds at h
  split at h
  · rename_i cmp lo hi hacc
    rw [hacc] at hshape ⊢
    obtain ⟨lot, hlot, h⟩ := bind_eq_ok.mp h
    obtain ⟨hit, hhit, h⟩ := bind_eq_ok.mp h
    cases h
    refine ⟨by simp, fun hseen => ?_, fun _ hlost _ => ⟨fun _ => ?_, by simp [Accumulator.kind]⟩⟩
    · rw [hshape.1.mpr hseen] at hlot
      rw [hshape.2.mpr hseen] at hhit
      cases hlot
      cases hhit
      exact ⟨rfl, rfl⟩
    · simpa [Accumulator.lostBound, Option.isSome_iff_ne_none] using hlost
  · rename_i extent hacc
    rw [hacc] at hshape ⊢
    obtain ⟨text, htext, h⟩ := bind_eq_ok.mp h
    cases h
    refine ⟨fun _ => rfl, fun hseen => ?_, fun _ hlost _ => ⟨by simp, fun _ => ?_⟩⟩
    · rw [hshape.mpr hseen] at htext
      cases htext
      exact ⟨rfl, rfl⟩
    · simpa [Accumulator.lostBound, Option.isSome_iff_ne_none] using hlost
  · rename_i batch extent hacc
    rw [hacc] at hshape ⊢
    cases h
    exact ⟨fun _ => rfl, fun hseen => ⟨(hshape hseen).2, rfl⟩,
      fun _ _ _ => ⟨by simp, by simp [Accumulator.kind]⟩⟩
  · cases h
    simp

/-- The build leaves well-formed entries. -/
theorem finishColumn_wellFormed {g : Guc} {attrs : List (IndexAttr D)} {a : IndexAttr D}
    {seen : List (Option D)} {col : ColumnBuild D} {out : ColSummary}
    (hshaped : Shaped pg attrs a seen col) (h : finishColumn pg g col = .ok out) :
    WellFormed pg a seen out := by
  obtain ⟨flushed, overlap, min, max, unbounded, hflush, hrender, rfl⟩ := finishColumn_cases h
  have hcount := hshaped.toCounted.of_same (flushGeometry_same hflush)
  obtain ⟨hextent, hnone, hsome⟩ := renderBounds_shape
    (flushGeometry_shape hshaped.shape hflush) hrender
  have hnonnull : flushed.nonnull = 0 ↔ seen.filterMap id = [] := by
    rw [hcount.nonnull, List.length_eq_zero_iff]
  have hall (hall : (flushed.entry overlap min max unbounded).allNulls = true) :
      flushed.nonnull = 0 ∧ 0 < flushed.nulls := of_decide_eq_true hall
  unfold ColumnBuild.settle
  split
  · -- the bounds are given up
    refine ⟨fun _ => ⟨rfl, rfl⟩, fun h => ⟨?_, rfl, rfl⟩, fun _ => rfl, fun _ => Iff.rfl, nofun⟩
    exact decide_eq_true (hall h).2
  · rename_i hkept
    simp only [Bool.or_eq_true, Bool.and_eq_true, decide_eq_true_eq, not_or, not_and,
      Bool.not_eq_true] at hkept
    have hunb : unbounded = false := hkept.1
    have hboth (hne : seen.filterMap id ≠ []) :=
      hsome hunb (hkept.2 (Nat.pos_of_ne_zero fun h => hne (hnonnull.mp h))) hne
    refine ⟨?_, fun h => ⟨?_, hnone (hnonnull.mp (hall h).1)⟩, hextent, fun hov => ?_,
      fun _ hkind => ?_⟩
    · intro h
      exact absurd (h.symm.trans hunb) (by decide)
    · exact decide_eq_true (hall h).2
    · show min = none ↔ max = none
      by_cases hseen : seen.filterMap id = []
      · simp [hnone hseen]
      · simp [(hboth hseen).1 hov]
    · show min = none ↔ ∀ v ∈ seen, v = none
      rw [← filterMap_id_eq_nil]
      by_cases hseen : seen.filterMap id = []
      · exact iff_of_true (hnone hseen).1 hseen
      · refine iff_of_false ?_ hseen
        rcases hkind with hov | hrange
        · exact ((hboth hseen).1 hov).1
        · exact (hboth hseen).2 (hcount.kind.trans hrange.planned)

/-! ## The insert -/

theorem widenMinmax_bounds {g : Guc} {c c' : ColSummary} {typ collation : Oid} {value : D}
    {changed : Bool} (h : widenMinmax pg g c typ collation value = .ok (some (c', changed))) :
    c'.min ≠ none ∧ c'.max ≠ none := by
  obtain ⟨newText, -, ⟨-, -, -, rfl⟩ |
      ⟨s, t, cmp, lo, hi, below, above, -, -, -, -, -, -, -, -, rfl⟩⟩ :=
    widenMinmax_cases h
  · simp
  · simp

theorem widenOverlap_bounds {g : Guc} {c c' : ColSummary} {typ : Oid} {value : D} {changed : Bool}
    (h : widenOverlap pg g c typ value = .ok (some (c', changed))) :
    c'.max = c.max ∧ (endsWith c.typeName ".geometry" = false → c'.min ≠ none) := by
  obtain ⟨extent, hextent, h⟩ := bind_eq_ok.mp h
  cases extent with
  | none => cases h
  | some extent =>
      cases extent with
      | none =>
          cases h
          refine ⟨rfl, fun hrange => ?_⟩
          -- `range_merge` always has a result
          simp only [extentWith, hrange, Bool.false_eq_true, if_false] at hextent
          obtain ⟨merged, -, hextent⟩ := bind_eq_ok.mp hextent
          cases merged with
          | none => cases hextent
          | some merged =>
              obtain ⟨text, -, hextent⟩ := bind_eq_ok.mp hextent
              cases text <;> cases hextent
      | some w =>
          simp only at h
          split at h
          · cases h
            exact ⟨rfl, fun _ => by simp⟩
          · rename_i hsame
            cases h
            rw [not_not.mp hsame]
            exact ⟨rfl, fun _ => by simp⟩

theorem widenColumn_wellFormed {g : Guc} {a : IndexAttr D} {seen : List (Option D)}
    {c c' : ColSummary} {value : Option D} {changed : Bool} (hc : WellFormed pg a seen c)
    (h : widenColumn pg g c a.typ a.collation value = .ok (c', changed)) :
    WellFormed pg a (value :: seen) c' := by
  cases value with
  | none =>
      -- a NULL sets a flag
      have hnulls : WellFormed pg a (none :: seen) { c with hasNulls := true } :=
        ⟨hc.unbounded, fun hall => ⟨rfl, (hc.allNulls hall).2⟩, hc.extent, hc.paired,
          fun hunb hkind => (hc.empty hunb (hkind.imp_right fun h => ⟨h.planned, h.typeName⟩)).trans
            (by simp)⟩
      simp only [widenColumn] at h
      split at h
      · cases h
        exact hnulls
      · rename_i hset
        cases h
        have hset : c.hasNulls = true := by simpa using hset
        rw [← hset] at hnulls
        exact hnulls
  | some value =>
      simp only [widenColumn] at h
      split at h
      · rename_i hunb
        cases h
        refine ⟨hc.unbounded, by simp, hc.extent, hc.paired, fun hno => ?_⟩
        exact absurd (hno.symm.trans hunb) (by decide)
      · rename_i hunb
        obtain ⟨widened, hwidened, h⟩ := bind_eq_ok.mp h
        cases widened with
        | none =>
            cases h
            refine ⟨fun _ => ⟨rfl, rfl⟩, by simp [ColSummary.makeUnbounded], fun _ => rfl,
              fun _ => Iff.rfl, fun hno => ?_⟩
            cases hno
        | some r =>
            obtain ⟨w, ch⟩ := r
            cases h
            have hframe := widenBounds_frame hwidened
            have hunb' : c'.unbounded = false := by
              rw [hframe]
              simpa using hunb
            have hall' : c'.allNulls = false := by rw [hframe]
            have hov' : c'.overlap = c.overlap := by rw [hframe]
            have htypeName : c'.typeName = c.typeName := by rw [hframe]
            have hbounds : (c'.overlap = true → c'.max = none) ∧
                (c'.overlap = false → c'.min ≠ none ∧ c'.max ≠ none) ∧
                (c'.overlap = true → KeptByRangeMerge pg a c' → c'.min ≠ none) := by
              unfold widenBounds at hwidened
              split at hwidened
              · rename_i hov
                obtain ⟨hmax, hmin⟩ := widenOverlap_bounds hwidened
                refine ⟨fun _ => hmax.trans (hc.extent hov), fun hno => ?_, fun _ hrange => ?_⟩
                · exact absurd ((hov'.symm.trans hno).symm.trans hov) (by decide)
                · exact hmin (htypeName ▸ hrange.typeName)
              · rename_i hov
                refine ⟨fun hno => ?_, fun _ => widenMinmax_bounds hwidened, fun hno => ?_⟩
                · exact absurd (hov'.symm.trans hno) hov
                · exact absurd (hov'.symm.trans hno) hov
            refine ⟨fun hno => ?_, fun hno => ?_, hbounds.1, fun hov => ?_, fun _ hkind => ?_⟩
            · exact absurd (hunb'.symm.trans hno) (by decide)
            · exact absurd (hall'.symm.trans hno) (by decide)
            · simp [hbounds.2.1 hov]
            · have hmin : c'.min ≠ none := by
                cases hov : c'.overlap with
                | false => exact (hbounds.2.1 hov).1
                | true => exact hbounds.2.2 hov (hkind.resolve_left (by simp [hov]))
              simp [hmin]

/-! ## Every history -/

theorem Maintained.wellFormed {attrs : List (IndexAttr D)} (hdistinct : DistinctColumns attrs)
    {s : IndexSummary} {rows : List (Row D)} (h : Maintained pg attrs s rows) :
    List.Forall₂ (fun a c => c.attnum = a.attnum ∧ WellFormed pg a (rows.map a.value) c)
      (summarized attrs) s.cols := by
  induction h with
  | build h =>
      refine buildLeafSummary_forall₂ (R := Shaped pg attrs)
        (Q := fun a seen c => c.attnum = a.attnum ∧ WellFormed pg a seen c)
        (fun a _ hplan hfresh => ⟨hfresh.counted hplan,
          hfresh.acc ▸ planAccumulator_shape pg a.typ⟩)
        (fun _ _ _ _ _ _ hshaped hstep => buildColumn_shaped hshaped hstep)
        (fun _ a _ _ out _ hshaped hout => ⟨?_, finishColumn_wellFormed hshaped hout⟩) h
      exact (finishColumn_counts hout).1.trans hshaped.planned.attnum
  | insert _ h ih =>
      refine (widenSummary_forall₂ (fun _ _ hac => hac.1) (fun a c c' changed hac hc => ?_)
        hdistinct
        ih (widenStable_eq_ok h)).1
      have hattnum := (widenColumn_sameColumn hc).attnum.trans hac.1
      exact ⟨hattnum, widenColumn_wellFormed hac.2 hc⟩
  | fit _ ih =>
      refine Lib.Aligned.forall₂_comp (fun a c c' hac hdrop => ?_) ih (encodeFitting_dropped _)
      rcases hdrop with rfl | ⟨-, rfl⟩
      · exact hac
      · exact ⟨hac.1, hac.2.makeUnbounded⟩

variable (ord : pg.BtreeOrder) in
/-- The bounds of a btree entry are texts of two values, the smaller one first. -/
def InOrder (a : IndexAttr D) (c : ColSummary) : Prop :=
  ∀ s t, c.overlap = false → c.min = some s → c.max = some t →
    ∃ lo hi, pg.Renders a.typ s lo ∧ pg.Renders a.typ t hi ∧
      (columnOrder ord a.typ c.collation).le lo hi

/-- An entry that has bounds has taken in a value, which lies between them. -/
theorem WellFormed.inOrder {ord : pg.BtreeOrder} {a : IndexAttr D}
    {seen : List (Option D)} {c : ColSummary} (h : WellFormed pg a seen c)
    (hcovers : ∀ v ∈ seen, Covers ord pg.noExtents a c v) : InOrder ord a c := by
  intro s t hov hs ht
  have hunb : c.unbounded = false := by
    by_contra hno
    have hnone := h.unbounded (eq_true_of_ne_false hno)
    rw [hs] at hnone
    cases hnone.1
  have hsome : ¬∀ v ∈ seen, v = none := by
    rw [← h.empty hunb (Or.inl hov), hs]
    simp
  obtain ⟨v, hv⟩ : ∃ v, some v ∈ seen := by
    by_contra hno
    refine hsome fun v hv => ?_
    cases v with
    | none => rfl
    | some v => exact absurd ⟨v, hv⟩ hno
  have hin := ((hcovers _ hv).2.resolve_left (by simp [hunb])).inRange hov
  obtain ⟨s', t', lo, hi, hs', ht', hlo, hhi, hlov, hvhi⟩ := hin
  obtain rfl : s' = s := Option.some.inj (hs'.symm.trans hs)
  obtain rfl : t' = t := Option.some.inj (ht'.symm.trans ht)
  exact ⟨lo, hi, hlo, hhi, (columnOrder ord a.typ c.collation).le_trans _ _ _ hlov hvhi⟩

/-- The state in which `widen_minmax` finds exactly one bound. -/
def ColSummary.OneBound (c : ColSummary) : Prop :=
  c.overlap = false ∧ (c.min = none ∧ c.max ≠ none ∨ c.min ≠ none ∧ c.max = none)

theorem WellFormed.not_oneBound {a : IndexAttr D} {seen : List (Option D)} {c : ColSummary}
    (h : WellFormed pg a seen c) : ¬c.OneBound := by
  rintro ⟨hov, ⟨hmin, hmax⟩ | ⟨hmin, hmax⟩⟩
  · exact hmax ((h.paired hov).mp hmin)
  · exact hmin ((h.paired hov).mpr hmax)

/-- Every entry that can be reached is well formed, a fold of a value into it finds
both bounds or neither, and the bounds are in order. -/
theorem reachable_wellFormed {attrs : List (IndexAttr D)} (hdistinct : DistinctColumns attrs)
    {s : IndexSummary} {rows : List (Row D)} (h : Reachable pg attrs s rows) :
    List.Forall₂ (fun a c => WellFormed pg a (rows.map a.value) c ∧ ¬c.OneBound ∧
        (∀ ord : pg.BtreeOrder, pg.TextRoundTrip → InOrder ord a c))
      (summarized attrs) s.cols := by
  have hwell := h.maintained.wellFormed hdistinct
  have horder (i : {_ord : pg.BtreeOrder // pg.TextRoundTrip}) :
      List.Forall₂ (fun a c => InOrder i.1 a c) (summarized attrs) s.cols := by
    have hcovers := h.maintained.covers i.1 pg.noExtents i.2 hdistinct
    refine (Lib.Aligned.forall₂_and hwell hcovers).imp fun a c hac => ?_
    refine hac.1.2.inOrder fun v hv => ?_
    obtain ⟨row, hrow, rfl⟩ := List.mem_map.mp hv
    exact hac.2.2 _ ⟨row, hrow, rfl⟩
  refine (Lib.Aligned.forall₂_forall hwell horder).imp fun a c hac =>
    ⟨hac.1.2, hac.1.2.not_oneBound, ?_⟩
  intro ord io
  exact hac.2 ⟨ord, io⟩

/-- A build over 3 and an insert of 5. -/
theorem reachable_wellFormed_int4 :
    List.Forall₂ (fun a c =>
        WellFormed (Mini.pg fun _ _ => id) a ([Mini.row 5, Mini.row 3].map a.value) c ∧
          ¬c.OneBound ∧ (∀ ord : (Mini.pg fun _ _ => id).BtreeOrder,
            (Mini.pg fun _ _ => id).TextRoundTrip →
            InOrder ord a c))
      (summarized Mini.index.attrs) [Mini.entry 3 5] := by
  have hbuilt : buildLeafSummary (Mini.pg fun _ _ => id) Mini.session Mini.index.attrs
      [Mini.row 3] =
      .ok ⟨[Mini.entry 3 3]⟩ := by decide +kernel
  have hwiden : widenStable (Mini.pg fun _ _ => id) Mini.session Mini.index.attrs (Mini.row 5)
      ⟨[Mini.entry 3 3]⟩ = .ok (⟨[Mini.entry 3 5]⟩, true) := by decide +kernel
  exact reachable_wellFormed Mini.index_distinct (.insert (.build hbuilt) hwiden)

end TableRange
