import TableRange.Classification
import TableRange.Coverage.FirstEntry
import TableRange.ExtentQuery
import TableRange.Lib.Hull
import TableRange.MiniPg
import TableRange.Prune.Sound

/-!
# Extents are hulls

The stored extent of a range or geometry column is exactly the hull of the values
folded into it, however the values were batched: a range column merges in memory,
a geometry column flushes batches that take the previous extent as one more
element, and an insert merges once more through the text of the stored extent.

`ExtentOrder.HullLaws` adds to `ExtentOrder` what makes the result of
`range_merge` or `ST_Extent` the smallest one.

An insert finds `ST_Extent` by the stored type name.  A session that quotes every identifier
builds an index whose geometry columns are maintained with `range_merge`, and the extents are no
hulls then: `keepsHulls_iff`.
-/

namespace TableRange

open Lib.Fallible Lib.Hull Lib.Quoting

variable {D : Type} {pg : Pg D} {ord : pg.BtreeOrder} {eord : pg.ExtentOrder} {ex : Executor D}

namespace Pg.ExtentOrder

/-- Nothing smaller than the result of `range_merge` contains what was merged. -/
structure RangeLaws (eord : pg.ExtentOrder) : Prop where
  rangeMerge_least : ∀ {a b r u : D}, pg.rangeMerge a b = .ok r → eord.within.le a u →
    eord.within.le b u → eord.within.le r u
  /-- `ST_Extent` does not take ranges. -/
  extentQuery_range : ∀ {typ : Oid} {tn : String} {texts : List String} {extent : Option String},
    pg.HasTypeName typ tn → (planAccumulator pg typ).kind = .range →
    pg.spiValue (extentQuery (geometrySchema tn) tn texts) ≠ .ok extent

/-- Nothing smaller than what `ST_Extent` returns contains what it was given, empty
geometries apart, and empty geometries alone have no extent.  The texts in the query are those
of values. -/
structure GeometryLaws (eord : pg.ExtentOrder) : Prop where
  extentQuery_least : ∀ {typ : Oid} {tn w : String} {texts : List String} {e u : D},
    pg.HasTypeName typ tn → (∀ t ∈ texts, ∃ d, pg.Renders typ t d) →
    pg.spiValue (extentQuery (geometrySchema tn) tn texts) = .ok (some w) →
    pg.ExtentText typ w e →
    (∀ t ∈ texts, ∀ d, pg.Renders typ t d → ¬eord.emptyGeometry d → eord.within.le d u) →
    eord.within.le e u
  flushQuery_least : ∀ {typ : Oid} {tn w : String} {ds : List D} {value : Option Bytes} {e u : D},
    pg.HasTypeName typ tn →
    pg.spiExecuteWithArgs (flushQuery (geometrySchema tn) tn) ds = .ok value →
    value.bind fromUtf8 = some w → pg.ExtentText typ w e →
    (∀ d ∈ ds, ¬eord.emptyGeometry d → eord.within.le d u) → eord.within.le e u
  extentQuery_nonempty : ∀ {typ : Oid} {tn w : String} {texts : List String},
    pg.HasTypeName typ tn → (∀ t ∈ texts, ∃ d, pg.Renders typ t d) →
    pg.spiValue (extentQuery (geometrySchema tn) tn texts) = .ok (some w) →
    ∃ t ∈ texts, ∃ d, pg.Renders typ t d ∧ ¬eord.emptyGeometry d
  flushQuery_nonempty : ∀ {typ : Oid} {tn w : String} {ds : List D} {value : Option Bytes},
    pg.HasTypeName typ tn →
    pg.spiExecuteWithArgs (flushQuery (geometrySchema tn) tn) ds = .ok value →
    value.bind fromUtf8 = some w → ∃ d ∈ ds, ¬eord.emptyGeometry d

/-- The laws for the columns of a kind. -/
structure HullLaws (eord : pg.ExtentOrder) (kind : Kind) : Prop where
  ranges : kind = .range → eord.RangeLaws
  geometries : kind = .geometry → eord.GeometryLaws

theorem RangeLaws.hullLaws (laws : eord.RangeLaws) : eord.HullLaws .range :=
  ⟨fun _ => laws, nofun⟩

/-- The smallest extent around the values. -/
@[reducible] def IsHull (eord : pg.ExtentOrder) (vals : Set D) (e : D) : Prop :=
  @IsLUB D eord.within.toLE vals e

/-- The two sets have the same hull. -/
@[reducible] def SameHull (eord : pg.ExtentOrder) (s t : Set D) : Prop :=
  @Lib.Hull.SameHull D eord.within s t

end Pg.ExtentOrder

/-- The result of `range_merge` is the hull of its arguments. -/
theorem Pg.ExtentOrder.RangeLaws.rangeMerge_isLUB (laws : eord.RangeLaws) {a b r : D}
    (h : pg.rangeMerge a b = .ok r) : eord.IsHull {a, b} r := by
  obtain ⟨hleft, hright⟩ := eord.rangeMerge_upper h
  refine ⟨fun x hx => ?_, fun u hu => ?_⟩
  · rcases hx with rfl | rfl
    · exact hleft
    · exact hright
  · exact laws.rangeMerge_least h (hu (Set.mem_insert _ _)) (hu (Set.mem_insert_of_mem _ rfl))

/-! ## The build -/

/-- The datum that the text of an extent stands for. -/
def extentSet (pg : Pg D) (typ : Oid) (extent : Option String) : Set D :=
  {e | ∃ t, extent = some t ∧ pg.ExtentText typ t e}

/-- What an accumulator holds has the hull of the values `seen`, and is empty
geometry when they all are. -/
def HoldsHull (eord : pg.ExtentOrder) (a : IndexAttr D) (seen : List D) : Accumulator D → Prop
  | .range extent =>
      (extent = none ↔ seen = []) ∧ eord.SameHull {v | v ∈ seen} {e | extent = some e}
  | .geometry batch extent =>
      (∀ t, extent = some t → ∃ e, pg.ExtentText a.typ t e ∧ ¬eord.emptyGeometry e) ∧
        ((∀ v ∈ seen, eord.emptyGeometry v) ↔
          (∀ v ∈ batch, eord.emptyGeometry v) ∧ extent = none) ∧
        eord.SameHull {v | v ∈ seen} ({v | v ∈ batch} ∪ extentSet pg a.typ extent)
  | .minMax .. | .unsupported => True

theorem planAccumulator_holdsHull (a : IndexAttr D) :
    HoldsHull eord a [] (planAccumulator pg a.typ) := by
  let _ := eord.within
  rcases planAccumulator_cases pg a.typ with hacc | hacc | hacc | ⟨cmp, hacc⟩ <;> rw [hacc]
  · trivial
  · refine ⟨by simp, ?_⟩
    simpa using SameHull.refl (∅ : Set D)
  · refine ⟨nofun, by simp, ?_⟩
    simpa [extentSet] using SameHull.refl (∅ : Set D)
  · trivial

/-- The text of an extent stands for one datum. -/
theorem extentSet_some (io : pg.TextRoundTrip) {typ : Oid} {t : String} {e : D}
    (he : pg.ExtentText typ t e) : extentSet pg typ (some t) = {e} := by
  ext d
  constructor
  · rintro ⟨t', ht', hd⟩
    cases ht'
    exact io.unique hd.1 he.1
  · rintro rfl
    exact ⟨t, rfl, he⟩

/-- What a flush makes of a batch: its hull, or nothing if the batch is empty
geometry throughout. -/
theorem flushQuery_hull (io : pg.TextRoundTrip) (laws : eord.GeometryLaws) {typ : Oid}
    {tn : String} {ds : List D} {value : Option Bytes} (htypeName : pg.HasTypeName typ tn)
    (h : pg.spiExecuteWithArgs (flushQuery (geometrySchema tn) tn) ds = .ok value) :
    (∀ t, value.bind fromUtf8 = some t → ∃ e, pg.ExtentText typ t e ∧ ¬eord.emptyGeometry e) ∧
      ((∀ d ∈ ds, eord.emptyGeometry d) ↔ value.bind fromUtf8 = none) ∧
      eord.SameHull {d | d ∈ ds} (extentSet pg typ (value.bind fromUtf8)) := by
  let _ := eord.within
  have hup := eord.flushQuery_upper htypeName h
  cases hvalue : value.bind fromUtf8 with
  | none =>
      have hempty : ∀ d ∈ ds, eord.emptyGeometry d := fun d hd =>
        (hup d hd).resolve_right fun ⟨w, _, hw, _⟩ => by simp [hvalue] at hw
      refine ⟨nofun, iff_of_true hempty rfl, ?_⟩
      have hset : extentSet pg typ none = ∅ := by simp [extentSet]
      rw [hset]
      exact sameHull_empty fun d hd e => eord.within_of_emptyGeometry e (hempty d hd)
  | some w =>
      obtain ⟨d, hd, hnonempty⟩ := laws.flushQuery_nonempty htypeName h hvalue
      obtain ⟨w', e, hw', he, hde⟩ := (hup d hd).resolve_left hnonempty
      obtain rfl : w' = w := Option.some.inj (hw'.symm.trans hvalue)
      refine ⟨fun t ht => ?_, iff_of_false (fun hall => hnonempty (hall d hd)) nofun, ?_⟩
      · cases ht
        exact ⟨e, he, fun hempty => hnonempty (eord.emptyGeometry_of_within hde hempty)⟩
      · rw [extentSet_some io he]
        refine sameHull_singleton_iff.mpr ⟨fun x hx => ?_, fun u hu => ?_⟩
        · rcases hup x hx with hempty | ⟨w'', e', hw'', he', hxe⟩
          · exact eord.within_of_emptyGeometry e hempty
          · obtain rfl : w'' = w' := Option.some.inj (hw''.symm.trans hw')
            rwa [io.unique he'.1 he.1] at hxe
        · exact laws.flushQuery_least htypeName h hvalue he fun x hx _ => hu hx

/-- The previous extent, read back into the batch, stands for what it stood for. -/
theorem flushBatch_hull {g : Guc} {a : IndexAttr D} {seen batch batch' : List D}
    {extent : Option String} (hheld : HoldsHull eord a seen (.geometry batch extent))
    (h : flushBatch pg g (pg.getBaseType a.typ) batch extent = .ok batch') :
    ((∀ v ∈ seen, eord.emptyGeometry v) ↔ ∀ v ∈ batch', eord.emptyGeometry v) ∧
      eord.SameHull {v | v ∈ seen} {v | v ∈ batch'} := by
  obtain ⟨hreads, hempty, hsame⟩ := hheld
  rcases flushBatch_cases h with ⟨rfl, rfl⟩ | ⟨t, d, rfl, rfl, hd⟩
  · refine ⟨by simpa using hempty, ?_⟩
    simpa [extentSet] using hsame
  · obtain ⟨e, he, hnonempty⟩ := hreads t rfl
    obtain rfl := he.2 g d hd
    refine ⟨iff_of_false (fun hall => nomatch (hempty.mp hall).2) (fun hall => ?_), ?_⟩
    · exact hnonempty (hall d (by simp))
    · have hset : {v | v ∈ batch} ∪ extentSet pg a.typ (some t) = {v | v ∈ batch ++ [d]} := by
        ext v
        simp only [Set.mem_union, Set.mem_ofPred_eq, List.mem_append, List.mem_singleton]
        refine or_congr_right ⟨?_, ?_⟩
        · rintro ⟨t', ht', hv⟩
          cases ht'
          exact (hv.2 g d hd).symm
        · rintro rfl
          exact ⟨t, rfl, he⟩
      rwa [hset] at hsame

theorem flushGeometry_holdsHull (io : pg.TextRoundTrip) {g : Guc}
    {attrs : List (IndexAttr D)} {a : IndexAttr D} {col col' : ColumnBuild D} {seen : List D}
    (laws : eord.HullLaws col.acc.kind) (hplan : PlannedFor pg attrs a col)
    (hheld : HoldsHull eord a seen col.acc)
    (h : flushGeometry pg g col = .ok col') : HoldsHull eord a seen col'.acc := by
  let _ := eord.within
  unfold flushGeometry at h
  split at h
  · rename_i batch extent hcol
    obtain ⟨batch', hbatch, h⟩ := bind_eq_ok.mp h
    rw [hcol] at hheld
    rw [hplan.typ] at hbatch
    split at h
    · cases h
      exact hcol ▸ hheld
    · obtain ⟨value, hvalue, h⟩ := bind_eq_ok.mp h
      cases h
      obtain ⟨hempty, hsame⟩ := flushBatch_hull hheld hbatch
      obtain ⟨hreads, hempty', hsame'⟩ :=
        flushQuery_hull io (laws.geometries (by rw [hcol]; rfl)) hplan.typeName hvalue
      refine ⟨hreads, by simpa using hempty.trans hempty', ?_⟩
      simpa using hsame.trans hsame'
  · cases h
    exact hheld

/-- Folding in one more value. -/
theorem addValue_holdsHull (io : pg.TextRoundTrip) {g : Guc}
    {attrs : List (IndexAttr D)} {a : IndexAttr D} {col col' : ColumnBuild D} {seen : List D}
    {value : D} (laws : eord.HullLaws col.acc.kind) (hplan : PlannedFor pg attrs a col)
    (hheld : HoldsHull eord a seen col.acc)
    (h : addValue pg g col value = .ok col') : HoldsHull eord a (seen ++ [value]) col'.acc := by
  let _ := eord.within
  have hsnoc : {v | v ∈ seen ++ [value]} = {v | v ∈ seen} ∪ {value} := by
    ext v
    simp [or_comm]
  unfold addValue at h
  split at h
  · obtain ⟨below, -, h⟩ := bind_eq_ok.mp h
    obtain ⟨above, -, h⟩ := bind_eq_ok.mp h
    cases h
    trivial
  · cases h
    trivial
  · rename_i hcol
    cases h
    rw [hcol] at hheld
    obtain rfl := hheld.1.mp rfl
    refine ⟨by simp, ?_⟩
    have hsingle : {e | some value = some e} = {value} := by
      ext e
      simp [eq_comm]
    rw [hsnoc, hsingle]
    simpa using SameHull.refl {value}
  · rename_i old hcol
    obtain ⟨merged, hmerged, h⟩ := bind_eq_ok.mp h
    cases h
    rw [hcol] at hheld
    have hold : IsLUB {v | v ∈ seen} old := by
      rw [← sameHull_singleton_iff]
      simpa [eq_comm] using hheld.2
    refine ⟨by simp, ?_⟩
    have hsingle : {e | some merged = some e} = {merged} := by
      ext e
      simp [eq_comm]
    rw [hsingle, hsnoc, Set.union_comm, Set.singleton_union]
    have hranges := laws.ranges (by rw [hcol]; rfl)
    exact sameHull_singleton_iff.mpr (isLUB_insert hold (hranges.rangeMerge_isLUB hmerged))
  · rename_i batch extent hcol
    rw [hcol] at hheld
    obtain ⟨hreads, hempty, hsame⟩ := hheld
    have hpushed : HoldsHull eord a (seen ++ [value]) (.geometry (batch ++ [value]) extent) := by
      refine ⟨hreads, ?_, ?_⟩
      · simp only [List.mem_append, List.mem_singleton, or_imp, forall_and, forall_eq, hempty]
        tauto
      · have hbatch : {v | v ∈ batch ++ [value]} ∪ extentSet pg a.typ extent =
            ({v | v ∈ batch} ∪ extentSet pg a.typ extent) ∪ {value} := by
          ext v
          simp only [Set.mem_union, Set.mem_ofPred_eq, List.mem_append, List.mem_singleton,
            Set.mem_singleton_iff]
          tauto
        rw [hsnoc, hbatch]
        exact hsame.union (.refl _)
    simp only at h
    split at h
    · have hkind : eord.HullLaws (Accumulator.geometry (batch ++ [value]) extent).kind := by
        rw [hcol] at laws
        exact laws
      exact flushGeometry_holdsHull io hkind (hplan.of_eq col.nonnull col.nulls _) hpushed h
    · cases h
      exact hpushed
  · rename_i hcol
    cases h
    rw [hcol]
    trivial

/-! ## The entry -/

variable (pg) in
/-- A type whose columns keep an extent: a range type or a domain over one, or
PostGIS's `geometry` itself. -/
def HasExtent (typ : Oid) : Prop :=
  (planAccumulator pg typ).kind = .range ∨
    (planAccumulator pg typ).kind = .geometry ∧ pg.getBaseType typ = typ

variable (eord) in
/-- The extent of an entry is the hull of the values.  It is absent when there is
nothing to cover: no value, or empty geometries only. -/
structure StoredHull (typ : Oid) (vals : Set D) (extent : Option String) : Prop where
  none_iff : extent = none ↔ if (planAccumulator pg typ).kind = .geometry then
    ∀ v ∈ vals, eord.emptyGeometry v else vals = ∅
  hull : ∀ t, extent = some t → ∃ e, pg.Renders typ t e ∧ eord.IsHull vals e ∧
    ((planAccumulator pg typ).kind = .geometry → pg.ExtentText typ t e ∧ ¬eord.emptyGeometry e)

/-- What is rendered without a loss is the hull. -/
theorem renderBounds_storedHull (io : pg.TextRoundTrip) {g : Guc} (hg : g.Stable)
    {a : IndexAttr D} {col : ColumnBuild D} {seen : List D} {overlap unbounded : Bool}
    {min max : Option String} (htyp : col.typ = a.typ)
    (hkind : col.acc.kind = (planAccumulator pg a.typ).kind)
    (hextent : col.acc.kind = .range ∨ col.acc.kind = .geometry)
    (hheld : HoldsHull eord a seen col.acc)
    (hflushed : ∀ batch extent, col.acc = .geometry batch extent → batch = [])
    (hkept : seen ≠ [] → col.acc.lostBound min max = false)
    (h : renderBounds pg g col = .ok (overlap, min, max, unbounded)) :
    StoredHull eord a.typ {v | v ∈ seen} min := by
  let _ := eord.within
  unfold renderBounds at h
  rw [htyp] at h
  split at h
  · rename_i hcol
    simp [hcol, Accumulator.kind] at hextent
  · rename_i extent hcol
    obtain ⟨text, htext, h⟩ := bind_eq_ok.mp h
    cases h
    have hrange : (planAccumulator pg a.typ).kind ≠ .geometry := by
      rw [← hkind, hcol]
      simp [Accumulator.kind]
    rw [hcol] at hheld hkept
    obtain ⟨hnone, hsame⟩ := hheld
    cases extent with
    | none =>
        cases htext
        obtain rfl := hnone.mp rfl
        exact ⟨by simp [hrange], by simp⟩
    | some e =>
        have hseen : seen ≠ [] := fun hseen => by cases hnone.mpr hseen
        obtain ⟨t, rfl⟩ : ∃ t, min = some t := by
          simpa [Accumulator.lostBound, Option.isSome_iff_exists] using hkept hseen
        refine ⟨?_, ?_⟩
        · simp [hrange, Set.eq_empty_iff_forall_notMem, ← List.eq_nil_iff_forall_not_mem, hseen]
        · rintro t' ⟨⟩
          refine ⟨e, ⟨g, hg, htext⟩, ?_, fun hgeometry => absurd hgeometry hrange⟩
          rw [Pg.ExtentOrder.IsHull, ← sameHull_singleton_iff]
          simpa [eq_comm] using hsame
  · rename_i batch extent hcol
    cases h
    have hgeometry : (planAccumulator pg a.typ).kind = .geometry := by rw [← hkind, hcol]; rfl
    obtain rfl := hflushed batch _ hcol
    rw [hcol] at hheld
    obtain ⟨hreads, hempty, hsame⟩ := hheld
    refine ⟨by simpa [hgeometry] using hempty.symm, fun t ht => ?_⟩
    obtain ⟨e, he, hnonempty⟩ := hreads t ht
    refine ⟨e, he.1, ?_, fun _ => ⟨he, hnonempty⟩⟩
    rw [ht, extentSet_some io he] at hsame
    rw [Pg.ExtentOrder.IsHull, ← sameHull_singleton_iff]
    simpa using hsame
  · rename_i hcol
    simp [hcol, Accumulator.kind] at hextent

/-- The extent in an entry that a build writes. -/
theorem finishColumn_storedHull (io : pg.TextRoundTrip) {g : Guc}
    (hg : g.Stable) {attrs : List (IndexAttr D)} {a : IndexAttr D} {seen : List (Option D)}
    {col : ColumnBuild D} {out : ColSummary}
    (laws : eord.HullLaws (planAccumulator pg a.typ).kind) (hcount : Counted pg attrs a seen col)
    (hheld : HoldsHull eord a (seen.filterMap id) col.acc)
    (hextent : HasExtent pg a.typ) (h : finishColumn pg g col = .ok out)
    (hunb : out.unbounded = false) :
    StoredHull eord a.typ {v | some v ∈ seen} out.min := by
  obtain ⟨flushed, overlap, min, max, unbounded, hflush, hrender, rfl⟩ := finishColumn_cases h
  have hheld' := flushGeometry_holdsHull io (hcount.kind ▸ laws) hcount.planned hheld hflush
  have hcount' := hcount.of_same (flushGeometry_same hflush)
  have hvals : {v | some v ∈ seen} = {v | v ∈ seen.filterMap id} := by
    ext v
    simp
  -- no bound has been lost
  unfold ColumnBuild.settle at hunb ⊢
  split at hunb
  · cases hunb
  · rename_i hkept
    rw [if_neg hkept, hvals]
    simp only [Bool.or_eq_true, Bool.and_eq_true, decide_eq_true_eq, not_or, not_and,
      Bool.not_eq_true] at hkept
    refine renderBounds_storedHull io hg hcount'.planned.typ hcount'.kind
      (hcount'.kind ▸ hextent.imp_right And.left) hheld'
      (flushGeometry_batch hflush) (fun hseen => hkept.2 ?_) hrender
    rw [hcount'.nonnull]
    exact List.length_pos_iff.mpr hseen

/-! ## The insert -/

/-- `range_merge` with the stored extent. -/
theorem rangeExtentWith_storedHull (io : pg.TextRoundTrip) (laws : eord.RangeLaws) {g : Guc}
    (hg : g.Stable) {a : IndexAttr D} {c : ColSummary} {value : D} {extent : Option String}
    {vals : Set D} (hrange : (planAccumulator pg a.typ).kind = .range)
    (hstored : StoredHull eord a.typ vals c.min)
    (h : rangeExtentWith pg g c a.typ value = .ok (some extent)) :
    ∃ w, extent = some w ∧ StoredHull eord a.typ (insert value vals) (some w) := by
  let _ := eord.within
  have hgeometry : (planAccumulator pg a.typ).kind ≠ .geometry := by simp [hrange]
  obtain ⟨merged, hmerged, h⟩ := bind_eq_ok.mp h
  cases merged with
  | none => cases h
  | some merged =>
  obtain ⟨text, htext, h⟩ := bind_eq_ok.mp h
  cases text with
  | none => cases h
  | some w =>
  cases h
  have hhull : eord.IsHull (insert value vals) merged := by
    unfold mergedExtent at hmerged
    split at hmerged
    · rename_i hmin
      cases hmerged
      have hvals : vals = ∅ := by simpa [hgeometry] using hstored.none_iff.mp hmin
      rw [hvals, insert_empty_eq]
      exact isLUB_singleton
    · rename_i t hmin
      obtain ⟨d, hd, hmerged⟩ := bind_eq_ok.mp hmerged
      obtain ⟨e, he, hhull, -⟩ := hstored.hull t hmin
      obtain rfl : some e = d := Except.ok.inj ((io.read hg he).symm.trans hd)
      obtain ⟨m, hm, hmerged⟩ := bind_eq_ok.mp hmerged
      cases hmerged
      exact isLUB_insert hhull (laws.rangeMerge_isLUB hm)
  refine ⟨w, rfl, by simp [hgeometry, (Set.insert_nonempty value vals).ne_empty], ?_⟩
  rintro t ⟨⟩
  exact ⟨merged, ⟨g, hg, htext⟩, hhull, fun hno => absurd hno hgeometry⟩

/-- `ST_Extent` over the value and the stored extent. -/
theorem geometryExtentWith_storedHull (io : pg.TextRoundTrip) (laws : eord.GeometryLaws) {g : Guc}
    (hg : g.Stable) {a : IndexAttr D} {c : ColSummary} {value : D} {extent : Option String}
    {vals : Set D} (hgeometry : (planAccumulator pg a.typ).kind = .geometry)
    (htypeName : pg.HasTypeName a.typ c.typeName)
    (hstored : StoredHull eord a.typ vals c.min)
    (h : geometryExtentWith pg g c a.typ value = .ok (some extent)) :
    StoredHull eord a.typ (insert value vals) extent := by
  let _ := eord.within
  obtain ⟨text, htext, h⟩ := bind_eq_ok.mp h
  cases text with
  | none => cases h
  | some newText =>
  obtain ⟨extent', hextent, h⟩ := bind_eq_ok.mp h
  cases h
  have hnew : pg.Renders a.typ newText value := ⟨g, hg, htext⟩
  have hup := eord.extentQuery_upper htypeName hextent
  have hempty : c.min = none ↔ ∀ v ∈ vals, eord.emptyGeometry v := by
    simpa [hgeometry] using hstored.none_iff
  -- the texts of the query stand for the value and for the old hull
  have htexts : ∀ t ∈ newText :: c.min.toList, ∀ d, pg.Renders a.typ t d →
      d = value ∨ eord.IsHull vals d ∧ ¬eord.emptyGeometry d := by
    intro t ht d hd
    rcases List.mem_cons.mp ht with rfl | ht
    · exact Or.inl (io.unique hd hnew)
    · obtain ⟨e, he, hhull, hnonempty⟩ := hstored.hull t (Option.mem_toList.mp ht)
      obtain rfl := io.unique hd he
      exact Or.inr ⟨hhull, (hnonempty hgeometry).2⟩
  have hrendered : ∀ t ∈ newText :: c.min.toList, ∃ d, pg.Renders a.typ t d := by
    intro t ht
    rcases List.mem_cons.mp ht with rfl | ht
    · exact ⟨value, hnew⟩
    · obtain ⟨e, he, -⟩ := hstored.hull t (Option.mem_toList.mp ht)
      exact ⟨e, he⟩
  cases extent with
  | none =>
      have hnone : ∀ t ∈ newText :: c.min.toList, ∀ d, pg.Renders a.typ t d →
          eord.emptyGeometry d :=
        fun t ht d hd => (hup t ht d hd).resolve_right fun ⟨w, _, hw, _⟩ => nomatch hw
      refine ⟨iff_of_true rfl ?_, nofun⟩
      rw [if_pos hgeometry]
      rintro v (rfl | hv)
      · exact hnone newText List.mem_cons_self v hnew
      · refine hempty.mp (Option.eq_none_iff_forall_ne_some.mpr fun t ht => ?_) v hv
        obtain ⟨e, he, -, hnonempty⟩ := hstored.hull t ht
        exact (hnonempty hgeometry).2 (hnone t (by simp [ht]) e he)
  | some w =>
      obtain ⟨t, ht, d, hd, hnonempty⟩ := laws.extentQuery_nonempty htypeName hrendered hextent
      obtain ⟨w', e, hw', he, hde⟩ := (hup t ht d hd).resolve_left hnonempty
      cases hw'
      have he' : ¬eord.emptyGeometry e := fun hno =>
        hnonempty (eord.emptyGeometry_of_within hde hno)
      have hwithin : ∀ t ∈ newText :: c.min.toList, ∀ d, pg.Renders a.typ t d →
          eord.within.le d e := by
        intro t ht d hd
        rcases hup t ht d hd with hempty | ⟨w', e', hw', he'', hle⟩
        · exact eord.within_of_emptyGeometry e hempty
        · cases hw'
          rwa [io.unique he''.1 he.1] at hle
      have hvalue : eord.within.le value e := hwithin newText List.mem_cons_self value hnew
      refine ⟨iff_of_false nofun fun hall => ?_, ?_⟩
      · -- one of the two is not empty
        rw [if_pos hgeometry] at hall
        rcases htexts t ht d hd with rfl | ⟨hhull, -⟩
        · exact hnonempty (hall _ (Set.mem_insert _ _))
        · refine hnonempty (eord.emptyGeometry_of_within (e := value) (hhull.2 fun v hv => ?_)
            (hall _ (Set.mem_insert _ _)))
          exact eord.within_of_emptyGeometry value (hall v (Set.mem_insert_of_mem _ hv))
      · rintro t' ⟨⟩
        refine ⟨e, he.1, ⟨?_, fun u hu => ?_⟩, fun _ => ⟨he, he'⟩⟩
        · rintro v (rfl | hv)
          · exact hvalue
          · cases hmin : c.min with
            | none => exact eord.within_of_emptyGeometry e (hempty.mp hmin v hv)
            | some s =>
                obtain ⟨old, hold, hhull, -⟩ := hstored.hull s hmin
                exact (hhull.1 hv).trans (hwithin s (by simp [hmin]) old hold)
        · refine laws.extentQuery_least htypeName hrendered hextent he fun t ht d hd _ => ?_
          rcases htexts t ht d hd with rfl | ⟨hhull, -⟩
          · exact hu (Set.mem_insert _ _)
          · exact hhull.2 fun v hv => hu (Set.mem_insert_of_mem _ hv)

variable (pg) in
/-- The insert finds the columns of geometries by the name. -/
def FoundByName (typ : Oid) (typeName : String) : Prop :=
  (planAccumulator pg typ).kind = .geometry → endsWith typeName ".geometry" = true

/-- Merging the value into the extent. -/
theorem extentWith_storedHull (io : pg.TextRoundTrip) {g : Guc} (hg : g.Stable)
    {a : IndexAttr D} {c : ColSummary} {value : D} {extent : Option String} {vals : Set D}
    (laws : eord.HullLaws (planAccumulator pg a.typ).kind) (hextent : HasExtent pg a.typ)
    (hfound : FoundByName pg a.typ c.typeName) (htypeName : pg.HasTypeName a.typ c.typeName)
    (hstored : StoredHull eord a.typ vals c.min)
    (h : extentWith pg g c a.typ value = .ok (some extent)) :
    StoredHull eord a.typ (insert value vals) extent := by
  unfold extentWith at h
  rcases hextent with hrange | ⟨hgeometry, hbase⟩
  · have hranges := laws.ranges hrange
    split at h
    · obtain ⟨text, -, h⟩ := bind_eq_ok.mp h
      cases text with
      | none => cases h
      | some newText =>
          obtain ⟨extent', hno, -⟩ := bind_eq_ok.mp h
          exact absurd hno (hranges.extentQuery_range htypeName hrange)
    · obtain ⟨w, rfl, hw⟩ := rangeExtentWith_storedHull io hranges hg hrange hstored h
      exact hw
  · rw [if_pos (hfound hgeometry)] at h
    exact geometryExtentWith_storedHull io (laws.geometries hgeometry) hg hgeometry htypeName
      hstored h

theorem widenOverlap_storedHull (io : pg.TextRoundTrip) {g : Guc} (hg : g.Stable)
    {a : IndexAttr D} {c c' : ColSummary} {value : D} {changed : Bool} {vals : Set D}
    (laws : eord.HullLaws (planAccumulator pg a.typ).kind) (hextent : HasExtent pg a.typ)
    (hfound : FoundByName pg a.typ c.typeName) (htypeName : pg.HasTypeName a.typ c.typeName)
    (hstored : StoredHull eord a.typ vals c.min)
    (h : widenOverlap pg g c a.typ value = .ok (some (c', changed))) :
    StoredHull eord a.typ (insert value vals) c'.min := by
  obtain ⟨extent, hwith, h⟩ := bind_eq_ok.mp h
  cases extent with
  | none => cases h
  | some extent =>
  have hnew := extentWith_storedHull io hg laws hextent hfound htypeName hstored hwith
  cases extent with
  | none =>
      cases h
      -- without an extent for the union there was none before
      have hall := hnew.none_iff.mp rfl
      have hold : c.min = none := by
        rw [hstored.none_iff]
        split at hall
        · rename_i hgeometry
          rw [if_pos hgeometry]
          exact fun v hv => hall v (Set.mem_insert_of_mem _ hv)
        · exact absurd hall (Set.insert_nonempty value vals).ne_empty
      rwa [hold]
  | some w =>
      simp only at h
      split at h
      · cases h
        exact hnew
      · rename_i hsame
        cases h
        rwa [not_not.mp hsame]

variable (eord) in
/-- What is known of the first entry of an attribute of type `typ` that has the
values `vals`. -/
structure ExtentEntry (typ : Oid) (vals : Set D) (c : ColSummary) : Prop where
  typeName : pg.HasTypeName typ c.typeName
  overlap : c.overlap = true
  stored : FoundByName pg typ c.typeName → c.unbounded = false → StoredHull eord typ vals c.min

/-- One call of `widen_column` on an entry with an extent. -/
theorem widenColumn_storedHull (io : pg.TextRoundTrip) {g : Guc} (hg : g.Stable)
    {a : IndexAttr D} {c c' : ColSummary} {collation : Oid} {value : Option D}
    {changed : Bool} {vals : Set D} (laws : eord.HullLaws (planAccumulator pg a.typ).kind)
    (hextent : HasExtent pg a.typ) (hfound : FoundByName pg a.typ c.typeName)
    (hentry : ExtentEntry eord a.typ vals c)
    (h : widenColumn pg g c a.typ collation value = .ok (c', changed))
    (hunb : c'.unbounded = false) : StoredHull eord a.typ (vals ∪ {v | value = some v}) c'.min := by
  cases value with
  | none =>
      have hmin : c'.min = c.min ∧ c'.unbounded = c.unbounded := by
        simp only [widenColumn] at h
        split at h <;> cases h <;> exact ⟨rfl, rfl⟩
      rw [hmin.1]
      simpa using hentry.stored hfound (hmin.2.symm.trans hunb)
  | some value =>
      have hset : vals ∪ {v | some value = some v} = insert value vals := by
        ext v
        simp [eq_comm]
      rw [hset]
      simp only [widenColumn] at h
      split at h
      · rename_i hno
        cases h
        cases hno.symm.trans hunb
      · rename_i hbounded
        obtain ⟨widened, hwidened, h⟩ := bind_eq_ok.mp h
        cases widened with
        | none =>
            cases h
            cases hunb
        | some r =>
            obtain ⟨c₂, ch⟩ := r
            cases h
            rw [widenBounds, if_pos hentry.overlap] at hwidened
            exact widenOverlap_storedHull (c := { c with allNulls := false }) io hg laws
              hextent hfound hentry.typeName
              (hentry.stored hfound (eq_false_of_ne_true hbounded)) hwidened

/-! ## The history -/

/-- A heap column has one type, however often the index lists it. -/
def SameTypes (attrs : List (IndexAttr D)) : Prop :=
  ∀ a ∈ summarized attrs, ∀ b ∈ summarized attrs, a.attnum = b.attnum → a.typ = b.typ

theorem buildColumn_holdsHull (io : pg.TextRoundTrip) {g : Guc}
    {attrs : List (IndexAttr D)} {a : IndexAttr D} {col col' : ColumnBuild D}
    {seen : List (Option D)} {row : Row D}
    (laws : eord.HullLaws (planAccumulator pg a.typ).kind) (hcount : Counted pg attrs a seen col)
    (hheld : HoldsHull eord a (seen.filterMap id) col.acc)
    (h : buildColumn pg g (indexTuple attrs row) col = .ok col') :
    HoldsHull eord a ((seen ++ [a.value row]).filterMap id) col'.acc := by
  rw [buildColumn, hcount.tuple row] at h
  split at h
  · rename_i hnull
    cases h
    simpa [hnull] using hheld
  · rename_i value hval
    have hadded := addValue_holdsHull io (hcount.kind ▸ laws)
      (hcount.planned.of_eq (col.nonnull + 1) col.nulls col.acc) hheld h
    simpa [hval] using hadded

/-- The values that the rows have in a heap column. -/
def columnValues (rows : List (Row D)) (n : Int16) : Set D := {v | ∃ row ∈ rows, row n = some v}

theorem columnValues_cons (row : Row D) (rows : List (Row D)) (n : Int16) :
    columnValues (row :: rows) n = columnValues rows n ∪ {v | row n = some v} := by
  ext v
  simp [columnValues, or_comm]

theorem buildLeafSummary_extentEntry (io : pg.TextRoundTrip) {session : Session}
    {attrs : List (IndexAttr D)} {rows : List (Row D)} {s : IndexSummary}
    (htypes : SameTypes attrs) {a : IndexAttr D} (ha : a ∈ summarized attrs)
    (laws : eord.HullLaws (planAccumulator pg a.typ).kind) (hextent : HasExtent pg a.typ)
    (h : buildLeafSummary pg session attrs rows = .ok s) {c : ColSummary} (hc : c ∈ s.cols)
    (hattnum : c.attnum = a.attnum) :
    ExtentEntry eord a.typ (columnValues rows a.attnum) c := by
  have hcols := buildLeafSummary_forall₂
    (R := fun b seen col => Counted pg attrs b seen col ∧
      (b.typ = a.typ → HoldsHull eord b (seen.filterMap id) col.acc))
    (Q := fun b seen c => c.attnum = b.attnum ∧ EntryKind pg b c ∧
      (b.typ = a.typ → c.unbounded = false → StoredHull eord b.typ {v | some v ∈ seen} c.min))
    (fun b _ hplan hfresh => ⟨hfresh.counted hplan,
      fun _ => hfresh.acc ▸ planAccumulator_holdsHull b⟩)
    (fun _ b _ _ _ _ hboth hstep => ⟨buildColumn_counted hboth.1 hstep,
      fun htyp => buildColumn_holdsHull io (htyp ▸ laws) hboth.1 (hboth.2 htyp) hstep⟩)
    (fun _ b _ _ _ hg hboth hout => ⟨(finishColumn_counts hout).1.trans hboth.1.planned.attnum,
      finishColumn_entryKind hboth.1 hout, fun htyp hunb =>
        finishColumn_storedHull io hg (htyp ▸ laws) hboth.1 (hboth.2 htyp) (htyp ▸ hextent) hout
          hunb⟩) h
  obtain ⟨b, hb, hbn, hkind, hstored⟩ := Lib.Aligned.forall₂_mem_right hcols c hc
  have han : b.attnum = a.attnum := hbn.symm.trans hattnum
  have htyp : b.typ = a.typ := htypes b hb a ha han
  have hvals : {v | some v ∈ rows.map b.value} = columnValues rows a.attnum := by
    ext v
    simp [columnValues, b.value_of_pos (mem_summarized.mp hb).2, han]
  rw [htyp, hvals] at hstored
  exact ⟨htyp ▸ hkind.typeName, hkind.overlap.mpr (htyp ▸ hextent.imp_right And.left),
    fun _ => hstored rfl⟩

/-- The first entry of a column keeps the hull through every history. -/
theorem Maintained.extentEntry (io : pg.TextRoundTrip) {attrs : List (IndexAttr D)}
    {s : IndexSummary} {rows : List (Row D)} (hs : Maintained pg attrs s rows)
    (htypes : SameTypes attrs) {a : IndexAttr D} (ha : a ∈ summarized attrs)
    (laws : eord.HullLaws (planAccumulator pg a.typ).kind) (hextent : HasExtent pg a.typ)
    {c : ColSummary} (hc : firstEntry s.cols a.attnum = some c) :
    ExtentEntry eord a.typ (columnValues rows a.attnum) c := by
  refine hs.firstEntry_rule (mem_summarized.mp ha).2
    (P := fun rows c => ExtentEntry eord a.typ (columnValues rows a.attnum) c) ?_ ?_ ?_ hc
  · intro session rows s hbuilt c hmem hattnum
    exact buildLeafSummary_extentEntry io htypes ha laws hextent hbuilt hmem hattnum
  · intro rows row g b c c' changed hb hbn hg hold hwiden
    obtain ⟨vals, hentry, hvals⟩ : ∃ vals, ExtentEntry eord a.typ vals c ∧
        vals ∪ {v | row a.attnum = some v} = columnValues (row :: rows) a.attnum := by
      rcases hold with hold | hold
      · exact ⟨_, hold, (columnValues_cons row rows a.attnum).symm⟩
      · -- another position of the column has folded the value in already
        refine ⟨_, hold, ?_⟩
        rw [columnValues_cons, Set.union_assoc, Set.union_self]
    have hb' : b ∈ summarized attrs := mem_summarized.mpr ⟨hb, hbn ▸ (mem_summarized.mp ha).2⟩
    have htyp : b.typ = a.typ := htypes b hb' a ha hbn
    rw [htyp] at hwiden
    have hsame := widenColumn_sameColumn hwiden
    refine ⟨hsame.typeName ▸ hentry.typeName, hsame.overlap.trans hentry.overlap,
      fun hfound hunb => ?_⟩
    rw [hsame.typeName] at hfound
    rw [← hvals]
    exact widenColumn_storedHull io hg laws hextent hfound hentry hwiden hunb
  · intro rows c hentry
    exact ⟨hentry.typeName, hentry.overlap, nofun⟩

/-- A value lies in the extent that is the hull of the values. -/
theorem StoredHull.inExtent {a : IndexAttr D} {vals : Set D} {c : ColSummary} {v : D}
    (h : StoredHull eord a.typ vals c.min) (hv : v ∈ vals) : InExtent eord a c v := by
  cases hmin : c.min with
  | none =>
      have hnone := h.none_iff.mp hmin
      split at hnone
      · exact Or.inl (hnone v hv)
      · exact absurd (hnone ▸ hv) (Set.notMem_empty v)
  | some t =>
      obtain ⟨e, he, hhull, -⟩ := h.hull t hmin
      exact Or.inr ⟨t, e, hmin, he, hhull.1 hv⟩

/-- The stored extent of the entry is the hull of the values that the rows have in the column,
and an operator `&&` that is decided on it is true of none of them. -/
structure HullSound (eord : pg.ExtentOrder) (cols : List ColSummary) (rows : List (Row D))
    (a : IndexAttr D) (c : ColSummary) : Prop where
  hull : c.unbounded = false → StoredHull eord a.typ (columnValues rows a.attnum) c.min
  prune : ∀ {ex : Executor D}, ex.OverlapLaws eord → ∀ {g : Guc}, g.Stable →
    ∀ {opno inputcollid : Oid} {left right : Node D} {vc : VarConst D},
      varConst left right = some vc → vc.varattno = a.attnum → vc.vartype = a.typ →
      leafProvesPrune pg g cols (.opExpr opno inputcollid [left, right]) = .ok true →
      ∀ row ∈ rows, ex.truth pg row (.opExpr opno inputcollid [left, right]) ≠ some true

theorem ExtentEntry.hullSound (io : pg.TextRoundTrip) {cols : List ColSummary}
    {rows : List (Row D)} {a : IndexAttr D} {c : ColSummary}
    (hentry : ExtentEntry eord a.typ (columnValues rows a.attnum) c)
    (hfound : FoundByName pg a.typ c.typeName) (hc : firstEntry cols a.attnum = some c) :
    HullSound eord cols rows a c := by
  refine ⟨hentry.stored hfound, ?_⟩
  intro ex overlap g hg opno inputcollid left right vc hvc hattno hvartype hprune row hrow
  unfold leafProvesPrune at hprune
  split at hprune
  · cases hprune
  rename_i spec hspec
  have hspec : extractOpexpr pg opno inputcollid [left, right] = some spec := hspec
  obtain ⟨left', right', vc', k, hargs, hvc', hk, hcases⟩ := extractOpexpr_cases hspec
  cases hargs
  obtain rfl : vc = vc' := Option.some.inj (hvc.symm.trans hvc')
  have hattnum : spec.attnum = a.attnum := by
    rcases hcases with ⟨_, -, rfl⟩ | ⟨-, -, rfl⟩ <;> exact hattno
  rw [hattnum] at hprune
  rw [show cols.find? (fun r => r.attnum == a.attnum) = some c from hc] at hprune
  rcases hcases with ⟨op, -, rfl⟩ | ⟨-, htrusted, rfl⟩
  · -- an extent says nothing about a btree operator
    simp [QualSpec.provesPrune, hentry.overlap] at hprune
  · refine overlap_sound io overlap hg hvc hk htrusted (by rw [hvartype])
      (fun v hv _ hunb => ?_) hprune
    exact (hentry.stored hfound hunb).inExtent ⟨row, hrow, hattno ▸ hv⟩

/-- In every history of an index, the extents of the columns of the type are hulls.
`quoteAll` is what the session of the build has set `quote_all_identifiers` to. -/
def KeepsHulls (eord : pg.ExtentOrder) (quoteAll : Bool) (typ : Oid) : Prop :=
  ∀ {session : Session} {attrs : List (IndexAttr D)} {scanned inserted : List (Row D)}
    {built s : IndexSummary}, session.quoteAllIdentifiers = quoteAll → SameTypes attrs →
    buildLeafSummary pg session attrs scanned = .ok built → Grown pg attrs built s inserted →
    ∀ {a : IndexAttr D}, a ∈ summarized attrs → a.typ = typ → ∀ {c : ColSummary},
      firstEntry s.cols a.attnum = some c → HullSound eord s.cols (inserted ++ scanned) a c

/-- A column of geometries that is no domain has a type named `geometry`. -/
theorem typeNameParts_geometry {typ : Oid} (hbase : pg.getBaseType typ = typ)
    (hgeometry : (planAccumulator pg typ).kind = .geometry) :
    ∃ nsp, pg.typeNameParts typ = some (nsp, "geometry") := by
  simp only [planAccumulator, hbase] at hgeometry
  split at hgeometry
  · cases hgeometry
  · split at hgeometry
    · cases hgeometry
    · split at hgeometry
      · rename_i hname
        obtain ⟨⟨nsp, name⟩, hparts, hname⟩ := (Option.any_eq_true _ _).mp hname
        have hname : name = "geometry" := eq_of_beq hname
        exact ⟨nsp, hname ▸ hparts⟩
      · split at hgeometry <;> cases hgeometry

/-- The first value of a geometry column that the insert does not find: it becomes the extent
itself, empty or not. -/
theorem widenColumn_notFound {g : Guc} {a : IndexAttr D} {c : ColSummary} {v : D} {t : String}
    (hov : c.overlap = true) (hunb : c.unbounded = false) (hmin : c.min = none)
    (hname : endsWith c.typeName ".geometry" = false)
    (hv : pg.datumToText g a.typ v = .ok (some t)) :
    widenColumn pg g c a.typ a.collation (some v) =
      .ok ({ c with allNulls := false, min := some t }, true) := by
  simp [widenColumn, widenBounds, widenOverlap, extentWith, rangeExtentWith, mergedExtent, hov,
    hunb, hmin, hname, hv, bind, Except.bind]

/-- An index on an empty table, built under `quote_all_identifiers`, takes an empty geometry for
an extent. -/
theorem not_keepsHulls_of_quoted (quotes : pg.QuotesIdentifiers) {typ : Oid}
    (hbase : pg.getBaseType typ = typ) (hgeometry : (planAccumulator pg typ).kind = .geometry)
    {v : D} {t : String} (hempty : eord.emptyGeometry v) (hv : pg.Renders typ t v) :
    ¬KeepsHulls eord true typ := by
  intro hkeeps
  obtain ⟨g, hg, htext⟩ := hv
  obtain ⟨nsp, hparts⟩ := typeNameParts_geometry hbase hgeometry
  have htypeName := pg.qualifiedTypeName_eq hparts true
  have hunnamed : endsWith (pg.quoteQualifiedIdentifier true nsp "geometry") ".geometry" = false :=
    eq_false_of_ne_true fun h => by simpa using (endsWith_qualified quotes true nsp _).mp h
  let a : IndexAttr D := { attnum := 1, typ, collation := invalidOid, expr := fun _ => none }
  let session : Session := ⟨g, false, true⟩
  have hattrs : summarized [a] = [a] := rfl
  obtain ⟨planned, hplan⟩ : ∃ planned, planColumns pg session [a] = .ok planned := by
    simp [planColumns, planColumnsFrom, a, session, htypeName, bind, Except.bind]
  obtain ⟨⟨cols⟩, hbuilt, hfresh⟩ := buildLeafSummary_nil session rfl hplan
  have hkinds := (Maintained.build hbuilt).entryKind
  have hnames := buildLeafSummary_typeNames hbuilt
  rw [hattrs] at hfresh hkinds hnames
  obtain - | ⟨⟨-, hunb⟩, ⟨⟩⟩ := hfresh
  obtain - | ⟨hkind, -⟩ := hkinds
  obtain - | ⟨⟨hattnum, hname⟩, -⟩ := hnames
  rename_i c
  have htypes : SameTypes [a] := by simp [SameTypes, hattrs]
  have ha : a ∈ summarized [a] := List.mem_singleton.mpr rfl
  have hfirst (c' : ColSummary) (h : c'.attnum = c.attnum) :
      firstEntry [c'] a.attnum = some c' := by
    simp [firstEntry, h.trans hattnum]
  have hov : c.overlap = true := hkind.overlap.mpr (Or.inr hgeometry)
  have hbounded : c.unbounded = false := by
    by_contra h
    cases hgeometry.symm.trans (hunb (eq_true_of_ne_false h))
  have hmin : c.min = none := by
    have hhull := (hkeeps rfl htypes hbuilt .built ha rfl (hfirst c rfl)).hull hbounded
    rw [hhull.none_iff, if_pos hgeometry]
    rintro w ⟨row, hrow, -⟩
    cases hrow
  have hnotFound : endsWith c.typeName ".geometry" = false := by
    rw [← Except.ok.inj (htypeName.symm.trans hname)]
    exact hunnamed
  have hwiden : widenStable pg session [a] (singleRow a v) ⟨[c]⟩ =
      .ok (⟨[{ c with allNulls := false, min := some t }]⟩, true) := by
    have hcolumn := widenColumn_notFound hov hbounded hmin hnotFound htext (a := a)
    have htuple : indexTuple [a] (singleRow a v) 0 = some v := rfl
    rw [widenStable, withStableIo_of_not_parallel _ rfl, hg.pin_eq]
    simp [widenSummary, widenSummaryFrom, widenFirst, hattnum, htuple, hcolumn, bind, Except.bind]
  have hsound := hkeeps rfl htypes hbuilt (.insert .built hwiden) ha rfl
    (hfirst { c with allNulls := false, min := some t } rfl)
  have hpresent := (hsound.hull hbounded).none_iff
  rw [if_pos hgeometry] at hpresent
  have hall : ∀ w ∈ columnValues ([singleRow a v] ++ []) a.attnum, eord.emptyGeometry w := by
    rintro w ⟨row, hrow, hw⟩
    obtain rfl := List.mem_singleton.mp hrow
    rw [singleRow_attnum] at hw
    exact Option.some.inj hw ▸ hempty
  cases hpresent.mpr hall

/-- The extents of a type that has them are hulls exactly when no index on a geometry column is
built under `quote_all_identifiers`. -/
theorem keepsHulls_iff (io : pg.TextRoundTrip) (quotes : pg.QuotesIdentifiers) (quoteAll : Bool)
    {typ : Oid} (laws : eord.HullLaws (planAccumulator pg typ).kind) (hextent : HasExtent pg typ)
    (hempty : (planAccumulator pg typ).kind = .geometry →
      ∃ t v, pg.Renders typ t v ∧ eord.emptyGeometry v) :
    KeepsHulls eord quoteAll typ ↔
      ((planAccumulator pg typ).kind = .geometry → quoteAll = false) := by
  constructor
  · intro hkeeps hgeometry
    by_contra hquoted
    obtain rfl : quoteAll = true := eq_true_of_ne_false hquoted
    obtain ⟨t, v, hv, hempty⟩ := hempty hgeometry
    have hbase : pg.getBaseType typ = typ := by
      rcases hextent with hrange | ⟨-, hbase⟩
      · cases hrange.symm.trans hgeometry
      · exact hbase
    exact not_keepsHulls_of_quoted quotes hbase hgeometry hempty hv hkeeps
  · rintro hquoting session attrs scanned inserted built s rfl htypes hbuilt hgrown a ha rfl c hc
    have hs := hgrown.maintained hbuilt
    refine (hs.extentEntry io htypes ha laws hextent hc).hullSound io (fun hgeometry => ?_) hc
    have hbase : pg.getBaseType a.typ = a.typ := by
      rcases hextent with hrange | ⟨-, hbase⟩
      · cases hrange.symm.trans hgeometry
      · exact hbase
    obtain ⟨nsp, hparts⟩ := typeNameParts_geometry hbase hgeometry
    obtain ⟨b, hb, hbn, hname⟩ := Lib.Aligned.forall₂_mem_right (hgrown.typeNames hbuilt) c
      (List.mem_of_find?_eq_some hc)
    have hcn : c.attnum = a.attnum := by simpa using List.find?_some hc
    rw [htypes b hb a ha (hbn.symm.trans hcn)] at hname
    rw [← Except.ok.inj ((pg.qualifiedTypeName_eq hparts _).symm.trans hname)]
    exact (endsWith_qualified quotes _ nsp _).mpr ⟨rfl, hquoting hgeometry⟩

section Mini

/-- The cells of a geometry of the small server, the bits of its number. -/
def cells (d : Int) : Set Nat := {i | d.toNat.testBit i = true}

/-- A geometry with the cells of all. -/
def cellUnion (ds : List Int) : Nat := ds.foldr (fun d cs => d.toNat ||| cs) 0

/-- The text of the union, `none` without cells. -/
def extentText (ds : List Int) : Option Bytes :=
  if cellUnion ds = 0 then none else some (utf8Bytes (Mini.text (cellUnion ds)))

/-- The small server with one type, `public.geometry`. -/
def cellPg : Pg Int :=
  { Mini.pg fun _ _ n => n with
    searchTypeOid := fun typ =>
      if typ = invalidOid then none
      else some { typname := "geometry", typnamespace := 2200, typtype := 'b', typlen := -1 }
    getNamespaceName := fun _ => some "public"
    quoteIdentifier := quoteName
    getOpname := fun opno => if opno = Mini.op geometry 7 then some "&&" else none
    getFuncNamespace := fun _ => 2200
    boolCall := fun _ _ a b => .ok (a.toNat &&& b.toNat != 0)
    rangeMerge := fun _ _ => .error "not a range"
    spiExecute := fun sql => .ok (extentText ((sqlTexts true sql).map Mini.parse))
    spiExecuteWithArgs := fun _ ds => .ok (extentText ds) }

theorem cells_eq_empty {d : Int} : cells d = ∅ ↔ d.toNat = 0 := by
  rw [Set.eq_empty_iff_forall_notMem]
  refine ⟨fun h => Nat.eq_of_testBit_eq fun i => ?_, fun h i => ?_⟩
  · rw [Nat.zero_testBit]
    exact eq_false_of_ne_true (h i)
  · simp [cells, h]

theorem mem_cells_union {ds : List Int} {i : Nat} :
    i ∈ cells (cellUnion ds) ↔ ∃ d ∈ ds, i ∈ cells d := by
  induction ds with
  | nil => simp [cells, cellUnion]
  | cons d ds ih =>
      have hcons : i ∈ cells (cellUnion (d :: ds)) ↔ i ∈ cells d ∨ i ∈ cells (cellUnion ds) := by
        simp [cells, cellUnion, Nat.testBit_or]
      rw [hcons, ih, List.exists_mem_cons_iff]

theorem overlaps_iff {a b : Int} :
    (a.toNat &&& b.toNat != 0) = true ↔ (cells a ∩ cells b).Nonempty := by
  have hand : cells ((a.toNat &&& b.toNat : Nat) : Int) = cells a ∩ cells b := by
    ext i
    simp [cells, Nat.testBit_and]
  rw [bne_iff_ne, Set.nonempty_iff_ne_empty, ← hand, ne_eq, ne_eq, cells_eq_empty,
    Int.toNat_natCast]

private theorem cellPg_textRoundTrip : cellPg.TextRoundTrip where
  read hg h := (Mini.textRoundTrip fun _ _ n => n).read hg h

private theorem cellPg_renders {typ : Oid} {t : String} {d : Int} (h : cellPg.Renders typ t d) :
    t = Mini.text d :=
  (Mini.renders (fun _ _ n => n) h).2

/-- What a union stands for. -/
private theorem extentText_spec {typ : Oid} (htyp : typ ≠ invalidOid) (ds : List Int) :
    (extentText ds).bind fromUtf8 = none ∧ (∀ d ∈ ds, d.toNat = 0) ∨
      ∃ w, (extentText ds).bind fromUtf8 = some w ∧ cellPg.ExtentText typ w (cellUnion ds) ∧
        ∃ d ∈ ds, d.toNat ≠ 0 := by
  by_cases hunion : cellUnion ds = 0
  · refine Or.inl ⟨by simp [extentText, hunion], fun d hd => ?_⟩
    rw [← cells_eq_empty, Set.eq_empty_iff_forall_notMem]
    intro i hi
    have hmem := mem_cells_union.mpr ⟨d, hd, hi⟩
    rw [hunion, cells_eq_empty.mpr rfl] at hmem
    exact hmem
  · have hrenders : cellPg.Renders typ (Mini.text (cellUnion ds)) (cellUnion ds) :=
      ⟨Mini.session.guc, Mini.session_stable,
        Mini.datumToText (fun _ _ n => n) (g := Mini.session.guc) htyp _⟩
    refine Or.inr ⟨Mini.text (cellUnion ds), ?_, ⟨hrenders, fun g d hd => ?_⟩, ?_⟩
    · simp [extentText, hunion, fromUtf8_utf8Bytes]
    · have hread := Mini.textToDatum (fun _ _ n => n) (g := g) htyp (cellUnion ds)
      exact Option.some.inj (Except.ok.inj (hd.symm.trans hread))
    · by_contra hall
      push Not at hall
      refine hunion (Int.toNat_natCast (cellUnion ds) ▸ cells_eq_empty.mp ?_)
      rw [Set.eq_empty_iff_forall_notMem]
      intro i hi
      obtain ⟨d, hd, hi⟩ := mem_cells_union.mp hi
      rw [cells_eq_empty.mpr (hall d hd)] at hi
      exact hi

/-- The names that the one type can be stored under. -/
private theorem cellPg_typeName {typ : Oid} {tn : String} (h : cellPg.HasTypeName typ tn) :
    typ ≠ invalidOid ∧ (tn = "public.geometry" ∨ tn = "\"public\".\"geometry\"") := by
  obtain ⟨quoteAll, h⟩ := h
  have htyp : typ ≠ invalidOid := by
    rintro rfl
    cases h
  refine ⟨htyp, ?_⟩
  have hparts : cellPg.typeNameParts typ = some ("public", "geometry") := by
    simp [Pg.typeNameParts, cellPg, htyp]
  rw [cellPg.qualifiedTypeName_eq hparts] at h
  cases h
  cases quoteAll
  · exact Or.inl (by decide +kernel)
  · exact Or.inr (by decide +kernel)

/-- The query gives the union of the values that its texts are. -/
private theorem cellPg_spiValue {typ : Oid} {tn : String} (h : cellPg.HasTypeName typ tn)
    (texts : List String) :
    cellPg.spiValue (extentQuery (geometrySchema tn) tn texts) =
      .ok ((extentText (texts.map Mini.parse)).bind fromUtf8) := by
  have htexts : sqlTexts true (extentQuery (geometrySchema tn) tn texts) = texts := by
    have hsafe : ∀ t ∈ texts, LiteralSafe true t := fun _ _ => Or.inl rfl
    have hns : SqlLexes true "public" (sqlChars "public") := .chars _ (notMem_sqlQuotes rfl)
    have hnone (s : String) : (sqlChars s).filterMap (Token.body? '\'') = [] :=
      filterMap_body_chars _ _
    rcases (cellPg_typeName h).2 with rfl | rfl
    · have htn : SqlLexes true "public.geometry" (sqlChars "public.geometry") :=
        .chars _ (notMem_sqlQuotes rfl)
      rw [show geometrySchema "public.geometry" = "public" by decide +kernel]
      exact sqlTexts_extentQuery hns htn (hnone _) (hnone _) hsafe
    · have hquoted (body : List Char) : Lexes (sqlEscape true) sqlQuotes (quote '"' body)
          [.quoted '"' body] :=
        .quote (by decide) fun c hc => by cases hc
      have htn : SqlLexes true "\"public\".\"geometry\""
          ([.quoted '"' "public".toList] ++ (sqlChars "." ++ [.quoted '"' "geometry".toList])) := by
        have hname := (hquoted "public".toList).separated ".".toList (notMem_sqlQuotes rfl)
          (by simp) (hquoted "geometry".toList)
        have htoList : "\"public\".\"geometry\"".toList = quote '"' "public".toList ++
            (".".toList ++ quote '"' "geometry".toList) := by decide +kernel
        unfold SqlLexes
        rw [htoList]
        exact hname
      rw [show geometrySchema "\"public\".\"geometry\"" = "public" by decide +kernel]
      refine sqlTexts_extentQuery hns htn (hnone _) ?_ hsafe
      simp [hnone, Token.body?]
  simp [Pg.spiValue, cellPg, htexts, bind, Except.bind]

/-- A set of cells lies in another. -/
@[reducible] def cellExtents : cellPg.ExtentOrder where
  within :=
    { le := fun d e => cells d ⊆ cells e
      lt := fun d e => cells d ⊆ cells e ∧ ¬cells e ⊆ cells d
      le_refl := fun d => Set.Subset.refl (cells d)
      le_trans := fun _ _ _ => Set.Subset.trans }
  emptyGeometry d := d.toNat = 0
  within_of_emptyGeometry {d} e h := by
    have hd : cells d = ∅ := cells_eq_empty.mpr h
    show cells d ⊆ cells e
    rw [hd]
    exact Set.empty_subset (cells e)
  emptyGeometry_of_within {d e} h he := by
    have hle : cells d ⊆ cells e := h
    rw [cells_eq_empty.mpr he] at hle
    exact cells_eq_empty.mp (Set.subset_empty_iff.mp hle)
  rangeMerge_upper h := by cases h
  extentQuery_upper {typ tn texts extent} h hextent t ht d hd := by
    rw [cellPg_spiValue h] at hextent
    cases hextent
    have hmem : d ∈ texts.map Mini.parse :=
      List.mem_map.mpr ⟨t, ht, by rw [cellPg_renders hd, Mini.parse_text]⟩
    rcases extentText_spec (cellPg_typeName h).1 (texts.map Mini.parse) with
      ⟨-, hempty⟩ | ⟨w, hw, he, -⟩
    · exact Or.inl (hempty d hmem)
    · exact Or.inr ⟨w, _, hw, he, fun i hi => mem_cells_union.mpr ⟨d, hmem, hi⟩⟩
  flushQuery_upper {typ tn ds value} h hvalue d hd := by
    cases hvalue
    rcases extentText_spec (cellPg_typeName h).1 ds with ⟨-, hempty⟩ | ⟨w, hw, he, -⟩
    · exact Or.inl (hempty d hd)
    · exact Or.inr ⟨w, _, hw, he, fun i hi => mem_cells_union.mpr ⟨d, hd, hi⟩⟩

private theorem cellExtents_geometryLaws : cellExtents.GeometryLaws where
  extentQuery_least {typ tn w texts e u} h htexts hextent he hu := by
    rw [cellPg_spiValue h] at hextent
    rcases extentText_spec (cellPg_typeName h).1 (texts.map Mini.parse) with
      ⟨hnone, -⟩ | ⟨w', hw, he', -⟩
    · rw [hnone] at hextent
      cases hextent
    · obtain rfl : w' = w := Option.some.inj (hw.symm.trans (Except.ok.inj hextent))
      obtain rfl := cellPg_textRoundTrip.unique he.1 he'.1
      intro i hi
      obtain ⟨d, hd, hi⟩ := mem_cells_union.mp hi
      obtain ⟨t, ht, rfl⟩ := List.mem_map.mp hd
      obtain ⟨d, hd⟩ := htexts t ht
      obtain rfl : t = Mini.text d := cellPg_renders hd
      rw [Mini.parse_text] at hi
      refine hu _ ht d hd (fun hempty => ?_) hi
      rw [cells_eq_empty.mpr hempty] at hi
      exact hi
  flushQuery_least {typ tn w ds value e u} h hvalue hw he hu := by
    cases hvalue
    rcases extentText_spec (cellPg_typeName h).1 ds with ⟨hnone, -⟩ | ⟨w', hw', he', -⟩
    · cases hnone.symm.trans hw
    · obtain rfl : w' = w := Option.some.inj (hw'.symm.trans hw)
      obtain rfl := cellPg_textRoundTrip.unique he.1 he'.1
      intro i hi
      obtain ⟨d, hd, hi⟩ := mem_cells_union.mp hi
      refine hu d hd (fun hempty => ?_) hi
      rw [cells_eq_empty.mpr hempty] at hi
      exact hi
  extentQuery_nonempty {typ tn w texts} h htexts hextent := by
    rw [cellPg_spiValue h] at hextent
    rcases extentText_spec (cellPg_typeName h).1 (texts.map Mini.parse) with
      ⟨hnone, -⟩ | ⟨-, -, -, d, hd, hnonempty⟩
    · rw [hnone] at hextent
      cases hextent
    · obtain ⟨t, ht, rfl⟩ := List.mem_map.mp hd
      obtain ⟨d, hd⟩ := htexts t ht
      obtain rfl : t = Mini.text d := cellPg_renders hd
      rw [Mini.parse_text] at hnonempty
      exact ⟨_, ht, d, hd, hnonempty⟩
  flushQuery_nonempty {typ tn w ds value} h hvalue hw := by
    cases hvalue
    rcases extentText_spec (cellPg_typeName h).1 ds with ⟨hnone, -⟩ | ⟨-, -, -, hnonempty⟩
    · cases hnone.symm.trans hw
    · exact hnonempty

/-- Its `&&`. -/
def cellExecutor : Executor Int :=
  { Mini.executor fun _ _ n => n with
    opResult := fun _ _ a b =>
      match a, b with
      | some a, some b => some (a.toNat &&& b.toNat != 0)
      | _, _ => none }

private theorem cellExecutor_overlapLaws : cellExecutor.OverlapLaws cellExtents where
  strict_left _ _ _ := by simp [cellExecutor]
  strict_right _ a _ := by cases a <;> simp [cellExecutor]
  call _ h := by
    cases h
    rfl
  mono_left {_ _ _ v e k} _ hle h := by
    have hoverlaps := overlaps_iff.mp (Option.some.inj h)
    exact congrArg some (overlaps_iff.mpr (hoverlaps.mono (Set.inter_subset_inter_left _ hle)))
  mono_right {_ _ _ v e k} _ hle h := by
    have hoverlaps := overlaps_iff.mp (Option.some.inj h)
    exact congrArg some (overlaps_iff.mpr (hoverlaps.mono (Set.inter_subset_inter_right _ hle)))

/-- `column && n`. -/
def overlapNode (n : Int) : Node Int :=
  .opExpr (Mini.op geometry 7) invalidOid [.var 1 geometry, .const geometry (some n)]

/-- A batch of one cell, then the empty geometry and another cell. -/
def cellRows : List (Row Int) := List.replicate 1000 (Mini.row 1) ++ [Mini.row (-1), Mini.row 2]

def cellSummary (typeName : String) (n : Int) : IndexSummary :=
  ⟨[{ extentEntry typeName with min := some (Mini.text n) }]⟩

/-- A session builds the index with plain names.  The build flushes 1000 values, an insert adds
another cell, and the hull of all cells prunes a query for a cell that is in none. -/
theorem keepsHulls_iff_geometry :
    KeepsHulls cellExtents false geometry ∧
      (let rows := Mini.row 4 :: cellRows
        let s := cellSummary "public.geometry" 7
        buildLeafSummary cellPg Mini.session (oneColumn geometry) cellRows =
            .ok (cellSummary "public.geometry" 3) ∧
          widenStable cellPg Mini.session (oneColumn geometry) (Mini.row 4)
            (cellSummary "public.geometry" 3) = .ok (s, true) ∧
          StoredHull cellExtents geometry (columnValues rows 1) (some (Mini.text 7)) ∧
          leafProvesPrune cellPg Mini.session.guc s.cols (overlapNode 8) = .ok true ∧
          ∀ row ∈ rows, cellExecutor.truth cellPg row (overlapNode 8) ≠ some true) := by
  have hgeometry : (planAccumulator cellPg geometry).kind = .geometry := rfl
  have hempty : cellPg.Renders geometry (Mini.text (-1)) (-1) :=
    ⟨Mini.session.guc, Mini.session_stable,
      Mini.datumToText (fun _ _ n => n) (g := Mini.session.guc) (by decide) _⟩
  have hkeeps : KeepsHulls cellExtents false geometry :=
    (keepsHulls_iff cellPg_textRoundTrip (quotesIdentifiers_quoteName rfl) false
      ⟨fun h => (nomatch hgeometry.symm.trans h), fun _ => cellExtents_geometryLaws⟩
      (Or.inr ⟨hgeometry, rfl⟩) fun _ => ⟨_, -1, hempty, rfl⟩).mpr fun _ => rfl
  have hbuilt : buildLeafSummary cellPg Mini.session (oneColumn geometry) cellRows =
      .ok (cellSummary "public.geometry" 3) := by decide +kernel
  have hwidened : widenStable cellPg Mini.session (oneColumn geometry) (Mini.row 4)
      (cellSummary "public.geometry" 3) = .ok (cellSummary "public.geometry" 7, true) := by
    decide +kernel
  have hprune : leafProvesPrune cellPg Mini.session.guc (cellSummary "public.geometry" 7).cols
      (overlapNode 8) = .ok true := by decide +kernel
  have htypes : SameTypes (oneColumn geometry) := by simp [SameTypes, summarized, oneColumn]
  have hsound := hkeeps rfl htypes hbuilt (.insert .built hwidened) (List.mem_singleton.mpr rfl)
    rfl rfl
  exact ⟨hkeeps, hbuilt, hwidened, hsound.hull rfl, hprune,
    hsound.prune cellExecutor_overlapLaws Mini.session_stable rfl rfl rfl hprune⟩

/-- An index on an empty table, built under `quote_all_identifiers`: the first geometry is empty,
and its own text becomes the extent. -/
theorem not_keepsHulls_quoted :
    let c := { extentEntry "\"public\".\"geometry\"" with min := none }
    buildLeafSummary cellPg quotingSession (oneColumn geometry) [] = .ok ⟨[c]⟩ ∧
      widenStable cellPg quotingSession (oneColumn geometry) (Mini.row (-1)) ⟨[c]⟩ =
        .ok (cellSummary "\"public\".\"geometry\"" (-1), true) ∧
      ¬KeepsHulls cellExtents true geometry := by
  intro c
  have hbuilt : buildLeafSummary cellPg quotingSession (oneColumn geometry) [] =
      .ok ⟨[c]⟩ := by decide +kernel
  have hwidened : widenStable cellPg quotingSession (oneColumn geometry) (Mini.row (-1)) ⟨[c]⟩ =
      .ok (cellSummary "\"public\".\"geometry\"" (-1), true) := by decide +kernel
  refine ⟨hbuilt, hwidened, fun hkeeps => ?_⟩
  have htypes : SameTypes (oneColumn geometry) := by simp [SameTypes, summarized, oneColumn]
  have hhull : StoredHull cellExtents geometry (columnValues [Mini.row (-1)] 1)
      (some (Mini.text (-1))) :=
    (hkeeps rfl htypes hbuilt (.insert .built hwidened) (List.mem_singleton.mpr rfl) rfl
      rfl).hull rfl
  have hgeometry : (planAccumulator cellPg geometry).kind = .geometry := rfl
  have habsent := hhull.none_iff
  rw [if_pos hgeometry] at habsent
  have hempty : ∀ v ∈ columnValues [Mini.row (-1)] 1, cellExtents.emptyGeometry v := by
    rintro v ⟨row, hrow, hv⟩
    obtain rfl := List.mem_singleton.mp hrow
    cases hv
    rfl
  cases habsent.mpr hempty

end Mini

end TableRange
