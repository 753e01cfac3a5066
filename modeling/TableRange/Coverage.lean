import Mathlib.Data.List.Nodup
import TableRange.Insert

/-!
# What a summary promises

The abstract layer of the development: an entry of a summary stands for a set of
values of its column, and a summary for a set of rows.  `Covers` is membership
in that set.  Everything the extension does to a summary has to keep the rows of
the table inside it, and everything the planner concludes from a summary is a
fact about that set.

`ExtentOrder` collects what is assumed of `range_merge` and `ST_Extent`: that
their result contains what they were given.
-/

namespace TableRange

open Lib.Interval

variable {D : Type}

namespace Pg

variable (pg : Pg D)

/-- The text of an extent that a query returned: every session reads it as the
same datum, because the text of a geometry depends on no setting. -/
def ExtentText (typ : Oid) (t : String) (e : D) : Prop :=
  pg.Renders typ t e ∧
    ∀ g d, pg.textToDatum g (pg.getBaseType typ) t = .ok (some d) → d = e

/-- Containment of ranges, and of geometries in bounding boxes.  An empty
geometry needs no extent. -/
structure ExtentOrder where
  within : Preorder D
  emptyGeometry : D → Prop
  /-- An empty geometry lies within everything. -/
  within_of_emptyGeometry : ∀ {d : D} (e : D), emptyGeometry d → within.le d e
  /-- What lies within an empty geometry is empty. -/
  emptyGeometry_of_within : ∀ {d e : D}, within.le d e → emptyGeometry e → emptyGeometry d
  rangeMerge_upper : ∀ {a b r : D}, pg.rangeMerge a b = .ok r → within.le a r ∧ within.le b r
  /-- `ST_Extent` over literals, as an insert calls it. -/
  extentQuery_upper : ∀ {typ : Oid} {tn : String} {texts : List String} {extent : Option String},
    pg.HasTypeName typ tn →
    pg.spiValue (extentQuery (geometrySchema tn) tn texts) = .ok extent →
    ∀ t ∈ texts, ∀ d, pg.Renders typ t d →
      emptyGeometry d ∨ ∃ w e, extent = some w ∧ pg.ExtentText typ w e ∧ within.le d e
  /-- `ST_Extent` over an array, as the build calls it. -/
  flushQuery_upper : ∀ {typ : Oid} {tn : String} {ds : List D} {value : Option Bytes},
    pg.HasTypeName typ tn →
    pg.spiExecuteWithArgs (flushQuery (geometrySchema tn) tn) ds = .ok value →
    ∀ d ∈ ds,
      emptyGeometry d ∨ ∃ w e, value.bind fromUtf8 = some w ∧ pg.ExtentText typ w e ∧ within.le d e

/-- For results that say nothing about extents: every value counts as empty. -/
def noExtents : pg.ExtentOrder where
  within :=
    { le := fun _ _ => True
      le_refl := fun _ => trivial
      le_trans := fun _ _ _ _ _ => trivial }
  emptyGeometry := fun _ => True
  within_of_emptyGeometry := fun _ _ => trivial
  emptyGeometry_of_within := fun _ _ => trivial
  rangeMerge_upper := fun _ => ⟨trivial, trivial⟩
  extentQuery_upper := fun _ _ _ _ _ _ => Or.inl trivial
  flushQuery_upper := fun _ _ _ _ => Or.inl trivial

/-- The btree family that orders a column of this type. -/
def columnFamily (typ : Oid) : Oid :=
  pg.getOpclassFamily (pg.getDefaultOpClass (pg.getBaseType typ))

end Pg

section Covers

variable {pg : Pg D} (ord : pg.BtreeOrder) (eord : pg.ExtentOrder)

/-- The order of a column under a collation. -/
@[reducible] def columnOrder (typ collation : Oid) : Preorder D :=
  ord.order (pg.columnFamily typ) collation

/-- The value lies between the entry's bounds, under the entry's collation. -/
def InRange (a : IndexAttr D) (c : ColSummary) (v : D) : Prop :=
  ∃ s t lo hi, c.min = some s ∧ c.max = some t ∧ pg.Renders a.typ s lo ∧ pg.Renders a.typ t hi ∧
    (columnOrder ord a.typ c.collation).le lo v ∧ (columnOrder ord a.typ c.collation).le v hi

/-- The value lies within the entry's extent, or needs none. -/
def InExtent (a : IndexAttr D) (c : ColSummary) (v : D) : Prop :=
  eord.emptyGeometry v ∨ ∃ t e, c.min = some t ∧ pg.Renders a.typ t e ∧ eord.within.le v e

/-- What the bounds of an entry admit, according to its kind. -/
def InBounds (a : IndexAttr D) (c : ColSummary) (v : D) : Prop :=
  if c.overlap then InExtent eord a c v else InRange ord a c v

/-- The entry `c` of the index column `a` covers a value or NULL. -/
def Covers (a : IndexAttr D) (c : ColSummary) : Option D → Prop
  | none => c.hasNulls = true
  | some v => c.allNulls = false ∧ (c.unbounded = true ∨ InBounds ord eord a c v)

/-- The entry belongs to the index column: attribute number, collation and type
name are the column's, and btree bounds were rendered from values of its type. -/
structure EntryOf (pg : Pg D) (a : IndexAttr D) (c : ColSummary) : Prop where
  attnum : c.attnum = a.attnum
  collation : c.collation = a.collation
  typeName : pg.HasTypeName a.typ c.typeName
  min : c.overlap = false → ∀ t ∈ c.min, ∃ v, pg.Renders a.typ t v
  max : c.overlap = false → ∀ t ∈ c.max, ∃ v, pg.Renders a.typ t v

/-- The index columns that have an entry: all but the expressions. -/
def summarized (attrs : List (IndexAttr D)) : List (IndexAttr D) :=
  attrs.filter fun a => decide (0 < a.attnum)

/-- No heap column is listed twice. -/
def DistinctColumns (attrs : List (IndexAttr D)) : Prop :=
  ((summarized attrs).map IndexAttr.attnum).Nodup

/-- With distinct columns, an entry is found by its attribute number. -/
theorem entry_unique {attrs : List (IndexAttr D)} (hdistinct : DistinctColumns attrs)
    {cols : List ColSummary}
    (hcols : List.Forall₂ (fun a c => c.attnum = a.attnum) (summarized attrs) cols)
    {c c' : ColSummary} (hc : c ∈ cols) (hc' : c' ∈ cols) (h : c.attnum = c'.attnum) : c = c' := by
  have hnodup : (cols.map ColSummary.attnum).Nodup := by
    have hmap : (summarized attrs).map IndexAttr.attnum = cols.map ColSummary.attnum :=
      Lib.Aligned.forall₂_map_eq (fun _ _ hac => hac.symm) hcols
    rw [← hmap]
    exact hdistinct
  exact List.inj_on_of_nodup_map hnodup hc hc' h

/-- Entry by entry, the summary covers the values that `vals` gives each
column. -/
def SummaryCovers (attrs : List (IndexAttr D)) (summary : IndexSummary)
    (vals : IndexAttr D → Set (Option D)) : Prop :=
  List.Forall₂ (fun a c => EntryOf pg a c ∧ ∀ v ∈ vals a, Covers ord eord a c v)
    (summarized attrs) summary.cols

/-- The values that the rows have in an index column. -/
def rowValues (rows : Set (Row D)) (a : IndexAttr D) : Set (Option D) := a.value '' rows

end Covers

/-! ## Elementary facts -/

theorem mem_summarized {attrs : List (IndexAttr D)} {a : IndexAttr D} :
    a ∈ summarized attrs ↔ a ∈ attrs ∧ 0 < a.attnum := by
  simp [summarized]

/-- A heap column's index value is the row's value. -/
theorem IndexAttr.value_of_pos {a : IndexAttr D} (h : 0 < a.attnum) (row : Row D) :
    a.value row = row a.attnum := by
  have hne : a.attnum ≠ 0 := fun he => by
    rw [he] at h
    exact absurd h (by decide)
  rw [IndexAttr.value, if_neg hne]

/-- A row with the value in the column and NULL elsewhere. -/
def singleRow (a : IndexAttr D) (v : D) : Row D :=
  fun attnum => if attnum = a.attnum then some v else none

@[simp] theorem singleRow_attnum (a : IndexAttr D) (v : D) : singleRow a v a.attnum = some v :=
  if_pos rfl

section Order

variable {pg : Pg D} (ord : pg.BtreeOrder)

/-- What the compare procedure of a column says about its order. -/
theorem compareCall_spec {typ cmp collation : Oid} {x y : D} {n : Int}
    (hcmp : pg.btreeCmpProc (pg.getBaseType typ) = some cmp)
    (h : pg.compareCall cmp collation x y = .ok n) :
    (n < 0 ↔ (columnOrder ord typ collation).lt x y) ∧
      (0 < n ↔ (columnOrder ord typ collation).lt y x) := by
  simp only [Pg.btreeCmpProc] at hcmp
  split at hcmp
  · cases hcmp
  · split at hcmp
    · cases hcmp
    · rename_i hne
      obtain rfl := Option.some.inj hcmp
      exact ord.compare_spec hne h

/-- The two comparisons that fold a value into a pair of bounds, and the bounds
they leave. -/
theorem bounds_step {typ cmp collation : Oid} {value lo hi : D} {below above : Int}
    (hcmp : pg.btreeCmpProc (pg.getBaseType typ) = some cmp)
    (hbelow : pg.compareCall cmp collation value lo = .ok below)
    (habove : pg.compareCall cmp collation value hi = .ok above) :
    let le := (columnOrder ord typ collation).le
    (le (if below < 0 then value else lo) lo ∧ le (if below < 0 then value else lo) value) ∧
      (le hi (if 0 < above then value else hi) ∧ le value (if 0 < above then value else hi)) := by
  let _ := columnOrder ord typ collation
  have _ := ord.total (pg.columnFamily typ) collation
  have hb := compareCall_spec ord hcmp hbelow
  have ha := compareCall_spec ord hcmp habove
  exact ⟨lowerBound_step (fun hv => if_pos (hb.1.mpr hv)) fun hv => if_neg fun hn =>
    hv (hb.1.mp hn),
    upperBound_step (fun hv => if_pos (ha.2.mpr hv)) fun hv => if_neg fun hn => hv (ha.2.mp hn)⟩

end Order

section Covers

variable {pg : Pg D} {ord : pg.BtreeOrder} {eord : pg.ExtentOrder}

theorem InRange.inBounds {a : IndexAttr D} {c : ColSummary} {v : D} (h : InRange ord a c v)
    (hov : c.overlap = false) : InBounds ord eord a c v := by
  simpa [InBounds, hov] using h

theorem InExtent.inBounds {a : IndexAttr D} {c : ColSummary} {v : D} (h : InExtent eord a c v)
    (hov : c.overlap = true) : InBounds ord eord a c v := by
  simpa [InBounds, hov] using h

theorem InBounds.inRange {a : IndexAttr D} {c : ColSummary} {v : D} (h : InBounds ord eord a c v)
    (hov : c.overlap = false) : InRange ord a c v := by
  simpa [InBounds, hov] using h

theorem InBounds.inExtent {a : IndexAttr D} {c : ColSummary} {v : D} (h : InBounds ord eord a c v)
    (hov : c.overlap = true) : InExtent eord a c v := by
  simpa [InBounds, hov] using h

/-- An entry without bounds covers every value that is not NULL. -/
theorem covers_of_unbounded {a : IndexAttr D} {c : ColSummary} (hall : c.allNulls = false)
    (hunb : c.unbounded = true) (v : D) : Covers ord eord a c (some v) :=
  ⟨hall, Or.inl hunb⟩

/-- Giving up the bounds never uncovers anything. -/
theorem covers_makeUnbounded {a : IndexAttr D} {c : ColSummary} {v : Option D}
    (h : Covers ord eord a c v) : Covers ord eord a c.makeUnbounded v := by
  cases v with
  | none => exact h
  | some v => exact ⟨h.1, Or.inl rfl⟩

theorem entryOf_makeUnbounded {a : IndexAttr D} {c : ColSummary} (h : EntryOf pg a c) :
    EntryOf pg a c.makeUnbounded :=
  ⟨h.attnum, h.collation, h.typeName, fun _ => nofun, fun _ => nofun⟩

theorem covers_droppedTo {a : IndexAttr D} {c c' : ColSummary} (hdrop : DroppedTo c c')
    {v : Option D} (h : Covers ord eord a c v) : Covers ord eord a c' v := by
  rcases hdrop with rfl | ⟨_, rfl⟩
  · exact h
  · exact covers_makeUnbounded h

theorem entryOf_droppedTo {a : IndexAttr D} {c c' : ColSummary} (hdrop : DroppedTo c c')
    (h : EntryOf pg a c) : EntryOf pg a c' := by
  rcases hdrop with rfl | ⟨_, rfl⟩
  · exact h
  · exact entryOf_makeUnbounded h

/-- Fitting the summary on the page keeps everything covered. -/
theorem summaryCovers_encodeFitting {attrs : List (IndexAttr D)} {s : IndexSummary}
    {vals : IndexAttr D → Set (Option D)} (h : SummaryCovers ord eord attrs s vals) :
    SummaryCovers ord eord attrs (encodeFitting s).1 vals :=
  Lib.Aligned.forall₂_comp
    (fun _ _ _ hac hdrop => ⟨entryOf_droppedTo hdrop hac.1,
      fun v hv => covers_droppedTo hdrop (hac.2 v hv)⟩)
    h (encodeFitting_dropped s)

/-- A summary that covers some values covers any selection of them. -/
theorem SummaryCovers.mono {attrs : List (IndexAttr D)} {s : IndexSummary}
    {vals vals' : IndexAttr D → Set (Option D)} (h : SummaryCovers ord eord attrs s vals)
    (hsub : ∀ a, vals' a ⊆ vals a) : SummaryCovers ord eord attrs s vals' :=
  h.imp fun a _ hac => ⟨hac.1, fun v hv => hac.2 v (hsub a hv)⟩

theorem rowValues_mono {rows rows' : Set (Row D)} (hsub : rows' ⊆ rows) (a : IndexAttr D) :
    rowValues rows' a ⊆ rowValues rows a :=
  Set.image_mono hsub

end Covers

end TableRange
