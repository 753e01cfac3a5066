import TableRange.Coverage.Extremes
import TableRange.KeptBounds
import TableRange.NullTests
import TableRange.Relabels

/-!
# Maintaining and rebuilding

Two summaries of one table: the one that inserts have kept up, and the one that a
`REINDEX` would write.  The first is folded from values, then from texts that are read
back, row after row; the second is folded from values alone, in any order.  `AgreesOn`
says that the two decide a leaf alike, and that after deletions the second prunes what
the first prunes.

What both entries say is collected in `EntryFacts`, which does not mention the way they
came about.  NULL tests and overlaps agree because of it.  Of a comparison with the
column's values read as another type, `agreesOn_iff` says what it needs: that the other
type accepts what lies between two values that it accepts, and orders them alike
(`ReadsInOrder`).
-/

namespace TableRange

open Lib.Interval Lib.Fallible

variable {D : Type} {pg : Pg D} {ord : pg.BtreeOrder} {eord : pg.ExtentOrder} {ex : Executor D}

/-! ## The leaves on a column -/

/-- A comparison of the column with constants, by an operator that takes the column as
a `typ`. -/
def ComparesAs (pg : Pg D) (a : IndexAttr D) (typ : Oid) (node : Node D) : Prop :=
  ∃ opno commuted op, ColumnLeaf a opno commuted node ∧ compareOp pg opno commuted = some op ∧
    op.varType = typ

/-- The other leaves on the column: NULL tests, and operators that do not compare, `&&`
among them. -/
inductive OtherLeaf (pg : Pg D) (a : IndexAttr D) : Node D → Prop
  | nullTest {arg : Node D} {nulltesttype : NullTestType} {argisrow : Bool}
      (harg : stripRelabel arg = .var a.attnum a.typ) :
      OtherLeaf pg a (.nullTest arg nulltesttype argisrow)
  | operator {opno : Oid} {commuted : Bool} {node : Node D}
      (hnode : ColumnLeaf a opno commuted node)
      (hno : compareOp pg opno commuted = none) : OtherLeaf pg a node

/-! ## Agreeing with a rebuild -/

/-- The summary `s` has been kept up over `scanned` and `inserted`, of which the rows
`rows` are left, and `s'` is what a rebuild makes of these. -/
structure Rebuilt (pg : Pg D) (attrs : List (IndexAttr D)) (a : IndexAttr D) (vals : Set D)
    (scanned inserted rows : List (Row D)) (s s' : IndexSummary) : Prop where
  distinct : DistinctColumns attrs
  column : a ∈ summarized attrs
  kept : KeptUp pg attrs scanned s inserted
  rebuilt : KeptUp pg attrs rows s' []
  remaining : rows.Subperm (inserted ++ scanned)
  values : ∀ row ∈ inserted ++ scanned, ∀ v, row a.attnum = some v → v ∈ vals

/-- `IS NOT NULL`, when the first NULL came after the scan and nothing else ever
did. -/
def LateNulls (a : IndexAttr D) (scanned inserted : List (Row D)) (node : Node D) : Prop :=
  (∃ arg argisrow, node = .nullTest arg .isNotNull argisrow) ∧
    (∀ row ∈ scanned, row a.attnum ≠ none) ∧ (∃ row ∈ inserted, row a.attnum = none) ∧
    ∀ row ∈ inserted ++ scanned, row a.attnum = none

/-- The leaf is decided as after a rebuild. -/
structure AgreesOn (pg : Pg D) (a : IndexAttr D) (vals : Set D) (node : Node D) : Prop where
  /-- While no row is deleted, the decisions are the same, late NULLs apart. -/
  same : ∀ {attrs : List (IndexAttr D)} {scanned inserted rows : List (Row D)}
    {s s' : IndexSummary} {g : Guc}, Rebuilt pg attrs a vals scanned inserted rows s s' →
    (inserted ++ scanned).Perm rows → g.Stable →
    (leafProvesPrune pg g s.cols node = .ok true ↔ leafProvesPrune pg g s'.cols node = .ok true) ∨
      LateNulls a scanned inserted node ∧ leafProvesPrune pg g s.cols node ≠ .ok true
  /-- Later, a rebuild prunes what was pruned before, if a value is left. -/
  deleted : ∀ {attrs : List (IndexAttr D)} {scanned inserted rows : List (Row D)}
    {s s' : IndexSummary} {g : Guc}, Rebuilt pg attrs a vals scanned inserted rows s s' →
    (∃ row ∈ rows, row a.attnum ≠ none) → g.Stable →
    leafProvesPrune pg g s.cols node = .ok true → leafProvesPrune pg g s'.cols node = .ok true

/-! ## What an entry says -/

variable (ord eord) in
/-- What the entry of a column that the index lists once says about the rows. -/
structure EntryFacts (a : IndexAttr D) (rows : List (Row D)) (c : ColSummary) : Prop where
  collation : c.collation = a.collation
  kind : EntryKind pg a c
  hasNulls : c.hasNulls = true ↔ ∃ row ∈ rows, row a.attnum = none
  kept : HasPlainBounds pg a.typ → KeptEntry pg a c
  extremes : Extremes ord a (rows.map fun row => row a.attnum) c
  hull : (planAccumulator pg a.typ).kind = .range →
    StoredHull eord a.typ (columnValues rows a.attnum) c.min

variable (ord) in
theorem KeptUp.entryFacts (io : pg.TextRoundTrip) (texts : pg.TextLaws) {a : IndexAttr D}
    (hull : (planAccumulator pg a.typ).kind = .range → eord.RangeLaws)
    {attrs : List (IndexAttr D)} {scanned inserted : List (Row D)} {s : IndexSummary}
    (h : KeptUp pg attrs scanned s inserted) (hdistinct : DistinctColumns attrs)
    (ha : a ∈ summarized attrs)
    (hrows : ∀ row ∈ inserted ++ scanned, ∀ v, row a.attnum = some v → pg.HasText a.typ v)
    {c : ColSummary} (hc : firstEntry s.cols a.attnum = some c) :
    EntryFacts ord eord a (inserted ++ scanned) c := by
  have hs := h.maintained
  have hpos := (mem_summarized.mp ha).2
  have hmem := List.mem_of_find?_eq_some hc
  have hattnum : c.attnum = a.attnum := by simpa using List.find?_some hc
  have heq : ∀ b ∈ summarized attrs, b.attnum = a.attnum → b = a := fun b hb hba =>
    List.inj_on_of_nodup_map hdistinct hb ha hba
  have htypes : SameTypes attrs := fun b hb b' hb' hbb' => by
    rw [List.inj_on_of_nodup_map hdistinct hb hb' hbb']
  obtain ⟨b, hb, ⟨hentry, -⟩, hkind⟩ := Lib.Aligned.forall₂_mem_right
    (Lib.Aligned.forall₂_and (hs.covers ord pg.noExtents io hdistinct) hs.entryKind) c hmem
  obtain rfl := heq b hb (hentry.attnum.symm.trans hattnum)
  have hextent : (planAccumulator pg b.typ).kind = .range →
      ExtentEntry eord b.typ (columnValues (inserted ++ scanned) b.attnum) c := fun hrange =>
    hs.extentEntry io htypes ha (hrange ▸ (hull hrange).hullLaws) (Or.inl hrange) hc
  refine ⟨hentry.collation, hkind, ?_, fun hplain => ?_, hs.extremes ord io hdistinct ha hc,
    fun hrange => (hextent hrange).stored (fun hno => by cases hrange.symm.trans hno)
      (h.bounded io texts hull hdistinct ha (Or.inr hrange) hrows hc).bounded⟩
  · rw [(hs.flags hpos hc).hasNulls]
    simp [eq_comm]
  · exact h.bounded io texts hull hdistinct ha hplain hrows hc

/-! ## Entries of fewer rows -/

variable (pg ord eord) in
/-- An entry that proves a prune has seen a value, and an entry of fewer rows proves it as
well as long as it has seen one. -/
def ShrinkKeeps (a : IndexAttr D) (vals : Set D) (node : Node D) : Prop :=
  ∀ spec, extractQual pg node = some spec → spec.attnum = a.attnum ∧
    ∀ {g : Guc} {rows rows' : List (Row D)} {c c' : ColSummary}, g.Stable →
      EntryFacts ord eord a rows c → EntryFacts ord eord a rows' c' → rows' ⊆ rows →
      (∀ row ∈ rows, ∀ v, row a.attnum = some v → v ∈ vals) →
      spec.provesPrune pg g c = .ok true →
      (∃ row ∈ rows, row a.attnum ≠ none) ∧
        ((∃ row ∈ rows', row a.attnum ≠ none) → spec.provesPrune pg g c' = .ok true)

theorem leafProvesPrune_of_spec {g : Guc} {cols : List ColSummary} {node : Node D}
    {spec : QualSpec D} {c : ColSummary} (hspec : extractQual pg node = some spec)
    (hc : firstEntry cols spec.attnum = some c) :
    leafProvesPrune pg g cols node = spec.provesPrune pg g c := by
  unfold firstEntry at hc
  simp only [leafProvesPrune, hspec, hc]

variable (ord) in
/-- The two entries of the column, and what they say. -/
theorem Rebuilt.entries (io : pg.TextRoundTrip) (texts : pg.TextLaws)
    (hull : eord.RangeLaws) {attrs : List (IndexAttr D)} {a : IndexAttr D} {vals : Set D}
    (hvals : ∀ v ∈ vals, pg.HasText a.typ v) {scanned inserted rows : List (Row D)}
    {s s' : IndexSummary} (h : Rebuilt pg attrs a vals scanned inserted rows s s') :
    ∃ c c', firstEntry s.cols a.attnum = some c ∧ firstEntry s'.cols a.attnum = some c' ∧
      EntryFacts ord eord a (inserted ++ scanned) c ∧ EntryFacts ord eord a rows c' := by
  obtain ⟨c, hc⟩ := h.kept.exists_entry h.column
  obtain ⟨c', hc'⟩ := h.rebuilt.exists_entry h.column
  refine ⟨c, c', hc, hc', h.kept.entryFacts ord io texts (fun _ => hull) h.distinct h.column ?_ hc,
    h.rebuilt.entryFacts ord io texts (fun _ => hull) h.distinct h.column ?_ hc'⟩
  · exact fun row hrow v hv => hvals v (h.values row hrow v hv)
  · exact fun row hrow v hv => hvals v (h.values row (h.remaining.subset hrow) v hv)

theorem ShrinkKeeps.agreesOn (io : pg.TextRoundTrip) (texts : pg.TextLaws) (hull : eord.RangeLaws)
    {a : IndexAttr D} {vals : Set D}
    (hvals : ∀ v ∈ vals, pg.HasText a.typ v) {node : Node D}
    (h : ShrinkKeeps pg ord eord a vals node) : AgreesOn pg a vals node := by
  cases hspec : extractQual pg node with
  | none =>
      have hkeep :
          ∀ (g : Guc) (cols : List ColSummary), leafProvesPrune pg g cols node = .ok false := by
        intro g cols
        rw [leafProvesPrune, hspec]
      constructor
      · intro attrs scanned inserted rows s s' g _ _ _
        simp [hkeep]
      · intro attrs scanned inserted rows s s' g _ _ _ hprune
        rw [hkeep] at hprune
        cases hprune
  | some spec =>
      obtain ⟨hattnum, hshrink⟩ := h spec hspec
      constructor
      · intro attrs scanned inserted rows s s' g hrebuilt hperm hg
        obtain ⟨c, c', hc, hc', hfacts, hfacts'⟩ :=
          hrebuilt.entries ord io texts hull hvals
        rw [leafProvesPrune_of_spec hspec (hattnum ▸ hc),
          leafProvesPrune_of_spec hspec (hattnum ▸ hc')]
        -- the rows are the same, so each entry is one of fewer rows than the other
        refine Or.inl ⟨fun hprune => ?_, fun hprune => ?_⟩
        · obtain ⟨⟨row, hrow, hv⟩, hkeeps⟩ :=
            hshrink hg hfacts hfacts' hperm.symm.subset hrebuilt.values hprune
          exact hkeeps ⟨row, hperm.subset hrow, hv⟩
        · obtain ⟨⟨row, hrow, hv⟩, hkeeps⟩ := hshrink hg hfacts' hfacts hperm.subset
            (fun row hrow => hrebuilt.values row (hperm.symm.subset hrow)) hprune
          exact hkeeps ⟨row, hperm.symm.subset hrow, hv⟩
      · intro attrs scanned inserted rows s s' g hrebuilt hleft hg hprune
        obtain ⟨c, c', hc, hc', hfacts, hfacts'⟩ :=
          hrebuilt.entries ord io texts hull hvals
        rw [leafProvesPrune_of_spec hspec (hattnum ▸ hc)] at hprune
        rw [leafProvesPrune_of_spec hspec (hattnum ▸ hc')]
        exact (hshrink hg hfacts hfacts' hrebuilt.remaining.subset hrebuilt.values hprune).2 hleft

/-! ## Comparisons -/

/-- The type `typ` accepts what lies between two values that it accepts, and has them in
the same order. -/
def ReadsInOrder (ord : pg.BtreeOrder) (a : IndexAttr D) (typ : Oid) (accepts : D → Prop)
    (vals : Set D) : Prop :=
  ∀ family, pg.defaultBtreeFamily typ = some family →
    ∀ lo ∈ vals, ∀ hi ∈ vals, ∀ v ∈ vals, accepts lo → accepts hi →
      (columnOrder ord a.typ a.collation).le lo v → (columnOrder ord a.typ a.collation).le v hi →
      accepts v ∧ (ord.order family a.collation).le lo v ∧ (ord.order family a.collation).le v hi

/-- The qual of a comparison decides exactly. -/
theorem ColumnLeaf.exactOn (laws : ex.BtreeLaws ord) (returns : pg.CompareReturns) {a : IndexAttr D}
    {opno family : Oid} {commuted : Bool} {op : CompareOp}
    (hop : compareOp pg opno commuted = some op)
    (hfamily : pg.defaultBtreeFamily op.varType = some family) {node : Node D}
    (hnode : ColumnLeaf a opno commuted node) {spec : QualSpec D}
    (hspec : extractQual pg node = some spec) (g : Guc) :
    spec.attnum = a.attnum ∧ ∃ collation Satisfies, ExactOn pg ord g spec family
      (summaryParseType pg op.varType a.typ) collation Satisfies := by
  cases hnode with
  | @compare left right vc inputcollid hvc hattnum htyp =>
      have hspec : extractOpexpr pg opno inputcollid [left, right] = some spec := hspec
      obtain ⟨left', right', vc', k, hargs, hvc', hk, hcases⟩ := extractOpexpr_cases hspec
      cases hargs
      cases hvc.symm.trans hvc'
      rcases hcases with ⟨op', hop', rfl⟩ | ⟨hnone, -, -⟩
      · obtain rfl : op' = op := Option.some.inj (hop'.symm.trans hop)
        rw [htyp]
        exact ⟨hattnum, _, _, compare_exactOn laws returns g hop hfamily _ _ _ k⟩
      · cases hnone.symm.trans hop
  | @anyOf left right useOr inputcollid hleft =>
      have hspec : extractSaop pg opno useOr inputcollid [left, right] = some spec := hspec
      obtain ⟨rfl, left', right', varattno, vartype, consttype, array, op', elems, hargs, hleft',
        hright, hop', heq, helems, rfl⟩ := extractSaop_cases hspec
      cases hargs
      cases hleft.symm.trans hleft'
      obtain rfl : op' = op := Option.some.inj (hop'.symm.trans hop)
      exact ⟨rfl, _, _, inList_exactOn laws returns g hop hfamily heq _ _ _ elems⟩

/-- The bounds of an entry, as another type reads them. -/
theorem EntryFacts.bounds {a : IndexAttr D} {parseType : Oid} {accepts : D → Prop}
    (relabels : Relabels pg a.typ parseType accepts) {g : Guc} (hg : g.Stable)
    {rows : List (Row D)} {c : ColSummary} {collation : Oid} {lo hi : D}
    (hfacts : EntryFacts ord eord a rows c) (h : HasBounds pg g c parseType collation lo hi) :
    (planAccumulator pg a.typ).kind = .minMax ∧ collation = a.collation ∧ accepts lo ∧ accepts hi ∧
      Spans ord a (rows.map fun row => row a.attnum) lo hi := by
  obtain ⟨hunb, s, t, hs, ht, hlo, hhi⟩ := parsedBounds_spec h.bounds
  rcases hfacts.extremes h.overlap hunb with
    ⟨-, hmin, -⟩ | ⟨s', t', lo', hi', hs', ht', hlo', hhi', hspans⟩
  · cases hmin.symm.trans hs
  cases hs'.symm.trans hs
  cases ht'.symm.trans ht
  obtain ⟨hacclo, rfl⟩ := relabels.of_read hg hlo' hlo
  obtain ⟨hacchi, rfl⟩ := relabels.of_read hg hhi' hhi
  refine ⟨?_, h.collation.symm.trans hfacts.collation, hacclo, hacchi, hspans⟩
  cases hkind : (planAccumulator pg a.typ).kind with
  | minMax => rfl
  | range => cases h.overlap.symm.trans (hfacts.kind.overlap.mpr (Or.inl hkind))
  | geometry => cases h.overlap.symm.trans (hfacts.kind.overlap.mpr (Or.inr hkind))
  | unsupported => cases hunb.symm.trans (hfacts.kind.unsupported hkind)

/-- The entry of a btree column that has seen a value has bounds, and a type that
accepts them reads them. -/
theorem EntryFacts.hasBounds {a : IndexAttr D} {parseType : Oid} {accepts : D → Prop}
    (relabels : Relabels pg a.typ parseType accepts) {g : Guc} (hg : g.Stable)
    {rows : List (Row D)} {c : ColSummary} (hfacts : EntryFacts ord eord a rows c)
    (hkind : (planAccumulator pg a.typ).kind = .minMax)
    (hseen : ∃ row ∈ rows, row a.attnum ≠ none) :
    ∃ lo hi, Spans ord a (rows.map fun row => row a.attnum) lo hi ∧
      (accepts lo → accepts hi → HasBounds pg g c parseType a.collation lo hi) := by
  have hkept := hfacts.kept (Or.inl hkind)
  have hov : c.overlap = false := by
    rw [← Bool.not_eq_true, hfacts.kind.overlap, hkind]
    simp
  rcases hfacts.extremes hov hkept.bounded with
    ⟨hnone, -, -⟩ | ⟨s, t, lo, hi, hs, ht, hlo, hhi, hspans⟩
  · obtain ⟨row, hrow, hv⟩ := hseen
    exact absurd (hnone _ (List.mem_map_of_mem hrow)) hv
  · refine ⟨lo, hi, hspans, fun hacclo hacchi => ⟨hov, hfacts.collation, ?_⟩⟩
    simp [parsedBounds, hs, ht, hkept.bounded, relabels.read hg hlo hacclo,
      relabels.read hg hhi hacchi, bind, Except.bind]

/-- In a type that reads the values in order, fewer rows have narrower bounds. -/
theorem ReadsInOrder.shrinkKeeps (laws : ex.BtreeLaws ord) (returns : pg.CompareReturns)
    {a : IndexAttr D} {typ : Oid} {accepts : D → Prop} {vals : Set D}
    (relabels : Relabels pg a.typ (summaryParseType pg typ a.typ) accepts)
    (hreads : ReadsInOrder ord a typ accepts vals) {node : Node D}
    (hnode : ComparesAs pg a typ node) : ShrinkKeeps pg ord eord a vals node := by
  intro spec hspec
  obtain ⟨opno, commuted, op, hleaf, hop, rfl⟩ := hnode
  obtain ⟨family, -, hfamily, -⟩ := compareOp_spec hop
  refine ⟨(hleaf.exactOn laws returns hop hfamily hspec Mini.session.guc).1, ?_⟩
  intro g rows rows' c c' hg hfacts hfacts' hsub hrows hprune
  obtain ⟨collation, Satisfies, hexact⟩ := (hleaf.exactOn laws returns hop hfamily hspec g).2
  -- the entry has bounds that the type accepts
  obtain ⟨lo, hi, hbounds⟩ : ∃ lo hi,
      HasBounds pg g c (summaryParseType pg op.varType a.typ) collation lo hi := by
    by_contra hno
    exact hexact.keeps c (Or.inr fun lo hi hb => hno ⟨lo, hi, hb⟩) hprune
  obtain ⟨hkind, rfl, hacclo, hacchi, hspans⟩ := hfacts.bounds relabels hg hbounds
  have hmem : ∀ {v}, some v ∈ rows.map (fun row => row a.attnum) → v ∈ vals := by
    intro v hv
    obtain ⟨row, hrow, hval⟩ := List.mem_map.mp hv
    exact hrows row hrow v hval
  have hwithin : ∀ v, some v ∈ rows.map (fun row => row a.attnum) → accepts v ∧
      (ord.order family a.collation).le lo v ∧ (ord.order family a.collation).le v hi := fun v hv =>
    hreads family hfamily lo (hmem hspans.lower) hi (hmem hspans.upper) v (hmem hv) hacclo hacchi
      (hspans.between v hv).1 (hspans.between v hv).2
  constructor
  · obtain ⟨row, hrow, hval⟩ := List.mem_map.mp hspans.lower
    exact ⟨row, hrow, by simp [hval]⟩
  · intro hseen
    obtain ⟨lo', hi', hspans', hbounds'⟩ := hfacts'.hasBounds relabels hg hkind hseen
    have hsub' : ∀ {v}, some v ∈ rows'.map (fun row => row a.attnum) →
        some v ∈ rows.map (fun row => row a.attnum) := by
      intro v hv
      obtain ⟨row, hrow, hval⟩ := List.mem_map.mp hv
      exact List.mem_map.mpr ⟨row, hsub hrow, hval⟩
    let _ := ord.order family a.collation
    obtain ⟨hacclo', hlo', -⟩ := hwithin lo' (hsub' hspans'.lower)
    obtain ⟨hacchi', -, hhi'⟩ := hwithin hi' (hsub' hspans'.upper)
    have hle : lo ≤ hi := (hwithin lo hspans.lower).2.2
    have hle' : lo' ≤ hi' := by
      refine (hreads family hfamily lo' (hmem (hsub' hspans'.lower)) hi'
        (hmem (hsub' hspans'.upper)) lo' (hmem (hsub' hspans'.lower)) hacclo' hacchi' ?_ ?_).2.2
      · exact (columnOrder ord a.typ a.collation).le_refl lo'
      · exact (hspans'.between lo' hspans'.lower).2
    have hnone := (hexact.exact c lo hi hbounds hle).mp hprune
    refine (hexact.exact c' lo' hi' (hbounds' hacclo' hacchi') hle').mpr fun x hlox hxhi => ?_
    exact hnone x (le_trans hlo' hlox) (le_trans hxhi hhi')

/-! ## Overlaps and NULL tests -/

/-- The functions of the trusted `&&` operators never fail. -/
structure OverlapReturns (pg : Pg D) : Prop where
  returns : ∀ {opno vartype : Oid}, isTrustedOverlapOp pg opno vartype = true →
    ∀ collation a b, ∃ r, pg.boolCall (pg.getOpcode opno) collation a b = .ok r

/-- What a smaller extent overlaps, a greater one overlaps. -/
theorem overlapCall_mono (overlap : ex.OverlapLaws eord) (returns : OverlapReturns pg)
    {opno vartype collation : Oid} {e e' k : D} {commuted : Bool}
    (htrusted : isTrustedOverlapOp pg opno vartype = true) (hle : eord.within.le e' e)
    (h : overlapCall pg (pg.getOpcode opno) collation e k commuted = .ok false) :
    overlapCall pg (pg.getOpcode opno) collation e' k commuted = .ok false := by
  unfold overlapCall at h ⊢
  cases commuted with
  | false =>
      obtain ⟨r, hr⟩ := returns.returns htrusted collation e' k
      cases r with
      | false => exact hr
      | true =>
          have htrue := overlap.mono_left htrusted hle (overlap.call htrusted hr)
          cases htrue.symm.trans (overlap.call htrusted h)
  | true =>
      obtain ⟨r, hr⟩ := returns.returns htrusted collation k e'
      cases r with
      | false => exact hr
      | true =>
          have htrue := overlap.mono_right htrusted hle (overlap.call htrusted hr)
          cases htrue.symm.trans (overlap.call htrusted h)

/-- The entry of a range column has a hull once a row has a value. -/
theorem EntryFacts.hasHull_iff {a : IndexAttr D} {rows : List (Row D)} {c : ColSummary}
    (hfacts : EntryFacts ord eord a rows c) (hrange : (planAccumulator pg a.typ).kind = .range) :
    (∃ t, c.min = some t) ↔ ∃ row ∈ rows, row a.attnum ≠ none := by
  have hnone := (hfacts.hull hrange).none_iff
  rw [hrange, if_neg (by decide)] at hnone
  rw [← Option.ne_none_iff_exists', ne_eq, hnone, ← ne_eq, ← Set.nonempty_iff_ne_empty]
  constructor
  · rintro ⟨v, row, hrow, hv⟩
    exact ⟨row, hrow, by simp [hv]⟩
  · rintro ⟨row, hrow, hval⟩
    obtain ⟨v, hv⟩ := Option.ne_none_iff_exists'.mp hval
    exact ⟨v, row, hrow, hv⟩

/-- The hull of fewer values is within the hull of all, and overlaps less. -/
theorem shrinkKeeps_operator (io : pg.TextRoundTrip) (overlap : ex.OverlapLaws eord)
    (returns : OverlapReturns pg) {a : IndexAttr D}
    (hgeometry : (planAccumulator pg a.typ).kind ≠ .geometry) (vals : Set D) {opno : Oid}
    {commuted : Bool} {node : Node D} (hnode : ColumnLeaf a opno commuted node)
    (hno : compareOp pg opno commuted = none) : ShrinkKeeps pg ord eord a vals node := by
  intro spec hspec
  cases hnode with
  | @anyOf left right useOr inputcollid hleft =>
      have hspec : extractSaop pg opno useOr inputcollid [left, right] = some spec := hspec
      obtain ⟨-, _, _, _, _, _, _, op, _, -, -, -, hop, -⟩ := extractSaop_cases hspec
      cases hno.symm.trans hop
  | @compare left right vc inputcollid hvc hattnum htyp =>
      have hspec : extractOpexpr pg opno inputcollid [left, right] = some spec := hspec
      obtain ⟨left', right', vc', k, hargs, hvc', hk, hcases⟩ := extractOpexpr_cases hspec
      cases hargs
      cases hvc.symm.trans hvc'
      rcases hcases with ⟨op, hop, -⟩ | ⟨-, htrusted, rfl⟩
      · cases hno.symm.trans hop
      refine ⟨hattnum, ?_⟩
      intro g rows rows' c c' hg hfacts hfacts' hsub _ hprune
      rw [htyp] at hprune ⊢
      simp only [QualSpec.provesPrune] at hprune
      split at hprune
      swap
      · cases hprune
      rename_i hov
      have hrange : (planAccumulator pg a.typ).kind = .range :=
        (hfacts.kind.overlap.mp hov).resolve_right hgeometry
      have hov' : c'.overlap = true := hfacts'.kind.overlap.mpr (Or.inl hrange)
      unfold evalOverlap at hprune
      split at hprune
      · cases hprune
      rename_i t ht
      split at hprune
      · cases hprune
      obtain ⟨ext, hext, hprune⟩ := bind_eq_ok.mp hprune
      obtain ⟨e, he, hhull, -⟩ := (hfacts.hull hrange).hull t ht
      obtain rfl : some e = ext := Except.ok.inj ((io.read hg he).symm.trans hext)
      obtain ⟨overlaps, hcall, hprune⟩ := bind_eq_ok.mp hprune
      obtain rfl : overlaps = false := by simpa using hprune
      constructor
      · exact (hfacts.hasHull_iff hrange).mp ⟨t, ht⟩
      · intro hleft
        obtain ⟨t', ht'⟩ := (hfacts'.hasHull_iff hrange).mpr hleft
        obtain ⟨e', he', hhull', -⟩ := (hfacts'.hull hrange).hull t' ht'
        have hle : eord.within.le e' e := hhull'.2 fun v hv => by
          obtain ⟨row, hrow, hval⟩ := hv
          exact hhull.1 ⟨row, hsub hrow, hval⟩
        have hcall' := overlapCall_mono overlap returns htrusted hle hcall
        simp [QualSpec.provesPrune, hov', evalOverlap, ht', (hfacts'.kept (Or.inr hrange)).bounded,
          io.read hg he', hcall', bind, Except.bind]

/-- NULL tests look at the flags only. -/
theorem agreesOn_nullTest (io : pg.TextRoundTrip) (texts : pg.TextLaws) (hull : eord.RangeLaws)
    (ord : pg.BtreeOrder) {a : IndexAttr D}
    {vals : Set D} (hvals : ∀ v ∈ vals, pg.HasText a.typ v) {arg : Node D}
    (harg : stripRelabel arg = .var a.attnum a.typ) (nulltesttype : NullTestType)
    (argisrow : Bool) :
    AgreesOn pg a vals (.nullTest arg nulltesttype argisrow) := by
  constructor
  · intro attrs scanned inserted rows s s' g hrebuilt hperm hg
    have hpos := (mem_summarized.mp hrebuilt.column).2
    obtain ⟨c, c', hc, hc', hfacts, hfacts'⟩ := hrebuilt.entries ord io texts hull hvals
    rw [leafProvesPrune_nullTest harg hpos hc, leafProvesPrune_nullTest harg hpos hc']
    cases nulltesttype with
    | isNull =>
        have hnulls : c.hasNulls = c'.hasNulls := by
          rw [Bool.eq_iff_iff, hfacts.hasNulls, hfacts'.hasNulls]
          simp only [hperm.mem_iff]
        simp [hnulls]
    | isNotNull =>
        have hall := hrebuilt.kept.allNulls hrebuilt.distinct hrebuilt.column hc
        have hall' := hrebuilt.rebuilt.allNulls hrebuilt.distinct hrebuilt.column hc'
        simp only [List.nil_append, ← hperm.mem_iff] at hall'
        simp only [Except.ok.injEq, ne_eq]
        by_cases hscan : ∃ row ∈ scanned, row a.attnum = none
        · obtain ⟨row, hrow, hnull⟩ := hscan
          refine Or.inl (hall.trans (Iff.trans ?_ hall'.symm))
          exact and_congr_left fun _ => iff_of_true ⟨row, hrow, hnull⟩
            ⟨row, List.mem_append_right _ hrow, hnull⟩
        · have hkeep : ¬c.allNulls = true := fun htrue => hscan (hall.mp htrue).1
          by_cases hprune : c'.allNulls = true
          · -- every row is NULL, and the first one came after the scan
            obtain ⟨⟨row, hrow, hnull⟩, hevery⟩ := hall'.mp hprune
            refine Or.inr ⟨⟨⟨arg, argisrow, rfl⟩, fun r hr hno => hscan ⟨r, hr, hno⟩,
              ⟨row, ?_, hnull⟩, hevery⟩, hkeep⟩
            exact (List.mem_append.mp hrow).resolve_right fun hr => hscan ⟨row, hr, hnull⟩
          · exact Or.inl (iff_of_false hkeep hprune)
  · intro attrs scanned inserted rows s s' g hrebuilt hleft hg hprune
    have hpos := (mem_summarized.mp hrebuilt.column).2
    obtain ⟨c, c', hc, hc', hfacts, hfacts'⟩ := hrebuilt.entries ord io texts hull hvals
    rw [leafProvesPrune_nullTest harg hpos hc] at hprune
    rw [leafProvesPrune_nullTest harg hpos hc']
    cases nulltesttype with
    | isNull =>
        have hnever : ¬∃ row ∈ inserted ++ scanned, row a.attnum = none := by
          rw [← hfacts.hasNulls]
          simpa using hprune
        have hnulls : c'.hasNulls = false := by
          rw [← Bool.not_eq_true, hfacts'.hasNulls]
          rintro ⟨row, hrow, hnull⟩
          exact hnever ⟨row, hrebuilt.remaining.subset hrow, hnull⟩
        simp [hnulls]
    | isNotNull =>
        -- all rows have been NULL, also the one that is left
        have hall := (hrebuilt.kept.allNulls hrebuilt.distinct hrebuilt.column hc).mp
          (Except.ok.inj hprune)
        obtain ⟨row, hrow, hv⟩ := hleft
        exact absurd (hall.2 row (hrebuilt.remaining.subset hrow)) hv

/-! ## Histories that tell the orders apart -/

/-- The type has the operators `<` and `>`, as every btree type does. -/
structure OrderOperators (pg : Pg D) (typ : Oid) : Prop where
  lt : ∃ opno op, compareOp pg opno false = some op ∧ op.varType = typ ∧ op.strategy = 1
  gt : ∃ opno op, compareOp pg opno false = some op ∧ op.varType = typ ∧ op.strategy = 5

/-- An index on the column alone fits the page, whatever values are its bounds. -/
def FitsAlone (pg : Pg D) (a : IndexAttr D) (typeName : String) (vals : Set D) : Prop :=
  ∀ s t, (∃ v ∈ vals, pg.Renders a.typ s v) → (∃ v ∈ vals, pg.Renders a.typ t v) →
    (serialize ⟨[boundsEntry a typeName s t]⟩).length ≤ maxBlobLen

/-- A table of three rows of which the first two are deleted. -/
theorem rebuilt_three {a : IndexAttr D} (hpos : 0 < a.attnum) {typeName : String} {vals : Set D}
    (hfits : FitsAlone pg a typeName vals) {x y v : D} (hx : x ∈ vals) (hy : y ∈ vals)
    (hv : v ∈ vals) {s t u : String} (hs : ∃ w ∈ vals, pg.Renders a.typ s w)
    (ht : ∃ w ∈ vals, pg.Renders a.typ t w) (hu : pg.Renders a.typ u v)
    (hthree : buildLeafSummary pg Mini.session [a] [singleRow a x, singleRow a y, singleRow a v] =
      .ok ⟨[boundsEntry a typeName s t]⟩)
    (hone : buildLeafSummary pg Mini.session [a] [singleRow a v] =
      .ok ⟨[boundsEntry a typeName u u]⟩) :
    Rebuilt pg [a] a vals [singleRow a x, singleRow a y, singleRow a v] [] [singleRow a v]
      ⟨[boundsEntry a typeName s t]⟩ ⟨[boundsEntry a typeName u u]⟩ := by
  have hfit := hfits s t hs ht
  have hfit' := hfits u u ⟨v, hv, hu⟩ ⟨v, hv, hu⟩
  have hkept := KeptUp.build hthree hfit
  have hkept' := KeptUp.build hone hfit'
  rw [encodeFitting_of_fits hfit] at hkept
  rw [encodeFitting_of_fits hfit'] at hkept'
  refine ⟨by simp [DistinctColumns, summarized, hpos], by simp [summarized, hpos], hkept, hkept',
    List.Sublist.subperm (by simp), fun row hrow w hw => ?_⟩
  simp only [List.nil_append, List.mem_cons, List.not_mem_nil, or_false] at hrow
  rcases hrow with rfl | rfl | rfl <;> rw [singleRow_attnum] at hw <;> cases hw
  · exact hx
  · exact hy
  · exact hv

/-- An entry that proves a prune has a lower bound that the type accepts. -/
theorem Relabels.accepts_of_prunes (laws : ex.BtreeLaws ord) (returns : pg.CompareReturns)
    {a : IndexAttr D} {opno family : Oid} {commuted : Bool} {op : CompareOp}
    (hop : compareOp pg opno commuted = some op)
    (hfamily : pg.defaultBtreeFamily op.varType = some family) {accepts : D → Prop}
    (relabels : Relabels pg a.typ (summaryParseType pg op.varType a.typ) accepts) {g : Guc}
    (hg : g.Stable) {typeName u t : String} {v : D} (hu : pg.Renders a.typ u v) {node : Node D}
    (hnode : ColumnLeaf a opno commuted node)
    (h : leafProvesPrune pg g [boundsEntry a typeName u t] node = .ok true) : accepts v := by
  cases hspec : extractQual pg node with
  | none =>
      rw [leafProvesPrune, hspec] at h
      cases h
  | some spec =>
      obtain ⟨hattnum, collation, Satisfies, hexact⟩ :=
        hnode.exactOn laws returns hop hfamily hspec g
      have hc : firstEntry [boundsEntry a typeName u t] spec.attnum =
          some (boundsEntry a typeName u t) := by simp [firstEntry, boundsEntry, hattnum]
      by_contra hno
      refine hexact.keeps _ (Or.inr fun lo hi hbounds => ?_)
        ((leafProvesPrune_of_spec hspec hc).symm.trans h)
      obtain ⟨-, u', -, hmin, -, hlo, -⟩ := parsedBounds_spec hbounds.bounds
      cases hmin
      exact relabels.reject hg hu hno hlo

/-- What the entry of three rows excludes is excluded by the third value, when the first
two rows are deleted and a rebuild agrees. -/
theorem AgreesOn.excludes (laws : ex.BtreeLaws ord) (returns : pg.CompareReturns) {a : IndexAttr D}
    (hpos : 0 < a.attnum) {typeName : String}
    (htypeName : pg.qualifiedTypeName false a.typ = .ok typeName)
    {proc : Oid} (hacc : planAccumulator pg a.typ = .minMax proc none none) {vals : Set D}
    (hvals : ∀ v ∈ vals, pg.HasText a.typ v) (hfits : FitsAlone pg a typeName vals)
    {opno family : Oid} {op : CompareOp} (hop : compareOp pg opno false = some op)
    (hfamily : pg.defaultBtreeFamily op.varType = some family) {cmp : Comparison}
    (hcmp : comparisonOf op.strategy = some cmp) {accepts : D → Prop}
    (relabels : Relabels pg a.typ (summaryParseType pg op.varType a.typ) accepts) {k : D}
    (hagrees : AgreesOn pg a vals (relabelNode a opno false op.varType k)) {x y v : D}
    (hx : x ∈ vals) (hy : y ∈ vals) (hv : v ∈ vals) (haccx : accepts x) (haccy : accepts y)
    (hbetween : ((columnOrder ord a.typ a.collation).le x v ∧
      (columnOrder ord a.typ a.collation).le v y) ∨
      ((columnOrder ord a.typ a.collation).le y v ∧ (columnOrder ord a.typ a.collation).le v x))
    (hexcl : ∀ lo hi,
      ((columnOrder ord a.typ a.collation).le x v → (columnOrder ord a.typ a.collation).le v y →
        lo = x) →
      ((columnOrder ord a.typ a.collation).le y v → (columnOrder ord a.typ a.collation).le v x →
        hi = x) → @Comparison.Excludes D (ord.order family a.collation) cmp lo hi k) :
    accepts v ∧ @Comparison.Excludes D (ord.order family a.collation) cmp v v k := by
  have hg := Mini.session_stable
  obtain ⟨lo, hi, s, t, hthree, hs, ht, hlo, hhi, hup, hdown⟩ :=
    buildLeafSummary_three returns relabels htypeName hacc hpos (hvals x hx) (hvals y hy) hbetween
  obtain ⟨u, hone, hu⟩ := buildLeafSummary_one relabels htypeName hacc hpos (hvals v hv)
  obtain ⟨family', c, hfamily', -, -, hproc, constType, hcmpproc⟩ := compareOp_spec hop
  obtain rfl : family' = family := Option.some.inj (hfamily'.symm.trans hfamily)
  rw [hcmpproc] at hproc
  have hends : ∀ {w}, w = x ∨ w = y → w ∈ vals ∧ accepts w := by
    rintro w (rfl | rfl)
    · exact ⟨hx, haccx⟩
    · exact ⟨hy, haccy⟩
  -- the old entry proves the prune
  have hprune : leafProvesPrune pg Mini.session.guc [boundsEntry a typeName s t]
      (relabelNode a opno false op.varType k) = .ok true := by
    rw [leafProvesPrune_relabelNode hpos hop _ (relabels.read hg hs (hends hlo).2)
      (relabels.read hg ht (hends hhi).2), hcmpproc]
    exact boundaryTest_of_excludes returns hcmp hproc (hexcl lo hi hup hdown)
  have hrebuilt := rebuilt_three hpos hfits hx hy hv ⟨lo, (hends hlo).1, hs⟩
    ⟨hi, (hends hhi).1, ht⟩ hu hthree hone
  -- so does the new one, whose bounds the type has read
  have hprune' := hagrees.deleted hrebuilt ⟨_, List.mem_singleton_self _, by simp⟩ hg hprune
  have haccv : accepts v := relabels.accepts_of_prunes laws returns hop hfamily hg hu
    (relabelNode_columnLeaf a opno false op.varType k) hprune'
  refine ⟨haccv, ?_⟩
  have hread := relabels.read hg hu haccv
  have hentry : leafProvesPrune pg Mini.session.guc [boundsEntry a typeName u u]
      (relabelNode a opno false op.varType k) = .ok true := hprune'
  rw [leafProvesPrune_relabelNode hpos hop _ hread hread, hcmpproc] at hentry
  exact boundaryTest_excludes ord hcmp hproc hentry

/-- A type whose comparisons agree with a rebuild reads the values in order. -/
theorem ReadsInOrder.of_agreesOn (laws : ex.BtreeLaws ord) (returns : pg.CompareReturns)
    {a : IndexAttr D} (hpos : 0 < a.attnum) {typeName : String}
    (htypeName : pg.qualifiedTypeName false a.typ = .ok typeName) {proc : Oid}
    (hacc : planAccumulator pg a.typ = .minMax proc none none) {vals : Set D}
    (hvals : ∀ v ∈ vals, pg.HasText a.typ v) (hfits : FitsAlone pg a typeName vals) {typ : Oid}
    {accepts : D → Prop} (relabels : Relabels pg a.typ (summaryParseType pg typ a.typ) accepts)
    (operators : OrderOperators pg typ)
    (h : ∀ node, ComparesAs pg a typ node → AgreesOn pg a vals node) :
    ReadsInOrder ord a typ accepts vals := by
  intro family hfamily lo hlo hi hhi v hv hacclo hacchi hlov hvhi
  let _ := ord.order family a.collation
  -- the constant is the bound itself
  obtain ⟨opno, op, hop, rfl, hlt⟩ := operators.lt
  have hcmp : comparisonOf op.strategy = some .lt := by
    rw [hlt]
    rfl
  have hlowerLeaf := h _ ⟨opno, false, op, relabelNode_columnLeaf a opno false op.varType lo,
    hop, rfl⟩
  obtain ⟨haccv, hlower⟩ := hlowerLeaf.excludes laws returns hpos htypeName hacc hvals hfits hop
    hfamily hcmp relabels hlo hhi hv hacclo hacchi (Or.inl ⟨hlov, hvhi⟩)
    fun lo' hi' hup _ => by
      obtain rfl := hup hlov hvhi
      exact le_refl lo'
  obtain ⟨opno', op', hop', hvarType, hgt⟩ := operators.gt
  rw [← hvarType] at hfamily relabels
  have hcmp' : comparisonOf op'.strategy = some .gt := by
    rw [hgt]
    rfl
  have hupperLeaf := h _ ⟨opno', false, op', relabelNode_columnLeaf a opno' false op'.varType hi,
    hop', hvarType⟩
  obtain ⟨-, hupper⟩ := hupperLeaf.excludes laws returns hpos htypeName hacc hvals hfits hop'
    hfamily hcmp' relabels hhi hlo hv hacchi hacclo (Or.inr ⟨hlov, hvhi⟩)
    fun lo' hi' _ hdown => by
      obtain rfl := hdown hlov hvhi
      exact le_refl hi'
  exact ⟨haccv, hlower, hupper⟩

/-! ## Which leaves agree -/

/-- Without btree bounds nothing is compared. -/
theorem shrinkKeeps_unusable (laws : ex.BtreeLaws ord) (returns : pg.CompareReturns)
    {a : IndexAttr D} (hkind : (planAccumulator pg a.typ).kind ≠ .minMax) {typ : Oid} (vals : Set D)
    {node : Node D} (hnode : ComparesAs pg a typ node) : ShrinkKeeps pg ord eord a vals node := by
  intro spec hspec
  obtain ⟨opno, commuted, op, hleaf, hop, rfl⟩ := hnode
  obtain ⟨family, -, hfamily, -⟩ := compareOp_spec hop
  refine ⟨(hleaf.exactOn laws returns hop hfamily hspec Mini.session.guc).1, ?_⟩
  intro g rows rows' c c' _ hfacts _ _ _ hprune
  obtain ⟨collation, Satisfies, hexact⟩ := (hleaf.exactOn laws returns hop hfamily hspec g).2
  refine absurd hprune (hexact.keeps c (Or.inl ?_))
  cases hplan : (planAccumulator pg a.typ).kind with
  | minMax => exact absurd hplan hkind
  | range => exact Or.inl (hfacts.kind.overlap.mpr (Or.inl hplan))
  | geometry => exact Or.inl (hfacts.kind.overlap.mpr (Or.inr hplan))
  | unsupported => exact Or.inr (Or.inr (Or.inl (hfacts.kind.unsupported hplan)))

/-- On a column that is not a geometry, a summary that is kept up decides as a rebuilt one:
the comparisons of a btree column by a type that reads the values in order, and no other
type, and every other leaf. -/
theorem rebuild_agrees_iff (io : pg.TextRoundTrip) (texts : pg.TextLaws) (hull : eord.RangeLaws)
    (laws : ex.BtreeLaws ord) (overlap : ex.OverlapLaws eord) (returns : pg.CompareReturns)
    (overlapReturns : OverlapReturns pg) {a : IndexAttr D} (hpos : 0 < a.attnum)
    {nsp name : String} (hname : pg.typeNameParts a.typ = some (nsp, name))
    (hgeometry : (planAccumulator pg a.typ).kind ≠ .geometry) {vals : Set D}
    (hvals : ∀ v ∈ vals, pg.HasText a.typ v)
    (hfits : FitsAlone pg a (pg.quoteQualifiedIdentifier false nsp name) vals) :
    (∀ {proc typ : Oid} {accepts : D → Prop}, planAccumulator pg a.typ = .minMax proc none none →
      Relabels pg a.typ (summaryParseType pg typ a.typ) accepts → OrderOperators pg typ →
      ((∀ node, ComparesAs pg a typ node → AgreesOn pg a vals node) ↔
        ReadsInOrder ord a typ accepts vals)) ∧
    ((planAccumulator pg a.typ).kind ≠ .minMax →
      ∀ typ node, ComparesAs pg a typ node → AgreesOn pg a vals node) ∧
    ∀ node, OtherLeaf pg a node → AgreesOn pg a vals node := by
  refine ⟨fun hacc relabels operators => ⟨fun h => ?_, fun hreads node hnode => ?_⟩,
    fun hkind typ node hnode => ?_, fun node hnode => ?_⟩
  · have htypeName := pg.qualifiedTypeName_eq hname false
    exact .of_agreesOn laws returns hpos htypeName hacc hvals hfits relabels operators h
  · have hshrink : ShrinkKeeps pg ord eord a vals node :=
      hreads.shrinkKeeps laws returns relabels hnode
    exact hshrink.agreesOn io texts hull hvals
  · have hshrink : ShrinkKeeps pg ord eord a vals node :=
      shrinkKeeps_unusable laws returns hkind vals hnode
    exact hshrink.agreesOn io texts hull hvals
  · cases hnode with
    | nullTest harg => exact agreesOn_nullTest io texts hull ord hvals harg _ _
    | operator hleaf hno =>
        have hshrink : ShrinkKeeps pg ord eord a vals node :=
          shrinkKeeps_operator io overlap overlapReturns hgeometry vals hleaf hno
        exact hshrink.agreesOn io texts hull hvals

section Mini

variable (key : Oid → Oid → Int → Int)

theorem mini_textLaws : (Mini.pg key).TextLaws where
  everywhere h _ _ := ⟨_, Mini.datumToText key (Mini.renders key h.choose_spec).1 _⟩
  rangeMerge ha _ h := by
    cases h
    exact ha

/-- The small server has no ranges. -/
theorem mini_rangeLaws : (Mini.pg key).noExtents.RangeLaws where
  rangeMerge_least _ _ _ := trivial
  extentQuery_range _ hrange := absurd hrange (Mini.planAccumulator_kind key _).1

/-- No operator of the small server is named `&&`. -/
theorem mini_overlapLaws : (Mini.executor key).OverlapLaws (Mini.pg key).noExtents where
  strict_left _ _ h := by cases h
  strict_right _ _ h := by cases h
  call h := by cases h
  mono_left h := by cases h
  mono_right h := by cases h

/-- An `oid` reads the `int4` values 2 and 5 in order, and decides them as a rebuild
does. -/
theorem rebuild_agrees_iff_oid :
    ReadsInOrder (Mini.order byType) int4Column oid (fun _ => True) {2, 5} ∧
      ∀ node, ComparesAs (Mini.pg byType) int4Column oid node →
        AgreesOn (Mini.pg byType) int4Column {2, 5} node := by
  have hname : (Mini.pg byType).typeNameParts int4Column.typ = some ("pg_catalog", "int4") := rfl
  have hacc : planAccumulator (Mini.pg byType) int4Column.typ = .minMax Mini.int4 none none := rfl
  have htexts : ∀ v ∈ ({2, 5} : Set Int), (Mini.pg byType).HasText int4Column.typ v := fun v _ =>
    ⟨_, Mini.session.guc, Mini.session_stable, Mini.datumToText byType (by decide) v⟩
  have hfits : FitsAlone (Mini.pg byType) int4Column "pg_catalog.int4" {2, 5} := by
    rintro s t ⟨v, hv, hs⟩ ⟨w, hw, ht⟩
    rw [(Mini.renders byType hs).2, (Mini.renders byType ht).2]
    rcases hv with rfl | rfl <;> rcases hw with rfl | rfl <;> decide +kernel
  have operators : OrderOperators (Mini.pg byType) oid :=
    ⟨⟨Mini.op oid 1, ⟨1, oid, oid⟩, by decide, rfl, rfl⟩,
      Mini.op oid 5, ⟨5, oid, oid⟩, by decide, rfl, rfl⟩
  have hkey : ∀ v ∈ ({2, 5} : Set Int), ∀ family collation, byType family collation v = v := by
    rintro v (rfl | rfl) family collation <;> simp [byType]
  have hreads : ReadsInOrder (Mini.order byType) int4Column oid (fun _ => True) {2, 5} := by
    intro family _ lo hlo hi hhi v hv _ _ hlov hvhi
    have hlov : byType Mini.int4 invalidOid lo ≤ byType Mini.int4 invalidOid v := hlov
    have hvhi : byType Mini.int4 invalidOid v ≤ byType Mini.int4 invalidOid hi := hvhi
    rw [hkey lo hlo, hkey v hv] at hlov
    rw [hkey v hv, hkey hi hhi] at hvhi
    refine ⟨trivial, ?_, ?_⟩
    · show byType family invalidOid lo ≤ byType family invalidOid v
      rwa [hkey lo hlo, hkey v hv]
    · show byType family invalidOid v ≤ byType family invalidOid hi
      rwa [hkey v hv, hkey hi hhi]
  exact ⟨hreads, ((rebuild_agrees_iff (Mini.textRoundTrip _) (mini_textLaws _) (mini_rangeLaws _)
    (Mini.btreeLaws _) (mini_overlapLaws _) ⟨fun _ _ _ _ => ⟨_, rfl⟩⟩
    ⟨fun _ _ _ _ => ⟨_, rfl⟩⟩ (by decide) hname (by simp [hacc, Accumulator.kind]) htexts hfits).1
    hacc (mini_relabels Mini.int4 (by decide)) operators).mpr hreads⟩

/-- As an `int4`, 2 and 3 are equal, and as an `oid` they are not: so are two spellings of
one word as a `citext` and as a `text`. -/
def byHalf : Oid → Oid → Int → Int := fun typ _ n => if typ = oid then n else n / 2

/-- `column::oid > 2`. -/
def aboveTwo : Node Int :=
  .opExpr (Mini.op oid 5) invalidOid [.relabelType (.var 1 Mini.int4) oid, .const oid (some 2)]

/-- The values 2 and 3 are scanned and inserted in this order by one history and scanned
in the other order by the rebuild.  The first of the two stays the bound. -/
theorem not_agreesOn_equalValues :
    let pg := Mini.pg byHalf
    KeptUp pg Mini.index.attrs [Mini.row 2] ⟨[Mini.entry 2 2]⟩ [Mini.row 3] ∧
      KeptUp pg Mini.index.attrs [Mini.row 3, Mini.row 2] ⟨[Mini.entry 3 3]⟩ [] ∧
      leafProvesPrune pg Mini.session.guc [Mini.entry 2 2] aboveTwo = .ok true ∧
      leafProvesPrune pg Mini.session.guc [Mini.entry 3 3] aboveTwo = .ok false ∧
      (Mini.executor byHalf).truth pg (Mini.row 3) aboveTwo = some true ∧
      ¬AgreesOn pg int4Column {2, 3} aboveTwo := by
  intro pg
  have hfits (n : Int) (hn : (serialize ⟨[Mini.entry n n]⟩).length ≤ maxBlobLen) :
      (encodeFitting ⟨[Mini.entry n n]⟩).1 = ⟨[Mini.entry n n]⟩ := by
    rw [encodeFitting_of_fits hn]
  have hbuilt : buildLeafSummary pg Mini.session Mini.index.attrs [Mini.row 2] =
      .ok ⟨[Mini.entry 2 2]⟩ := by decide +kernel
  have hwidened : widenStable pg Mini.session Mini.index.attrs (Mini.row 3) ⟨[Mini.entry 2 2]⟩ =
      .ok (⟨[Mini.entry 2 2]⟩, false) := by decide +kernel
  have hrebuilt : buildLeafSummary pg Mini.session Mini.index.attrs [Mini.row 3, Mini.row 2] =
      .ok ⟨[Mini.entry 3 3]⟩ := by decide +kernel
  have htwo : (serialize ⟨[Mini.entry 2 2]⟩).length ≤ maxBlobLen := by decide +kernel
  have hthree : (serialize ⟨[Mini.entry 3 3]⟩).length ≤ maxBlobLen := by decide +kernel
  have hkept : KeptUp pg Mini.index.attrs [Mini.row 2] ⟨[Mini.entry 2 2]⟩ [Mini.row 3] := by
    have hbuild := KeptUp.build hbuilt htwo
    rw [hfits 2 htwo] at hbuild
    have hinsert := KeptUp.insert hbuild hwidened htwo
    rwa [hfits 2 htwo] at hinsert
  have hkept' : KeptUp pg Mini.index.attrs [Mini.row 3, Mini.row 2] ⟨[Mini.entry 3 3]⟩ [] := by
    have hbuild := KeptUp.build hrebuilt hthree
    rwa [hfits 3 hthree] at hbuild
  have hprune : leafProvesPrune pg Mini.session.guc [Mini.entry 2 2] aboveTwo = .ok true := by
    decide +kernel
  have hkeep : leafProvesPrune pg Mini.session.guc [Mini.entry 3 3] aboveTwo = .ok false := by
    decide +kernel
  refine ⟨hkept, hkept', hprune, hkeep, by decide +kernel, fun hagrees => ?_⟩
  have hboth : Rebuilt pg Mini.index.attrs int4Column {2, 3} [Mini.row 2] [Mini.row 3]
      [Mini.row 3, Mini.row 2] ⟨[Mini.entry 2 2]⟩ ⟨[Mini.entry 3 3]⟩ := by
    refine ⟨Mini.index_distinct, int4Column_mem, hkept, hkept',
      List.Subperm.refl _, fun row hrow v hv => ?_⟩
    rcases List.mem_pair.mp hrow with rfl | rfl <;> cases hv <;> simp
  have hg := Mini.session_stable
  rcases hagrees.same hboth (.refl _) hg with hiff | ⟨⟨⟨_, _, hno⟩, -⟩, -⟩
  · cases hkeep.symm.trans (hiff.mp hprune)
  · cases hno

end Mini

end TableRange
