import Mathlib.Data.List.Nodup
import TableRange.Coverage.FirstEntry
import TableRange.MiniPg
import TableRange.Prune.Exact

/-!
# Relabels that change the order

`strip_relabel` looks through a binary coercion of the column to the operator's
type, while the bounds were ordered by the column's own type.  The two orders
need not agree: as an `oid`, a negative `int4` is larger than every positive one.

`prunesSoundly_iff` says what the pruning through an operator rests on: whatever
lies between two bounds in the column's order has to lie inside the bounds that
the operator tests in the operator's order (`OrdersAgree`).
-/

namespace TableRange

open Lib.Interval Lib.Fallible

variable {D : Type} {pg : Pg D} {ord : pg.BtreeOrder} {eord : pg.ExtentOrder} {ex : Executor D}

/-- The leaves that compare the column with constants by the operator, through
any number of relabels. -/
inductive ColumnLeaf (a : IndexAttr D) (opno : Oid) : Bool → Node D → Prop
  | compare {left right : Node D} {vc : VarConst D} {inputcollid : Oid}
      (hvc : varConst left right = some vc) (hattnum : vc.varattno = a.attnum)
      (htyp : vc.vartype = a.typ) :
      ColumnLeaf a opno vc.commuted (.opExpr opno inputcollid [left, right])
  | anyOf {left right : Node D} {useOr : Bool} {inputcollid : Oid}
      (hleft : stripRelabel left = .var a.attnum a.typ) :
      ColumnLeaf a opno false (.scalarArrayOpExpr opno useOr inputcollid [left, right])

/-- No leaf that compares the column by the operator prunes away a row that it
is true on. -/
def PrunesSoundly (pg : Pg D) (ex : Executor D) (a : IndexAttr D) (opno : Oid) (commuted : Bool) :
    Prop :=
  ∀ (attrs : List (IndexAttr D)) (s : IndexSummary) (rows : List (Row D)) (g : Guc) (node : Node D),
    DistinctColumns attrs → a ∈ summarized attrs → Maintained pg attrs s rows → g.Stable →
    ColumnLeaf a opno commuted node → leafProvesPrune pg g s.cols node = .ok true →
    ∀ row ∈ rows, ex.truth pg row node ≠ some true

/-- How a type reads the text of the column's values: it accepts the text of some
of them, and reads those back as they are. -/
structure Relabels (pg : Pg D) (typ parseType : Oid) (accepts : D → Prop) : Prop where
  /-- A value with a text form has one in every session. -/
  renders : ∀ {t : String} {v : D}, pg.Renders typ t v → ∀ g : Guc, g.Stable →
    ∃ t', pg.datumToText g typ v = .ok (some t')
  read : ∀ {g : Guc} {t : String} {v : D}, g.Stable → pg.Renders typ t v → accepts v →
    pg.textToDatum g parseType t = .ok (some v)
  reject : ∀ {g : Guc} {t : String} {v d : D}, g.Stable → pg.Renders typ t v → ¬accepts v →
    pg.textToDatum g parseType t ≠ .ok (some d)

/-- A text of the column that the type reads is the text of a value it accepts, and
that value is what is read. -/
theorem Relabels.of_read {typ parseType : Oid} {accepts : D → Prop}
    (h : Relabels pg typ parseType accepts) {g : Guc} (hg : g.Stable) {t : String} {v d : D}
    (hv : pg.Renders typ t v) (hd : pg.textToDatum g parseType t = .ok (some d)) :
    accepts v ∧ v = d := by
  have haccepts : accepts v := by_contra fun hno => h.reject hg hv hno hd
  exact ⟨haccepts, Option.some.inj (Except.ok.inj ((h.read hg hv haccepts).symm.trans hd))⟩

/-- What lies between two bounds that the operator's side accepts, in the
column's order, is inside the bounds that the operator tests, in its own. -/
def OrdersAgree (ord : pg.BtreeOrder) (a : IndexAttr D) (op : CompareOp) (accepts : D → Prop) :
    Prop :=
  ∀ lo hi v, (∃ s, pg.Renders a.typ s lo) → (∃ t, pg.Renders a.typ t hi) → accepts lo →
    accepts hi → (columnOrder ord a.typ a.collation).le lo v →
    (columnOrder ord a.typ a.collation).le v hi →
    ∀ family cmp, pg.defaultBtreeFamily op.varType = some family →
      comparisonOf op.strategy = some cmp →
      @Comparison.Within D (ord.order family a.collation) cmp lo hi v

/-- A leaf that compares the column is not true on a row whose value is inside the
bounds that are read in the entry. -/
theorem ColumnLeaf.sound (laws : ex.BtreeLaws ord) {a : IndexAttr D} {opno : Oid} {commuted : Bool}
    {op : CompareOp} (hop : compareOp pg opno commuted = some op) {node : Node D}
    (hnode : ColumnLeaf a opno commuted node) {cols : List ColSummary} {g : Guc} {row : Row D}
    (hencloses : ∀ c, firstEntry cols a.attnum = some c → c.overlap = false →
      ∀ v, row a.attnum = some v → Encloses ord g c op a.typ v)
    (h : leafProvesPrune pg g cols node = .ok true) : ex.truth pg row node ≠ some true := by
  unfold leafProvesPrune at h
  split at h
  · cases h
  rename_i spec hspec
  split at h
  · cases h
  rename_i c hfind
  cases hnode with
  | @compare left right vc inputcollid hvc hattnum htyp =>
      have hspec : extractOpexpr pg opno inputcollid [left, right] = some spec := hspec
      obtain ⟨left', right', vc', k, hargs, hvc', hk, hcases⟩ := extractOpexpr_cases hspec
      cases hargs
      cases hvc.symm.trans hvc'
      rcases hcases with ⟨op', hop', rfl⟩ | ⟨hnone, -, -⟩
      · obtain rfl : op' = op := Option.some.inj (hop'.symm.trans hop)
        refine compare_sound laws hvc hk hop (fun hov v hv => ?_) h
        rw [htyp]
        exact hencloses c (hattnum ▸ hfind) hov v (hattnum ▸ hv)
      · exact absurd (hnone.symm.trans hop) nofun
  | @anyOf left right useOr inputcollid hleft =>
      have hspec : extractSaop pg opno useOr inputcollid [left, right] = some spec := hspec
      obtain ⟨rfl, left', right', varattno, vartype, consttype, array, op', elems, hargs, hleft',
        hright, hop', heq, helems, rfl⟩ := extractSaop_cases hspec
      cases hargs
      cases hleft.symm.trans hleft'
      obtain rfl : op' = op := Option.some.inj (hop'.symm.trans hop)
      exact inList_sound laws hleft hright hop heq helems (hencloses c hfind) h

/-! ## Orders that agree -/

/-- The bounds of the column, read by the operator's side, enclose what the entry
covers. -/
theorem OrdersAgree.encloses {a : IndexAttr D} {op : CompareOp} {accepts : D → Prop}
    (hagree : OrdersAgree ord a op accepts)
    (relabels : Relabels pg a.typ (summaryParseType pg op.varType a.typ) accepts) {g : Guc}
    (hg : g.Stable) {c : ColSummary} (hentry : EntryOf pg a c) (hov : c.overlap = false) {v : D}
    (hcovers : Covers ord eord a c (some v)) : Encloses ord g c op a.typ v := by
  intro lo' hi' family cmp h hfamily hcmp
  obtain ⟨hunb, s, t, hs, ht, hlo', hhi'⟩ := parsedBounds_spec h
  have hin : InRange ord a c v := by
    rcases hcovers.2 with hno | hin
    · rw [hunb] at hno
      cases hno
    · exact hin.inRange hov
  obtain ⟨s', t', lo, hi, hs', ht', hlo, hhi, hlov, hvhi⟩ := hin
  obtain rfl : s' = s := Option.some.inj (hs'.symm.trans hs)
  obtain rfl : t' = t := Option.some.inj (ht'.symm.trans ht)
  obtain ⟨hacclo, rfl⟩ := relabels.of_read hg hlo hlo'
  obtain ⟨hacchi, rfl⟩ := relabels.of_read hg hhi hhi'
  rw [hentry.collation] at hlov hvhi ⊢
  exact hagree lo hi v ⟨_, hlo⟩ ⟨_, hhi⟩ hacclo hacchi hlov hvhi family cmp hfamily hcmp

/-- Orders that agree make every prune through the operator sound. -/
theorem OrdersAgree.prunesSoundly (io : pg.TextRoundTrip) (laws : ex.BtreeLaws ord)
    {a : IndexAttr D} {opno : Oid} {commuted : Bool} {op : CompareOp} {accepts : D → Prop}
    (hop : compareOp pg opno commuted = some op)
    (relabels : Relabels pg a.typ (summaryParseType pg op.varType a.typ) accepts)
    (hagree : OrdersAgree ord a op accepts) : PrunesSoundly pg ex a opno commuted := by
  intro attrs s rows g node hdistinct ha hs hg hnode h row hrow
  have hcovers : SummaryCovers ord pg.noExtents attrs s (rowValues {row}) :=
    (hs.covers ord pg.noExtents io hdistinct).mono (rowValues_mono fun r hr => by
      rw [Set.mem_singleton_iff.mp hr]
      exact hrow)
  -- the entry that decides is the entry of `a`
  have hencloses : ∀ c, (s.cols.find? fun r => r.attnum == a.attnum) = some c →
      c.overlap = false → ∀ v, row a.attnum = some v → Encloses ord g c op a.typ v := by
    intro c hfind hov v hv
    obtain ⟨a', ha', hattnum, hentry, hcover⟩ := entry_of_find hcovers hfind
    obtain rfl : a' = a := List.inj_on_of_nodup_map hdistinct ha' ha hattnum
    rw [hv] at hcover
    exact hagree.encloses relabels hg hentry hov hcover
  exact hnode.sound laws hop hencloses h

/-! ## A table of three rows -/

section Build

variable {a : IndexAttr D} {cmp : Oid} {typeName : String}

/-- The column of an index on `a` alone, with the bounds so far. -/
def boundsColumn (a : IndexAttr D) (typeName : String) (cmp : Oid) (nonnull : Nat) (lo hi : D) :
    ColumnBuild D :=
  { indexPos := 0, attnum := a.attnum, typ := a.typ, typeName, collation := a.collation
    nonnull, nulls := 0, acc := .minMax cmp (some lo) (some hi) }

variable (ord typeName) in
/-- The two comparisons of a fold and the bounds they leave. -/
private theorem buildColumn_bounds (returns : pg.CompareReturns)
    (hcmp : pg.btreeCmpProc (pg.getBaseType a.typ) = some cmp) (hpos : 0 < a.attnum) (g : Guc)
    (n : Nat) (lo hi v : D) :
    ∃ lo' hi', buildColumn pg g (indexTuple [a] (singleRow a v))
      (boundsColumn a typeName cmp n lo hi) =
        .ok (boundsColumn a typeName cmp (n + 1) lo' hi') ∧
      ((columnOrder ord a.typ a.collation).lt v lo → lo' = v) ∧
      (¬(columnOrder ord a.typ a.collation).lt v lo → lo' = lo) ∧
      ((columnOrder ord a.typ a.collation).lt hi v → hi' = v) ∧
      (¬(columnOrder ord a.typ a.collation).lt hi v → hi' = hi) := by
  have hvalue : indexTuple [a] (singleRow a v) 0 = some v := by
    simp [indexTuple, a.value_of_pos hpos]
  obtain ⟨below, hbelow⟩ := returns.returns (pg.isCompareProc_btree hcmp) a.collation v lo
  obtain ⟨above, habove⟩ := returns.returns (pg.isCompareProc_btree hcmp) a.collation v hi
  have hb := compareCall_spec ord hcmp hbelow
  have ha := compareCall_spec ord hcmp habove
  refine ⟨if below < 0 then v else lo, if 0 < above then v else hi, ?_, ?_, ?_, ?_, ?_⟩
  · rw [buildColumn, show (boundsColumn a typeName cmp n lo hi).indexPos = 0 from rfl, hvalue]
    simp only [addValue, boundsColumn, hbelow, habove, bind, Except.bind]
  · exact fun hv => if_pos (hb.1.mpr hv)
  · exact fun hv => if_neg fun hn => hv (hb.1.mp hn)
  · exact fun hv => if_pos (ha.2.mpr hv)
  · exact fun hv => if_neg fun hn => hv (ha.2.mp hn)

private theorem buildCallback_singleton {g : Guc} {tuple : Nat → Option D}
    {col col' : ColumnBuild D}
    (h : buildColumn pg g tuple col = .ok col') : buildCallback pg g [col] tuple = .ok [col'] := by
  simp [buildCallback, h, bind, Except.bind, pure, Except.pure]

/-- The first value is both bounds. -/
private theorem buildColumn_seed (hpos : 0 < a.attnum) (g : Guc) (x : D) :
    buildColumn pg g (indexTuple [a] (singleRow a x))
      { boundsColumn a typeName cmp 0 x x with acc := .minMax cmp none none } =
        .ok (boundsColumn a typeName cmp 1 x x) := by
  simp [buildColumn, boundsColumn, indexTuple, a.value_of_pos hpos, addValue]

variable (ord typeName) in
/-- The scan of three values, of which the third lies between the others: the
first one stays a bound. -/
private theorem scan_three (returns : pg.CompareReturns)
    (hcmp : pg.btreeCmpProc (pg.getBaseType a.typ) = some cmp) (hpos : 0 < a.attnum) (g : Guc)
    (x y v : D) :
    ∃ lo hi, ([x, y, v].map fun u => indexTuple [a] (singleRow a u)).foldlM (buildCallback pg g)
        [{ boundsColumn a typeName cmp 0 x x with acc := .minMax cmp none none }] =
          .ok [boundsColumn a typeName cmp 3 lo hi] ∧
      ((columnOrder ord a.typ a.collation).le x v → (columnOrder ord a.typ a.collation).le v y →
        lo = x ∧ (hi = x ∨ hi = y)) ∧
      ((columnOrder ord a.typ a.collation).le y v → (columnOrder ord a.typ a.collation).le v x →
        hi = x ∧ (lo = x ∨ lo = y)) := by
  obtain ⟨lo₁, hi₁, hy, hlo₁, hlo₁', hhi₁, hhi₁'⟩ :=
    buildColumn_bounds ord typeName returns hcmp hpos g 1 x x y
  obtain ⟨lo₂, hi₂, hv, hlo₂, hlo₂', hhi₂, hhi₂'⟩ :=
    buildColumn_bounds ord typeName returns hcmp hpos g 2 lo₁ hi₁ v
  let _ := columnOrder ord a.typ a.collation
  have _ := ord.total (pg.columnFamily a.typ) a.collation
  refine ⟨lo₂, hi₂, ?_, fun hxv hvy => ?_, fun hyv hvx => ?_⟩
  · simp only [List.map_cons, List.map_nil, List.foldlM_cons, List.foldlM_nil,
      buildCallback_singleton (buildColumn_seed hpos g x), buildCallback_singleton hy,
        buildCallback_singleton hv,
      bind, Except.bind, pure, Except.pure]
  · have hlo : lo₁ = x := hlo₁' (not_lt_of_ge (le_trans hxv hvy))
    refine ⟨(hlo₂' (by rw [hlo]; exact not_lt_of_ge hxv)).trans hlo, ?_⟩
    by_cases hxy : x < y
    · have hhi : hi₁ = y := hhi₁ hxy
      exact Or.inr ((hhi₂' (by rw [hhi]; exact not_lt_of_ge hvy)).trans hhi)
    · have hhi : hi₁ = x := hhi₁' hxy
      have hvx : v ≤ x := le_trans hvy (le_of_not_lt hxy)
      exact Or.inl ((hhi₂' (by rw [hhi]; exact not_lt_of_ge hvx)).trans hhi)
  · have hhi : hi₁ = x := hhi₁' (not_lt_of_ge (le_trans hyv hvx))
    refine ⟨(hhi₂' (by rw [hhi]; exact not_lt_of_ge hvx)).trans hhi, ?_⟩
    by_cases hyx : y < x
    · have hlo : lo₁ = y := hlo₁ hyx
      exact Or.inr ((hlo₂' (by rw [hlo]; exact not_lt_of_ge hyv)).trans hlo)
    · have hlo : lo₁ = x := hlo₁' hyx
      have hxv : x ≤ v := le_trans (le_of_not_lt hyx) hyv
      exact Or.inl ((hlo₂' (by rw [hlo]; exact not_lt_of_ge hxv)).trans hlo)

/-- The entry with the bounds `s` and `t`. -/
def boundsEntry (a : IndexAttr D) (typeName s t : String) : ColSummary :=
  { attnum := a.attnum, overlap := false, typeName, collation := a.collation, min := some s
    max := some t, hasNulls := false, allNulls := false, unbounded := false }

private theorem finish_bounds {g : Guc} {lo hi : D} {s t : String}
    (hs : pg.datumToText g a.typ lo = .ok (some s)) (ht : pg.datumToText g a.typ hi = .ok (some t))
    (n : Nat) :
    finish pg g [boundsColumn a typeName cmp (n + 1) lo hi] =
      .ok ⟨[boundsEntry a typeName s t]⟩ := by
  have hrender : renderBounds pg g (boundsColumn a typeName cmp (n + 1) lo hi) =
      .ok (false, some s, some t, false) := by
    simp [renderBounds, boundsColumn, renderBound, hs, ht, bind, Except.bind]
  have hcol : finishColumn pg g (boundsColumn a typeName cmp (n + 1) lo hi) =
      .ok (boundsEntry a typeName s t) := by
    rw [finishColumn, show flushGeometry pg g (boundsColumn a typeName cmp (n + 1) lo hi) =
      .ok (boundsColumn a typeName cmp (n + 1) lo hi) from rfl]
    simp only [hrender, bind, Except.bind]
    rfl
  simp [finish, hcol, bind, Except.bind, pure, Except.pure]

/-- What a scan that leaves two bounds is written as. -/
private theorem buildLeafSummary_of_scan
    (htypeName : pg.qualifiedTypeName false a.typ = .ok typeName)
    (hacc : planAccumulator pg a.typ = .minMax cmp none none) (hpos : 0 < a.attnum) {vs : List D}
    {n : Nat} {x lo hi : D} {s t : String}
    (hscan : (vs.map fun u => indexTuple [a] (singleRow a u)).foldlM
      (buildCallback pg Mini.session.guc)
      [{ boundsColumn a typeName cmp 0 x x with acc := .minMax cmp none none }] =
        .ok [boundsColumn a typeName cmp (n + 1) lo hi])
    (hs : pg.datumToText Mini.session.guc.pin a.typ lo = .ok (some s))
    (ht : pg.datumToText Mini.session.guc.pin a.typ hi = .ok (some t)) :
    buildLeafSummary pg Mini.session [a] (vs.map (singleRow a)) =
      .ok ⟨[boundsEntry a typeName s t]⟩ := by
  have hplan : planColumns pg Mini.session [a] =
      .ok [{ boundsColumn a typeName cmp 0 x x with acc := .minMax cmp none none }] := by
    have hquoteAll : Mini.session.quoteAllIdentifiers = false := rfl
    simp [planColumns, planColumnsFrom, Int16.not_le.mpr hpos, hquoteAll, htypeName, hacc,
      boundsColumn, bind, Except.bind]
  have hserial : Mini.session.inParallelMode = false := rfl
  have hrows : (vs.map (singleRow a)).map (indexTuple [a]) =
      vs.map fun u => indexTuple [a] (singleRow a u) := List.map_map
  simp only [buildLeafSummary, hplan, hrows, hscan, bind, Except.bind,
    withStableIo_of_not_parallel _ hserial, finish_bounds hs ht n]

/-- A table of one row. -/
theorem buildLeafSummary_one {accepts : D → Prop} {parseType : Oid}
    (relabels : Relabels pg a.typ parseType accepts)
    (htypeName : pg.qualifiedTypeName false a.typ = .ok typeName)
    (hacc : planAccumulator pg a.typ = .minMax cmp none none) (hpos : 0 < a.attnum) {v : D}
    (hv : ∃ t, pg.Renders a.typ t v) :
    ∃ s, buildLeafSummary pg Mini.session [a] [singleRow a v] =
      .ok ⟨[boundsEntry a typeName s s]⟩ ∧ pg.Renders a.typ s v := by
  obtain ⟨s, hs⟩ := relabels.renders hv.choose_spec _ Mini.session.guc.pin_stable
  have hscan : ([v].map fun u => indexTuple [a] (singleRow a u)).foldlM
      (buildCallback pg Mini.session.guc)
      [{ boundsColumn a typeName cmp 0 v v with acc := .minMax cmp none none }] =
        .ok [boundsColumn a typeName cmp 1 v v] := by
    simp only [List.map_cons, List.map_nil, List.foldlM_cons, List.foldlM_nil,
      buildCallback_singleton (buildColumn_seed hpos _ v), bind, Except.bind, pure, Except.pure]
  exact ⟨s, buildLeafSummary_of_scan htypeName hacc hpos hscan hs hs, _, Guc.pin_stable _, hs⟩

/-- A table of three rows whose third value lies between the other two: its
bounds are the first value, on its side, and one of the first two. -/
theorem buildLeafSummary_three (returns : pg.CompareReturns) {accepts : D → Prop} {parseType : Oid}
    (relabels : Relabels pg a.typ parseType accepts)
    (htypeName : pg.qualifiedTypeName false a.typ = .ok typeName)
    (hacc : planAccumulator pg a.typ = .minMax cmp none none) (hpos : 0 < a.attnum) {x y v : D}
    (hx : ∃ t, pg.Renders a.typ t x) (hy : ∃ t, pg.Renders a.typ t y)
    (hbetween : ((columnOrder ord a.typ a.collation).le x v ∧
      (columnOrder ord a.typ a.collation).le v y) ∨
      ((columnOrder ord a.typ a.collation).le y v ∧ (columnOrder ord a.typ a.collation).le v x)) :
    ∃ lo hi s t, buildLeafSummary pg Mini.session [a]
      [singleRow a x, singleRow a y, singleRow a v] =
        .ok ⟨[boundsEntry a typeName s t]⟩ ∧ pg.Renders a.typ s lo ∧ pg.Renders a.typ t hi ∧
      (lo = x ∨ lo = y) ∧ (hi = x ∨ hi = y) ∧
      ((columnOrder ord a.typ a.collation).le x v → (columnOrder ord a.typ a.collation).le v y →
        lo = x) ∧
      ((columnOrder ord a.typ a.collation).le y v → (columnOrder ord a.typ a.collation).le v x →
        hi = x) := by
  have hcmp : pg.btreeCmpProc (pg.getBaseType a.typ) = some cmp := by
    have hholds : Holds ord pg.noExtents a [] (planAccumulator pg a.typ) := planAccumulator_holds a
    rw [hacc] at hholds
    exact hholds.1
  obtain ⟨lo, hi, hscan, hup, hdown⟩ := scan_three ord typeName returns hcmp hpos
    Mini.session.guc x y v
  have hends : (lo = x ∨ lo = y) ∧ (hi = x ∨ hi = y) := by
    rcases hbetween with ⟨h, h'⟩ | ⟨h, h'⟩
    · exact ⟨Or.inl (hup h h').1, (hup h h').2⟩
    · exact ⟨(hdown h h').2, Or.inl (hdown h h').1⟩
  have hrenders : ∀ u, u = x ∨ u = y → ∃ t, pg.datumToText Mini.session.guc.pin a.typ u =
      .ok (some t) := by
    rintro u (rfl | rfl)
    · exact relabels.renders hx.choose_spec _ (Guc.pin_stable _)
    · exact relabels.renders hy.choose_spec _ (Guc.pin_stable _)
  obtain ⟨s, hs⟩ := hrenders lo hends.1
  obtain ⟨t, ht⟩ := hrenders hi hends.2
  exact ⟨lo, hi, s, t, buildLeafSummary_of_scan htypeName hacc hpos hscan hs ht,
    ⟨_, Guc.pin_stable _, hs⟩, ⟨_, Guc.pin_stable _, ht⟩, hends.1, hends.2,
    fun h h' => (hup h h').1, fun h h' => (hdown h h').1⟩

end Build

/-! ## Clauses that tell the orders apart -/

/-- The relabelled column compared with a constant. -/
def relabelNode (a : IndexAttr D) (opno : Oid) (commuted : Bool) (typ : Oid) (k : D) : Node D :=
  .opExpr opno a.collation
    (if commuted then [.const typ (some k), .relabelType (.var a.attnum a.typ) typ]
      else [.relabelType (.var a.attnum a.typ) typ, .const typ (some k)])

theorem relabelNode_columnLeaf (a : IndexAttr D) (opno : Oid) (commuted : Bool) (typ : Oid)
    (k : D) :
    ColumnLeaf a opno commuted (relabelNode a opno commuted typ k) := by
  cases commuted with
  | false =>
      have hvc : varConst (.relabelType (.var a.attnum a.typ) typ) (.const typ (some k)) =
        some ⟨a.attnum, a.typ, typ, some k, false⟩ := rfl
      exact .compare hvc rfl rfl
  | true =>
      have hvc : varConst (.const typ (some k)) (.relabelType (.var a.attnum a.typ) typ) =
        some ⟨a.attnum, a.typ, typ, some k, true⟩ := rfl
      exact .compare hvc rfl rfl

/-- The constant is compared with the entry's bounds as they are read. -/
theorem leafProvesPrune_relabelNode {a : IndexAttr D} (hpos : 0 < a.attnum) {opno : Oid}
    {commuted : Bool} {op : CompareOp} (hop : compareOp pg opno commuted = some op) {g : Guc}
    {typeName s t : String} {lo hi k : D} (typ : Oid)
    (hlo : pg.textToDatum g (summaryParseType pg op.varType a.typ) s = .ok (some lo))
    (hhi : pg.textToDatum g (summaryParseType pg op.varType a.typ) t = .ok (some hi)) :
    leafProvesPrune pg g [boundsEntry a typeName s t] (relabelNode a opno commuted typ k) =
      boundaryTest (fun bound => pg.compareCall op.cmpproc a.collation bound k) op.strategy lo
        hi := by
  have hqual : extractQual pg (relabelNode a opno commuted typ k) =
      some (.compare a.attnum op.strategy (summaryParseType pg op.varType a.typ) op.cmpproc
        a.collation k) := by
    cases commuted with
    | false =>
        simp [extractQual, relabelNode, extractOpexpr, varConst, stripRelabel, hop,
          Int16.not_le.mpr hpos]
    | true =>
        simp [extractQual, relabelNode, extractOpexpr, varConst, stripRelabel, hop,
          Int16.not_le.mpr hpos]
  have hbounds : parsedBounds pg g (boundsEntry a typeName s t)
      (summaryParseType pg op.varType a.typ) = .ok (some (lo, hi)) := by
    simp [parsedBounds, boundsEntry, hlo, hhi, bind, Except.bind]
  have hfind : ([boundsEntry a typeName s t].find? fun r => r.attnum == a.attnum) =
      some (boundsEntry a typeName s t) := by
    simp [boundsEntry]
  rw [leafProvesPrune, hqual]
  simp only [QualSpec.attnum, hfind, QualSpec.provesPrune]
  rw [if_pos (by simp [boundsEntry]), evalCompare]
  simp only [hbounds, bind, Except.bind]

/-- On a table of three rows, a sound operator finds the third value within the
bounds it reads. -/
theorem PrunesSoundly.within (laws : ex.BtreeLaws ord) (returns : pg.CompareReturns)
    {a : IndexAttr D} {opno : Oid} {commuted : Bool} (hsound : PrunesSoundly pg ex a opno commuted)
    (hpos : 0 < a.attnum) {op : CompareOp} (hop : compareOp pg opno commuted = some op)
    {typeName s t : String} {x y v lo hi : D}
    (hbuilt : buildLeafSummary pg Mini.session [a] [singleRow a x, singleRow a y, singleRow a v] =
      .ok ⟨[boundsEntry a typeName s t]⟩)
    (hlo : pg.textToDatum Mini.session.guc (summaryParseType pg op.varType a.typ) s = .ok (some lo))
    (hhi : pg.textToDatum Mini.session.guc (summaryParseType pg op.varType a.typ) t = .ok (some hi))
    {family : Oid} {cmp : Comparison} (hfamily : pg.defaultBtreeFamily op.varType = some family)
    (hcmp : comparisonOf op.strategy = some cmp) :
    @Comparison.Within D (ord.order family a.collation) cmp lo hi v := by
  obtain ⟨family', c, hfamily', hc, hstrategy, hproc, constType, hcmpproc⟩ := compareOp_spec hop
  obtain rfl : family' = family := Option.some.inj (hfamily'.symm.trans hfamily)
  obtain rfl : (if commuted then c.flip else c) = cmp := Option.some.inj (hstrategy.symm.trans hcmp)
  let _ := ord.order family' a.collation
  have _ := ord.total family' a.collation
  rw [Comparison.within_iff]
  intro k hexcl hholds
  have hprune : leafProvesPrune pg Mini.session.guc [boundsEntry a typeName s t]
      (relabelNode a opno commuted op.varType k) = .ok true := by
    rw [leafProvesPrune_relabelNode hpos hop _ hlo hhi, hcmpproc]
    exact boundaryTest_of_excludes returns hcmp (hcmpproc ▸ hproc) hexcl
  have hdistinct : DistinctColumns [a] := by
    simp [DistinctColumns, summarized, hpos]
  have hfalse := hsound [a] _ _ _ _ hdistinct (mem_summarized.mpr ⟨List.mem_singleton_self a, hpos⟩)
    (.build hbuilt) Mini.session_stable (relabelNode_columnLeaf a opno commuted op.varType k)
    hprune (singleRow a v) (by simp)
  apply hfalse
  cases commuted with
  | false =>
      rw [show ex.truth pg (singleRow a v) (relabelNode a opno false op.varType k) =
        ex.opResult opno a.collation (singleRow a v a.attnum) (some k) from rfl, singleRow_attnum]
      exact (laws.compare _ _ _ hc).mpr hholds
  | true =>
      rw [show ex.truth pg (singleRow a v) (relabelNode a opno true op.varType k) =
        ex.opResult opno a.collation (some k) (singleRow a v a.attnum) from rfl, singleRow_attnum]
      exact (laws.compare _ _ _ hc).mpr ((Comparison.holds_flip c v k).mp hholds)

/-- Pruning through an operator is sound exactly when the operator's order agrees
with the column's. -/
theorem prunesSoundly_iff (io : pg.TextRoundTrip) (laws : ex.BtreeLaws ord)
    (returns : pg.CompareReturns) {a : IndexAttr D} (hpos : 0 < a.attnum) {nsp name : String}
    (hname : pg.typeNameParts a.typ = some (nsp, name)) {cmp : Oid}
    (hacc : planAccumulator pg a.typ = .minMax cmp none none) {opno : Oid} {commuted : Bool}
    {op : CompareOp} (hop : compareOp pg opno commuted = some op) {accepts : D → Prop}
    (relabels : Relabels pg a.typ (summaryParseType pg op.varType a.typ) accepts) :
    PrunesSoundly pg ex a opno commuted ↔ OrdersAgree ord a op accepts := by
  refine ⟨fun hsound lo hi v hlo hhi hacclo hacchi hlov hvhi family c hfamily hc => ?_,
    fun hagree => hagree.prunesSoundly io laws hop relabels⟩
  have hg := Mini.session_stable
  have htypeName := pg.qualifiedTypeName_eq hname false
  -- the value within the bounds of the table `x`, `y`, `v`
  have hthree : ∀ x y, (∃ s, pg.Renders a.typ s x) → (∃ t, pg.Renders a.typ t y) → accepts x →
      accepts y → ((columnOrder ord a.typ a.collation).le x v ∧
        (columnOrder ord a.typ a.collation).le v y) ∨
        ((columnOrder ord a.typ a.collation).le y v ∧ (columnOrder ord a.typ a.collation).le v x) →
      ∃ lo' hi', @Comparison.Within D (ord.order family a.collation) c lo' hi' v ∧
        ((columnOrder ord a.typ a.collation).le x v → (columnOrder ord a.typ a.collation).le v y →
          lo' = x) ∧
        ((columnOrder ord a.typ a.collation).le y v → (columnOrder ord a.typ a.collation).le v x →
          hi' = x) := by
    intro x y hx hy haccx haccy hbetween
    obtain ⟨lo', hi', s, t, hbuilt, hs, ht, hlo', hhi', hup, hdown⟩ :=
      buildLeafSummary_three returns relabels htypeName hacc hpos hx hy hbetween
    have hread : ∀ {u t}, (u = x ∨ u = y) → pg.Renders a.typ t u → pg.textToDatum Mini.session.guc
        (summaryParseType pg op.varType a.typ) t = .ok (some u) := by
      rintro u t (rfl | rfl) hu
      · exact relabels.read hg hu haccx
      · exact relabels.read hg hu haccy
    exact ⟨lo', hi', hsound.within laws returns hpos hop hbuilt (hread hlo' hs) (hread hhi' ht)
      hfamily hc, hup, hdown⟩
  let _ := ord.order family a.collation
  refine ⟨fun hlower => ?_, fun hupper => ?_⟩
  · obtain ⟨lo', hi', hwithin, hup, -⟩ := hthree lo hi hlo hhi hacclo hacchi (Or.inl ⟨hlov, hvhi⟩)
    obtain rfl := hup hlov hvhi
    exact hwithin.lower hlower
  · obtain ⟨lo', hi', hwithin, -, hdown⟩ := hthree hi lo hhi hlo hacchi hacclo (Or.inr ⟨hlov, hvhi⟩)
    obtain rfl := hdown hlov hvhi
    exact hwithin.upper hupper

section Mini

/-- `oid`. -/
def oid : Oid := 26

/-- `int4` and `oid` share their values, but as an `oid` a negative one is
large. -/
def byType : Oid → Oid → Int → Int := fun typ _ n => if typ = oid ∧ n < 0 then n + 4294967296 else n

/-- Every type of the small server accepts every text. -/
theorem mini_relabels (typ : Oid) {parseType : Oid} (hparse : parseType ≠ invalidOid) :
    Relabels (Mini.pg byType) typ parseType fun _ => True where
  renders h g _ := ⟨_, Mini.datumToText _ (Mini.renders _ h).1 _⟩
  read _ h _ := by
    rw [(Mini.renders _ h).2]
    exact Mini.textToDatum _ hparse _
  reject _ _ hno := absurd trivial hno

/-- The `int4` column. -/
def int4Column : IndexAttr Int :=
  { attnum := 1, typ := Mini.int4, collation := invalidOid, expr := fun _ => none }

theorem int4Column_mem : int4Column ∈ summarized Mini.index.attrs := by
  simp [summarized, Mini.index, int4Column]

/-- `column::oid > constant` is what the theorem decides. -/
theorem prunesSoundly_iff_oid :
    PrunesSoundly (Mini.pg byType) (Mini.executor byType) int4Column (Mini.op oid 5) false ↔
      OrdersAgree (Mini.order byType) int4Column ⟨5, oid, oid⟩ fun _ => True := by
  have hname : (Mini.pg byType).typeNameParts int4Column.typ = some ("pg_catalog", "int4") := rfl
  have hacc : planAccumulator (Mini.pg byType) int4Column.typ = .minMax Mini.int4 none none := rfl
  exact prunesSoundly_iff (Mini.textRoundTrip _) (Mini.btreeLaws _) ⟨fun _ _ _ _ => ⟨_, rfl⟩⟩
    (by decide) hname hacc (by decide) (mini_relabels Mini.int4 (by decide))

/-- The table `{-1, 5}` and `column::oid > 100`: the planner compares 100 with
the bound 5 and prunes, although -1 is the `oid` 4294967295. -/
theorem not_prunesSoundly_oid :
    let pg := Mini.pg byType
    let node : Node Int := .opExpr (Mini.op oid 5) invalidOid
      [.relabelType (.var 1 Mini.int4) oid, .const oid (some 100)]
    buildLeafSummary pg Mini.session Mini.index.attrs [Mini.row (-1), Mini.row 5] =
        .ok ⟨[Mini.entry (-1) 5]⟩ ∧
      leafProvesPrune pg Mini.session.guc [Mini.entry (-1) 5] node = .ok true ∧
      (Mini.executor byType).truth pg (Mini.row (-1)) node = some true ∧
      ¬PrunesSoundly pg (Mini.executor byType) int4Column (Mini.op oid 5) false := by
  intro pg node
  have hbuilt : buildLeafSummary pg Mini.session Mini.index.attrs [Mini.row (-1), Mini.row 5] =
      .ok ⟨[Mini.entry (-1) 5]⟩ := by decide +kernel
  have hprune : leafProvesPrune pg Mini.session.guc [Mini.entry (-1) 5] node = .ok true := rfl
  have htrue : (Mini.executor byType).truth pg (Mini.row (-1)) node = some true := rfl
  refine ⟨hbuilt, hprune, htrue, fun hsound => ?_⟩
  have hvc : varConst (.relabelType (.var 1 Mini.int4) oid) (.const oid (some (100 : Int))) =
      some ⟨1, Mini.int4, oid, some 100, false⟩ := rfl
  exact hsound Mini.index.attrs _ _ _ node Mini.index_distinct int4Column_mem (.build hbuilt)
    Mini.session_stable (.compare hvc rfl rfl) hprune _ (by simp) htrue

end Mini

end TableRange
