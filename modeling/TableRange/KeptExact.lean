import TableRange.Prune.Clauses
import TableRange.QuietInsert

/-!
# Decisions about the rows of a table

`Prune/Clauses.lean` compares the decisions with what the entries allow.  Here the entries
are those of a summary that inserts have kept up, and the decisions are compared with the
rows themselves.

The bounds of a btree column are values of its rows, so the entry allows what lies between
two of them, and NULL if some row has it (`columnHull`).  A row whose values are all
allowed need not be one of the table, and a clause may be true on it and on no row of the
table: `=` holds between two values and of neither of them, and `AND` combines the values of
two rows.  Without these two (`OneSided`, `Formula.Disjunctive`) the relation is pruned
exactly when a sequential scan would find that some clause is true on no row.
-/

namespace TableRange

open Lib Lib.Interval

variable {D : Type} {pg : Pg D} {ord : pg.BtreeOrder} {ex : Executor D}

/-! ## The columns -/

variable (pg) in
/-- A btree column of the index with a value in some row, all of them with a text form, and
a type that reads the texts back. -/
structure StoredColumn (attrs : List (IndexAttr D)) (rows : List (Row D)) (attnum : Int16) where
  attr : IndexAttr D
  mem : attr ∈ summarized attrs
  attnum_eq : attr.attnum = attnum
  kind : (planAccumulator pg attr.typ).kind = .minMax
  parseType : Oid
  relabels : Relabels pg attr.typ parseType fun _ => True
  texts : ∀ row ∈ rows, ∀ v, row attnum = some v → pg.HasText attr.typ v
  seen : ∃ row ∈ rows, row attnum ≠ none

section StoredColumn

variable {attrs : List (IndexAttr D)} {rows : List (Row D)} {attnum : Int16}

/-- A column that is not summarized may have any value. -/
def hullValues (ord : pg.BtreeOrder) {attnum : Int16}
    (col : Option (StoredColumn pg attrs rows attnum)) : Set (Option D) :=
  col.elim Set.univ fun col => columnHull ord col.attr rows

/-- A leaf that reads the column as its bounds are read. -/
def StoredColumn.Decides (col : StoredColumn pg attrs rows attnum) (node : Node D) : Prop :=
  ExactLeaf pg attnum (pg.columnFamily col.attr.typ) col.parseType col.attr.collation node

/-- The entry has the bounds for it: they allow what lies between two values. -/
structure StoredColumn.Bounds {g : Guc} {cols : List ColSummary}
    (col : StoredColumn pg attrs rows attnum) (b : BoundedColumn ord g cols attnum) : Prop where
  leaf : ∀ node, col.Decides node → BoundedLeaf b node
  allows : b.allows = columnHull ord col.attr rows

theorem StoredColumn.exists_bounds (io : pg.TextRoundTrip) (texts : pg.TextLaws)
    {scanned inserted : List (Row D)} {s : IndexSummary} (hdistinct : DistinctColumns attrs)
    (h : KeptUp pg attrs scanned s inserted) {g : Guc} (hg : g.Stable)
    (col : StoredColumn pg attrs (inserted ++ scanned) attnum) :
    ∃ b : BoundedColumn ord g s.cols attnum, col.Bounds b := by
  obtain ⟨a, ha, rfl, hkind, parseType, relabels, htexts, hseen⟩ := col
  obtain ⟨c, hc⟩ := h.exists_entry ha
  have hfacts : EntryFacts ord pg.noExtents a (inserted ++ scanned) c :=
    h.entryFacts ord io texts (fun hrange => by cases hkind.symm.trans hrange) hdistinct ha
      htexts hc
  obtain ⟨lo, hi, hspans, hbounds⟩ := hfacts.hasBounds relabels hg hkind hseen
  have hnulls : c.allNulls = false := by
    rw [← Bool.not_eq_true, h.allNulls hdistinct ha hc]
    rintro ⟨-, hall⟩
    obtain ⟨row, hrow, hv⟩ := hseen
    exact hv (hall row hrow)
  let b : BoundedColumn ord g s.cols a.attnum :=
    { entry := c
      family := pg.columnFamily a.typ
      parseType := parseType
      lo := lo
      hi := hi
      pos := (mem_summarized.mp ha).2
      find := hc
      hasBounds := hfacts.collation.symm ▸ hbounds trivial trivial
      le := hfacts.collation.symm ▸ (hspans.between lo hspans.lower).2
      allNulls := hnulls }
  refine ⟨b, fun node hnode => ?_, ?_⟩
  · have hcollation : c.collation = a.collation := hfacts.collation
    unfold BoundedLeaf
    rw [hcollation]
    exact hnode
  · ext x
    cases x with
    | none => exact hfacts.hasNulls
    | some v =>
        show ((ord.order (pg.columnFamily a.typ) c.collation).le lo v ∧
          (ord.order (pg.columnFamily a.typ) c.collation).le v hi) ↔ _
        rw [hfacts.collation, hspans.some_mem_columnHull]

end StoredColumn

/-! ## Leaves that one of the rows decides -/

/-- The leaf tests no equality. -/
def OneSided (pg : Pg D) (family : Oid) : Node D → Prop
  | .opExpr opno _ _ => pg.getOpOpfamilyStrategy opno family ≠ 3
  | .scalarArrayOpExpr .. => False
  | _ => True

/-- The comparison that the clause makes of the column. -/
theorem compares_iff_holds (laws : ex.BtreeLaws ord) {opno family : Oid} {cmp : Comparison}
    (hcmp : comparisonOf (pg.getOpOpfamilyStrategy opno family) = some cmp) (collation : Oid)
    (commuted : Bool) (x k : D) :
    ex.Compares opno collation commuted x k ↔
      @Comparison.Holds D (ord.order family collation)
        (if commuted then cmp.flip else cmp) x k := by
  cases commuted with
  | false => exact laws.compare collation x k hcmp
  | true =>
      rw [if_pos rfl, @Comparison.holds_flip D (ord.order family collation)]
      exact laws.compare collation k x hcmp

/-- Only `=` has the third strategy. -/
theorem comparisonOf_ne_eq {strategy : Int} {cmp : Comparison} (h : strategy ≠ 3)
    (hcmp : comparisonOf strategy = some cmp) : cmp ≠ .eq := by
  rintro rfl
  unfold comparisonOf at hcmp
  split at hcmp <;> simp_all

theorem trueAt_compare {left right : Node D} {vc : VarConst D} {k : D}
    (hvc : varConst left right = some vc) (hk : vc.constvalue = some k) (opno collation : Oid)
    (v : D) : TrueAt pg ex (.opExpr opno collation [left, right]) (some v) ↔
      ex.Compares opno collation vc.commuted v k := by
  rw [TrueAt, truth_varConst pg ex hvc hk]
  exact Iff.rfl

/-- What is true between two values is true of one of them. -/
theorem ExactLeaf.trueAt_end (laws : ex.BtreeLaws ord) {attnum : Int16}
    {family parseType collation : Oid} {node : Node D}
    (h : ExactLeaf pg attnum family parseType collation node) (hone : OneSided pg family node)
    {lo v hi : D} (hlo : (ord.order family collation).le lo v)
    (hhi : (ord.order family collation).le v hi) (htrue : TrueAt pg ex node (some v)) :
    TrueAt pg ex node (some lo) ∨ TrueAt pg ex node (some hi) := by
  cases h with
  | @compare left right vc opno k hvc hk hattnum hop hparse =>
      have hno : ¬(pg.getOpOpfamilyStrategy opno family < 1 ∨
          5 < pg.getOpOpfamilyStrategy opno family) := by
        have := hop.strategy
        omega
      obtain ⟨cmp, hcmp⟩ := exists_comparisonOf hno
      simp only [trueAt_compare hvc hk, compares_iff_holds laws hcmp] at htrue ⊢
      have hne := comparisonOf_ne_eq hone hcmp
      let _ := ord.order family collation
      refine Comparison.holds_end ?_ hlo hhi htrue
      split
      · exact Comparison.flip_ne_eq hne
      · exact hne
  | anyOf => exact absurd hone id
  | @nullTest arg vartype nulltesttype harg =>
      have hvalue (x : Option D) : ex.value (fun _ => x) arg = x := by
        rw [← ex.value_stripRelabel, harg]
        rfl
      left
      cases nulltesttype with
      | isNull =>
          rw [TrueAt, Executor.truth, hvalue] at htrue
          cases htrue
      | isNotNull => rw [TrueAt, Executor.truth, hvalue]; rfl

section Leaf

variable {attrs : List (IndexAttr D)} {rows : List (Row D)} {attnum : Int16}

/-- A leaf that tests no equality is true on some allowed value only if it is true on a row. -/
theorem StoredColumn.never_iff (laws : ex.BtreeLaws ord) (col : StoredColumn pg attrs rows attnum)
    {node : Node D} (hdecides : col.Decides node)
    (hone : OneSided pg (pg.columnFamily col.attr.typ) node) :
    (∀ x ∈ columnHull ord col.attr rows, ¬TrueAt pg ex node x) ↔
      ∀ row ∈ rows, ¬TrueAt pg ex node (row attnum) := by
  constructor
  · intro h row hrow
    rw [← col.attnum_eq]
    exact h _ (mem_columnHull hrow)
  · intro h x hx htrue
    rw [← col.attnum_eq] at h
    cases x with
    | none =>
        obtain ⟨row, hrow, hv⟩ := hx
        exact h row hrow (hv ▸ htrue)
    | some v =>
        obtain ⟨lo, hi, ⟨row, hrow, hv⟩, ⟨row', hrow', hv'⟩, hlo, hhi⟩ := hx
        rcases hdecides.trueAt_end laws hone hlo hhi htrue with htrue | htrue
        · exact h row hrow (hv ▸ htrue)
        · exact h row' hrow' (hv' ▸ htrue)

end Leaf

/-! ## The decisions -/

section Decisions

variable {attrs : List (IndexAttr D)} {scanned inserted : List (Row D)} {s : IndexSummary}

/-- The entries have the bounds of the columns, and bounds of no other column. -/
def HullBounds {rows : List (Row D)} {g : Guc} {entries : List ColSummary}
    (cols : ∀ attnum, Option (StoredColumn pg attrs rows attnum))
    (bounds : ∀ attnum, Option (BoundedColumn ord g entries attnum)) : Prop :=
  ∀ attnum, (cols attnum = none → bounds attnum = none) ∧
    ∀ col, cols attnum = some col → ∃ b, bounds attnum = some b ∧ col.Bounds b

theorem KeptUp.exists_boundsOf (io : pg.TextRoundTrip) (texts : pg.TextLaws)
    (hdistinct : DistinctColumns attrs) (h : KeptUp pg attrs scanned s inserted) {g : Guc}
    (hg : g.Stable)
    (cols : ∀ attnum, Option (StoredColumn pg attrs (inserted ++ scanned) attnum)) :
    ∃ bounds : ∀ attnum, Option (BoundedColumn ord g s.cols attnum), HullBounds cols bounds := by
  have hone (attnum : Int16) : ∃ b : Option (BoundedColumn ord g s.cols attnum),
      (cols attnum = none → b = none) ∧
      ∀ col, cols attnum = some col → ∃ b', b = some b' ∧ col.Bounds b' := by
    cases hcol : cols attnum with
    | none => exact ⟨none, fun _ => rfl, by simp⟩
    | some col =>
        obtain ⟨b, hb⟩ := col.exists_bounds io texts hdistinct h hg
        exact ⟨some b, by simp, by simpa using hb⟩
  exact ⟨fun attnum => (hone attnum).choose, fun attnum => (hone attnum).choose_spec⟩

section HullBounds

variable {rows : List (Row D)} {g : Guc} {entries : List ColSummary}
  {cols : ∀ attnum, Option (StoredColumn pg attrs rows attnum)}
  {bounds : ∀ attnum, Option (BoundedColumn ord g entries attnum)}

theorem HullBounds.hullValues_eq (h : HullBounds cols bounds) (attnum : Int16) :
    hullValues ord (cols attnum) = allowedValues (bounds attnum) := by
  cases hcol : cols attnum with
  | none =>
      rw [(h attnum).1 hcol]
      rfl
  | some col =>
      obtain ⟨b, hb, hbounds⟩ := (h attnum).2 col hcol
      rw [hb]
      exact hbounds.allows.symm

theorem HullBounds.decidedOn (laws : ex.BtreeLaws ord) (returns : pg.CompareReturns)
    (h : HullBounds cols bounds) {attnum : Int16} {col : StoredColumn pg attrs rows attnum}
    (hcol : cols attnum = some col) {node : Node D} (hdecides : col.Decides node) :
    ∃ b, bounds attnum = some b ∧ b.allows = columnHull ord col.attr rows ∧
      DecidedOn ex b node := by
  obtain ⟨b, hb, hbounds⟩ := (h attnum).2 col hcol
  exact ⟨b, hb, hbounds.allows, (hbounds.leaf node hdecides).decided laws returns⟩

theorem HullBounds.leafDecided (laws : ex.BtreeLaws ord) (returns : pg.CompareReturns)
    (h : HullBounds cols bounds) {node : Node D}
    (hdecides : ∃ attnum col, cols attnum = some col ∧ col.Decides node) :
    LeafDecided ex bounds node := by
  obtain ⟨attnum, col, hcol, hdecides⟩ := hdecides
  obtain ⟨b, hb, -, hdecided⟩ := h.decidedOn laws returns hcol hdecides
  exact ⟨attnum, b, hb, hdecided⟩

/-- The rows decide a leaf that tests no equality. -/
theorem HullBounds.never_iff (laws : ex.BtreeLaws ord) (returns : pg.CompareReturns)
    (h : HullBounds cols bounds) {attnum : Int16} {col : StoredColumn pg attrs rows attnum}
    (hcol : cols attnum = some col) {node : Node D} (hdecides : col.Decides node)
    (hone : OneSided pg (pg.columnFamily col.attr.typ) node) :
    Never pg g entries node ↔
      ∀ row ∈ {row | row ∈ rows}, ¬TrueAt pg ex node (row (columnOf pg node)) := by
  obtain ⟨b, hb, hallows, hdecided⟩ := h.decidedOn laws returns hcol hdecides
  have hleaf : LeafDecided ex bounds node := ⟨attnum, b, hb, hdecided⟩
  rw [hleaf.never_iff, hdecided.column, hb]
  show (∀ x ∈ b.allows, ¬TrueAt pg ex node x) ↔ _
  rw [hallows]
  exact col.never_iff laws hdecides hone

end HullBounds

/-- On a table that inserts have kept up, clauses where the operands of every `AND` look at
different columns are pruned exactly when they are true on no row whose values all lie
between two stored values. -/
theorem keptUp_prunes_iff (io : pg.TextRoundTrip) (texts : pg.TextLaws)
    (laws : ex.BtreeLaws ord) (returns : pg.CompareReturns) (hdistinct : DistinctColumns attrs)
    (h : KeptUp pg attrs scanned s inserted) (session : Session) (hruns : session.runs = true)
    (cols : ∀ attnum, Option (StoredColumn pg attrs (inserted ++ scanned) attnum))
    (fs : List (Formula (Node D))) (hdepth : ∀ f ∈ fs, f.DepthLe 32)
    (hsplits : (Formula.and fs).Splits (columnOf pg))
    (hleaf : ∀ node, (Formula.and fs).Mem node →
      ∃ attnum col, cols attnum = some col ∧ col.Decides node) :
    prunes pg session s.cols (clausesOf fs) = true ↔
      ∀ row : Row D, (∀ attnum, row attnum ∈ hullValues ord (cols attnum)) →
        ∃ clause ∈ clausesOf fs, ex.truth pg row clause ≠ some true := by
  obtain ⟨bounds, hbounds⟩ : ∃ bounds : ∀ attnum, Option (BoundedColumn ord _ s.cols attnum),
      HullBounds cols bounds :=
    h.exists_boundsOf io texts hdistinct session.guc.pin_stable cols
  have hdecided : ∀ node, (Formula.and fs).Mem node → LeafDecided ex bounds node :=
    fun node hnode => hbounds.leafDecided laws returns (hleaf node hnode)
  rw [prunes_eq_true_iff hruns, evaluateRelationInner_iff hdepth hdecided,
    Formula.refuted_iff (exists_allowed bounds) hsplits fun node hnode =>
      (hdecided node hnode).never_iff]
  simp only [hbounds.hullValues_eq]
  exact forall₂_congr fun row _ => not_sat_iff hdepth hdecided row

/-- The values are 3 and 7, and `=` with 5 may hold as far as the entry tells. -/
example :
    prunes (Mini.pg byType) Mini.session [Mini.entry 3 7] [Mini.compareNode 3 5] = false := by
  decide +kernel

/-- Without equalities, and without `AND` inside a clause, such a table is pruned exactly when
one of the clauses is true on no row of it. -/
theorem keptUp_prunes_iff_rows (io : pg.TextRoundTrip) (texts : pg.TextLaws)
    (laws : ex.BtreeLaws ord) (returns : pg.CompareReturns) (hdistinct : DistinctColumns attrs)
    (h : KeptUp pg attrs scanned s inserted) (session : Session) (hruns : session.runs = true)
    (cols : ∀ attnum, Option (StoredColumn pg attrs (inserted ++ scanned) attnum))
    (fs : List (Formula (Node D))) (hdepth : ∀ f ∈ fs, f.DepthLe 32)
    (hdisj : ∀ f ∈ fs, f.Disjunctive)
    (hleaf : ∀ node, (Formula.and fs).Mem node → ∃ attnum col, cols attnum = some col ∧
      col.Decides node ∧ OneSided pg (pg.columnFamily col.attr.typ) node) :
    prunes pg session s.cols (clausesOf fs) = true ↔
      ∃ clause ∈ clausesOf fs, ∀ row ∈ inserted ++ scanned, ex.truth pg row clause ≠ some true := by
  obtain ⟨bounds, hbounds⟩ : ∃ bounds : ∀ attnum, Option (BoundedColumn ord _ s.cols attnum),
      HullBounds cols bounds :=
    h.exists_boundsOf io texts hdistinct session.guc.pin_stable cols
  have hdecided : ∀ node, (Formula.and fs).Mem node → LeafDecided ex bounds node := by
    intro node hnode
    obtain ⟨attnum, col, hcol, hdecides, -⟩ := hleaf node hnode
    exact hbounds.leafDecided laws returns ⟨attnum, col, hcol, hdecides⟩
  have hclause (f : Formula (Node D)) (hf : f ∈ fs) :
      f.Refuted (Never pg session.guc.pin s.cols) ↔
        ∀ row ∈ inserted ++ scanned, ex.truth pg row (clauseOf f) ≠ some true := by
    have hrefuted : f.Refuted (Never pg session.guc.pin s.cols) ↔
        ∀ row ∈ {row | row ∈ inserted ++ scanned}, ¬f.Sat (columnOf pg) (TrueAt pg ex) row := by
      refine (hdisj f hf).refuted_iff fun node hnode => ?_
      obtain ⟨attnum, col, hcol, hdecides, hone⟩ := hleaf node (.and hf hnode)
      exact hbounds.never_iff laws returns hcol hdecides hone
    rw [hrefuted]
    exact forall₂_congr fun row _ => not_congr
      (sat_iff_truth (hdepth f hf) (fun node hnode => hdecided node (.and hf hnode)) row)
  rw [prunes_eq_true_iff hruns, evaluateRelationInner_iff hdepth hdecided, Formula.refuted_and]
  constructor
  · rintro ⟨f, hf, hrefuted⟩
    exact ⟨clauseOf f, mem_clausesOf.mpr ⟨f, hf, rfl⟩, (hclause f hf).mp hrefuted⟩
  · rintro ⟨clause, hmem, hnone⟩
    obtain ⟨f, hf, rfl⟩ := mem_clausesOf.mp hmem
    exact ⟨f, hf, (hclause f hf).mpr hnone⟩

end Decisions

/-! ## A table of two rows -/

def Mini.storedColumn :
    StoredColumn (Mini.pg byType) Mini.index.attrs ([Mini.row 7] ++ [Mini.row 3]) 1 where
  attr := int4Column
  mem := int4Column_mem
  attnum_eq := rfl
  kind := rfl
  parseType := Mini.int4
  relabels := mini_relabels Mini.int4 (by decide)
  texts := fun _ _ v _ => ⟨_, Mini.session.guc, Mini.session_stable,
    Mini.datumToText byType (by decide) v⟩
  seen := ⟨Mini.row 7, by simp, by simp [Mini.row]⟩

def Mini.storedColumns (attnum : Int16) : Option
    (StoredColumn (Mini.pg byType) Mini.index.attrs ([Mini.row 7] ++ [Mini.row 3]) attnum) :=
  if h : 1 = attnum then some (h ▸ Mini.storedColumn) else none

theorem Mini.storedColumns_decides {strategy : UInt32} (h : strategy = 1 ∨ strategy = 5) (n : Int) :
    Mini.storedColumns 1 = some Mini.storedColumn ∧
      Mini.storedColumn.Decides (Mini.compareNode strategy n) ∧
      OneSided (Mini.pg byType) Mini.int4 (Mini.compareNode strategy n) := by
  have hvc : varConst (.var 1 Mini.int4) (.const Mini.int4 (some n)) =
    some ⟨1, Mini.int4, Mini.int4, some n, false⟩ := rfl
  have hop : BtreeOperator (Mini.pg byType) (Mini.op Mini.int4 strategy) false Mini.int4 ∧
      summaryParseType (Mini.pg byType)
        (columnSide (Mini.pg byType) (Mini.op Mini.int4 strategy) false).1 Mini.int4 = Mini.int4 ∧
      (Mini.pg byType).getOpOpfamilyStrategy (Mini.op Mini.int4 strategy) Mini.int4 ≠ 3 := by
    rcases h with rfl | rfl
    · exact ⟨⟨by decide, by decide, by decide⟩, by decide, by decide⟩
    · exact ⟨⟨by decide, by decide, by decide⟩, by decide, by decide⟩
  exact ⟨rfl, .compare hvc rfl rfl hop.1 hop.2.1, hop.2.2⟩

/-- `first < 3 OR first > 9`. -/
theorem keptUp_prunes_iff_rows_int4 :
    prunes (Mini.pg byType) Mini.session [Mini.entry 3 7]
        (clausesOf [.or [.leaf (Mini.compareNode 1 3), .leaf (Mini.compareNode 5 9)]]) = true ↔
      ∃ clause ∈ clausesOf [.or [.leaf (Mini.compareNode 1 3), .leaf (Mini.compareNode 5 9)]],
        ∀ row ∈ [Mini.row 7] ++ [Mini.row 3],
          (Mini.executor byType).truth (Mini.pg byType) row clause ≠ some true := by
  refine keptUp_prunes_iff_rows (Mini.textRoundTrip _) (mini_textLaws _)
    (Mini.btreeLaws _) ⟨fun _ _ _ _ => ⟨_, rfl⟩⟩ Mini.index_distinct Mini.keptUp_two Mini.session
    rfl Mini.storedColumns _ ?_ ?_ ?_
  · intro f hf
    obtain rfl := List.mem_singleton.mp hf
    refine .or (n := 31) fun f hf => ?_
    rcases List.mem_pair.mp hf with rfl | rfl <;> exact .leaf _ _
  · intro f hf
    obtain rfl := List.mem_singleton.mp hf
    refine .or (by simp) fun f hf => ?_
    rcases List.mem_pair.mp hf with rfl | rfl <;> exact .leaf _
  · simp only [Formula.mem_and, Formula.mem_or, Formula.mem_leaf, List.mem_cons, List.not_mem_nil,
      or_false, exists_eq_left, exists_eq_or_imp]
    rintro node (rfl | rfl)
    · exact ⟨1, _, Mini.storedColumns_decides (.inl rfl) 3⟩
    · exact ⟨1, _, Mini.storedColumns_decides (.inr rfl) 9⟩

/-- `first > 9`. -/
theorem keptUp_prunes_iff_int4 :
    prunes (Mini.pg byType) Mini.session [Mini.entry 3 7]
        (clausesOf [.leaf (Mini.compareNode 5 9)]) = true ↔
      ∀ row : Row Int, (∀ attnum, row attnum ∈
          hullValues (Mini.order byType) (Mini.storedColumns attnum)) →
        ∃ clause ∈ clausesOf [.leaf (Mini.compareNode 5 9)],
          (Mini.executor byType).truth (Mini.pg byType) row clause ≠ some true := by
  refine keptUp_prunes_iff (Mini.textRoundTrip _) (mini_textLaws _)
    (Mini.btreeLaws _) ⟨fun _ _ _ _ => ⟨_, rfl⟩⟩ Mini.index_distinct Mini.keptUp_two Mini.session
    rfl Mini.storedColumns _ ?_ ?_ ?_
  · intro f hf
    obtain rfl := List.mem_singleton.mp hf
    exact .leaf _ _
  · refine .and (fun f hf => ?_) (List.pairwise_singleton _ _)
    obtain rfl := List.mem_singleton.mp hf
    exact .leaf _
  · simp only [Formula.mem_and, Formula.mem_leaf, List.mem_singleton, exists_eq_left]
    rintro node rfl
    obtain ⟨hcol, hdecides, -⟩ := Mini.storedColumns_decides (.inr rfl) 9
    exact ⟨1, _, hcol, hdecides⟩

end TableRange
