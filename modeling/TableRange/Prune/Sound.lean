import TableRange.Sql

/-!
# A prune loses no row

One lemma for each way a leaf can decide, then the induction over the clause.
Each leaf lemma says: if the entry covers the value that a row has in the
column and the test on the entry succeeds, the leaf is not true on the row.

A test on bounds needs of a covered value only that the bounds, as the operator's
side reads them, enclose it in the operator's order (`Encloses`).  `ReadsAs` is
what a stripped `RelabelType` may change without harm to that: the operator's
side reads the stored text as the same value, and orders values as the column
does.
-/

namespace TableRange

open Lib.Interval Lib.Kleene Lib.Fallible

variable {D : Type} {pg : Pg D} {ord : pg.BtreeOrder} {eord : pg.ExtentOrder} {ex : Executor D}

/-! ## What the operator's side reads -/

variable (ord) in
/-- An operator whose column side has type `opVarType` reads the bounds of the
index column `a` as the values they were rendered from, and its family agrees
with the order they were built under. -/
structure ReadsAs (a : IndexAttr D) (vartype opVarType : Oid) : Prop where
  text : ∀ {g : Guc} {t : String} {v d : D}, g.Stable → pg.Renders a.typ t v →
    pg.textToDatum g (summaryParseType pg opVarType vartype) t = .ok (some d) → d = v
  order : ∀ {family : Oid} (collation : Oid) {x y : D},
    pg.defaultBtreeFamily opVarType = some family →
    (columnOrder ord a.typ collation).le x y → (ord.order family collation).le x y

/-- What `compare_op` has looked up. -/
theorem compareOp_spec {opno : Oid} {commuted : Bool} {op : CompareOp}
    (h : compareOp pg opno commuted = some op) :
    ∃ family c, pg.defaultBtreeFamily op.varType = some family ∧
      comparisonOf (pg.getOpOpfamilyStrategy opno family) = some c ∧
      comparisonOf op.strategy = some (if commuted then c.flip else c) ∧
      op.cmpproc ≠ invalidOid ∧
      ∃ constType, op.cmpproc = pg.getOpfamilyProc family op.varType constType := by
  simp only [compareOp] at h
  generalize (if commuted = true then _ else _ : Oid × Oid) = types at h
  obtain ⟨family, hfamily, h⟩ := Option.bind_eq_some_iff.mp h
  split at h
  · cases h
  · rename_i hstrategy
    obtain ⟨c, hc⟩ := exists_comparisonOf hstrategy
    split at h
    · cases h
    · rename_i hproc
      cases h
      refine ⟨family, c, hfamily, hc, ?_, hproc, _, rfl⟩
      cases commuted with
      | false => exact hc
      | true => exact comparisonOf_commuteStrategy hc

/-! ## Bounds -/

/-- The bounds the planner parses are those of the entry. -/
theorem parsedBounds_spec {g : Guc} {c : ColSummary} {parseType : Oid} {lo hi : D}
    (h : parsedBounds pg g c parseType = .ok (some (lo, hi))) :
    c.unbounded = false ∧ ∃ s t, c.min = some s ∧ c.max = some t ∧
      pg.textToDatum g parseType s = .ok (some lo) ∧
      pg.textToDatum g parseType t = .ok (some hi) := by
  unfold parsedBounds at h
  split at h
  · rename_i s t hs ht
    split at h
    · cases h
    · rename_i hunb
      obtain ⟨lo', hlo, h⟩ := bind_eq_ok.mp h
      cases lo' with
      | none => cases h
      | some lo' =>
      obtain ⟨hi', hhi, h⟩ := bind_eq_ok.mp h
      cases hi' with
      | none => cases h
      | some hi' =>
      cases h
      exact ⟨eq_false_of_ne_true hunb, s, t, hs, ht, hlo, hhi⟩
  · cases h

variable (ord) in
/-- Whatever bounds the operator's side reads in the entry, the value is inside
those that the operator tests. -/
def Encloses (g : Guc) (c : ColSummary) (op : CompareOp) (vartype : Oid) (v : D) : Prop :=
  ∀ lo hi family cmp,
    parsedBounds pg g c (summaryParseType pg op.varType vartype) = .ok (some (lo, hi)) →
    pg.defaultBtreeFamily op.varType = some family → comparisonOf op.strategy = some cmp →
    @Comparison.Within D (ord.order family c.collation) cmp lo hi v

/-- A covered value is enclosed, if the operator's side reads as the column
does. -/
theorem ReadsAs.encloses {g : Guc} (hg : g.Stable) {a : IndexAttr D} {c : ColSummary}
    {vartype : Oid} {op : CompareOp} {v : D} (hreads : ReadsAs ord a vartype op.varType)
    (hov : c.overlap = false) (hcovers : Covers ord eord a c (some v)) :
    Encloses ord g c op vartype v := by
  intro lo hi family cmp h hfamily _
  obtain ⟨hunb, s, t, hs, ht, hlo, hhi⟩ := parsedBounds_spec h
  rcases hcovers.2 with hno | hin
  · rw [hunb] at hno
    cases hno
  · obtain ⟨s', t', lo', hi', hs', ht', hlo', hhi', hlov, hvhi⟩ := hin.inRange hov
    obtain rfl : s' = s := Option.some.inj (hs'.symm.trans hs)
    obtain rfl : t' = t := Option.some.inj (ht'.symm.trans ht)
    rw [hreads.text hg hlo' hlo, hreads.text hg hhi' hhi]
    exact @Comparison.Within.of_mem D (ord.order family c.collation) _ _ _ _
      ⟨hreads.order _ hfamily hlov, hreads.order _ hfamily hvhi⟩

variable (ord) in
/-- The boundary tests are the tests of `Comparison.Excludes`. -/
theorem boundaryTest_excludes {family left right collation : Oid} {strategy : Int}
    {c : Comparison} {lo hi k : D} (hc : comparisonOf strategy = some c)
    (hproc : pg.getOpfamilyProc family left right ≠ invalidOid)
    (h : boundaryTest (fun bound =>
      pg.compareCall (pg.getOpfamilyProc family left right) collation bound k) strategy lo hi =
        .ok true) :
    @Comparison.Excludes D (ord.order family collation) c lo hi k := by
  let _ := ord.order family collation
  have _ := ord.total family collation
  have hcmp : ∀ {bound : D} {n : Int},
      pg.compareCall (pg.getOpfamilyProc family left right) collation bound k = .ok n →
      (n < 0 ↔ bound < k) ∧ (0 < n ↔ k < bound) := fun h => ord.compare_spec hproc h
  unfold comparisonOf at hc
  split at hc <;> cases hc
  · -- `<`: 0 ≤ cmp(min)
    obtain ⟨n, hn, h⟩ := bind_eq_ok.mp h
    have hpos := of_decide_eq_true (Except.ok.inj h)
    exact le_of_not_lt fun hlt => absurd ((hcmp hn).1.mpr hlt) (by omega)
  · obtain ⟨n, hn, h⟩ := bind_eq_ok.mp h
    exact (hcmp hn).2.mp (of_decide_eq_true (Except.ok.inj h))
  · obtain ⟨n, hn, h⟩ := bind_eq_ok.mp h
    split at h
    · rename_i hpos
      exact Or.inl ((hcmp hn).2.mp hpos)
    · obtain ⟨m, hm, h⟩ := bind_eq_ok.mp h
      exact Or.inr ((hcmp hm).1.mp (of_decide_eq_true (Except.ok.inj h)))
  · obtain ⟨n, hn, h⟩ := bind_eq_ok.mp h
    exact (hcmp hn).1.mp (of_decide_eq_true (Except.ok.inj h))
  · obtain ⟨n, hn, h⟩ := bind_eq_ok.mp h
    have hneg := of_decide_eq_true (Except.ok.inj h)
    exact le_of_not_lt fun hlt => absurd ((hcmp hn).2.mpr hlt) (by omega)

/-- `eval_compare` excludes every enclosed value. -/
theorem evalCompare_sound {g : Guc} {c : ColSummary} {opno : Oid} {commuted : Bool}
    {op : CompareOp} {vartype collation : Oid} {v k : D}
    (hop : compareOp pg opno commuted = some op) (hcoll : c.collation = collation)
    (hencloses : Encloses ord g c op vartype v)
    (h : evalCompare pg g c op.strategy (summaryParseType pg op.varType vartype) op.cmpproc
      collation k = .ok true) :
    ∃ family cmp, comparisonOf (pg.getOpOpfamilyStrategy opno family) = some cmp ∧
      ¬ @Comparison.Holds D (ord.order family collation) (if commuted then cmp.flip else cmp)
        v k := by
  obtain ⟨family, cmp, hfamily, hcmp, hstrategy, hproc, constType, hcmpproc⟩ := compareOp_spec hop
  obtain ⟨bounds, hbounds, h⟩ := bind_eq_ok.mp h
  cases bounds with
  | none => cases h
  | some bounds =>
  obtain ⟨lo, hi⟩ := bounds
  have hin := hencloses lo hi family _ hbounds hfamily hstrategy
  rw [hcmpproc] at hproc h
  have hexcl := boundaryTest_excludes ord hstrategy hproc h
  rw [hcoll] at hin
  exact ⟨family, cmp, hcmp,
    @Comparison.excludes_sound D (ord.order family collation) _ lo hi k v hexcl hin⟩

/-- `eval_in_list` excludes every listed value. -/
theorem evalInList_sound {g : Guc} {c : ColSummary} {opno : Oid} {op : CompareOp}
    {vartype collation : Oid} {v : D} {elems : List D} (hop : compareOp pg opno false = some op)
    (heq : op.strategy = 3) (hcoll : c.collation = collation)
    (hencloses : Encloses ord g c op vartype v)
    (h : evalInList pg g c (summaryParseType pg op.varType vartype) op.cmpproc collation elems =
      .ok true) :
    ∃ family, comparisonOf (pg.getOpOpfamilyStrategy opno family) = some .eq ∧
      ∀ k ∈ elems, ¬ @Comparison.Holds D (ord.order family collation) .eq v k := by
  obtain ⟨family, cmp, hfamily, hcmp, hstrategy, hproc, constType, hcmpproc⟩ := compareOp_spec hop
  obtain rfl : cmp = .eq := by
    rw [heq] at hstrategy
    exact (Option.some.inj hstrategy).symm
  obtain ⟨bounds, hbounds, h⟩ := bind_eq_ok.mp h
  cases bounds with
  | none => cases h
  | some bounds =>
  obtain ⟨lo, hi⟩ := bounds
  have hin := hencloses lo hi family _ hbounds hfamily hstrategy
  rw [hcoll] at hin
  obtain ⟨hit, hhit, h⟩ := bind_eq_ok.mp h
  obtain rfl : hit = false := by simpa using Except.ok.inj h
  refine ⟨family, hcmp, fun k hk => ?_⟩
  let _ := ord.order family collation
  have _ := ord.total family collation
  have hcmp' : ∀ {bound : D} {n : Int}, pg.compareCall op.cmpproc collation bound k = .ok n →
      (n < 0 ↔ bound < k) ∧ (0 < n ↔ k < bound) := fun h =>
    ord.compare_spec (hcmpproc ▸ hproc) (hcmpproc ▸ h)
  obtain ⟨n, hn, helem⟩ := bind_eq_ok.mp (anyM_eq_false hhit k hk)
  refine Comparison.excludes_sound (c := .eq) ?_ hin
  split at helem
  · rename_i hpos
    exact Or.inl ((hcmp' hn).2.mp hpos)
  · obtain ⟨m, hm, helem⟩ := bind_eq_ok.mp helem
    have hneg := of_decide_eq_false (Except.ok.inj helem)
    exact Or.inr ((hcmp' hm).1.mp (by omega))

/-- `eval_overlap` excludes every value in the extent. -/
theorem evalOverlap_sound (io : pg.TextRoundTrip) (laws : ex.OverlapLaws eord) {g : Guc}
    (hg : g.Stable) {a : IndexAttr D} {c : ColSummary} {opno vartype collation : Oid} {v k : D}
    {commuted : Bool} (htrusted : isTrustedOverlapOp pg opno vartype = true)
    (htype : pg.getBaseType vartype = pg.getBaseType a.typ)
    (hin : c.unbounded = false → InExtent eord a c v)
    (h : evalOverlap pg g c (pg.getBaseType vartype) (pg.getOpcode opno) collation k commuted =
      .ok true) :
    (if commuted then ex.opResult opno collation (some k) (some v)
      else ex.opResult opno collation (some v) (some k)) ≠ some true := by
  unfold evalOverlap at h
  split at h
  · cases h
  rename_i t ht
  split at h
  · cases h
  rename_i hunb
  obtain ⟨e, he, h⟩ := bind_eq_ok.mp h
  cases e with
  | none => cases h
  | some e =>
  -- the value lies within the extent that was read
  have hle : eord.within.le v e := by
    rcases hin (eq_false_of_ne_true hunb) with hempty | ⟨t', e', ht', he', hle⟩
    · exact eord.within_of_emptyGeometry e hempty
    · obtain rfl : t' = t := Option.some.inj (ht'.symm.trans ht)
      rw [htype] at he
      obtain rfl : e' = e := Option.some.inj (Except.ok.inj ((io.read hg he').symm.trans he))
      exact hle
  obtain ⟨overlaps, hoverlaps, h⟩ := bind_eq_ok.mp h
  obtain rfl : overlaps = false := by simpa using Except.ok.inj h
  cases commuted with
  | false =>
      intro htrue
      exact absurd ((laws.mono_left htrusted hle htrue).symm.trans (laws.call htrusted hoverlaps))
        (by simp)
  | true =>
      intro htrue
      exact absurd ((laws.mono_right htrusted hle htrue).symm.trans (laws.call htrusted hoverlaps))
        (by simp)

/-! ## Leaves -/

/-- The entry that decides about an attribute covers the row's value of it. -/
theorem entry_of_find {attrs : List (IndexAttr D)} {s : IndexSummary} {row : Row D}
    {attnum : Int16} {c : ColSummary} (hcovers : SummaryCovers ord eord attrs s (rowValues {row}))
    (hfind : (s.cols.find? fun r => r.attnum == attnum) = some c) :
    ∃ a ∈ summarized attrs, a.attnum = attnum ∧ EntryOf pg a c ∧
      Covers ord eord a c (row attnum) := by
  obtain ⟨a, ha, hentry, hvals⟩ := Lib.Aligned.forall₂_mem_right hcovers c
    (List.mem_of_find?_eq_some hfind)
  have hattnum : a.attnum = attnum :=
    hentry.attnum.symm.trans (by simpa using List.find?_some hfind)
  refine ⟨a, ha, hattnum, hentry, ?_⟩
  rw [← hattnum, ← IndexAttr.value_of_pos (mem_summarized.mp ha).2 row]
  exact hvals _ ⟨row, rfl, rfl⟩

/-- The two operands of a comparison with a constant. -/
theorem varConst_spec (ex : Executor D) {left right : Node D} {vc : VarConst D}
    (h : varConst left right = some vc) (row : Row D) :
    (vc.commuted = false ∧ ex.value row left = row vc.varattno ∧
      ex.value row right = vc.constvalue) ∨
    (vc.commuted = true ∧ ex.value row left = vc.constvalue ∧
      ex.value row right = row vc.varattno) := by
  unfold varConst at h
  rw [← ex.value_stripRelabel row left, ← ex.value_stripRelabel row right]
  split at h
  · rename_i hl hr
    cases h
    rw [hl, hr]
    exact Or.inl ⟨rfl, rfl, rfl⟩
  · rename_i hl hr
    cases h
    rw [hl, hr]
    exact Or.inr ⟨rfl, rfl, rfl⟩
  · cases h

variable (ord) in
/-- What a leaf that is decided on bounds or an extent has to read right. -/
def LeafReads (attrs : List (IndexAttr D)) : Node D → Prop
  | .opExpr opno _ [left, right] =>
      ∀ vc, varConst left right = some vc → ∀ a ∈ summarized attrs, a.attnum = vc.varattno →
        match compareOp pg opno vc.commuted with
        | some op => ReadsAs ord a vc.vartype op.varType
        | none => isTrustedOverlapOp pg opno vc.vartype = true →
            pg.getBaseType vc.vartype = pg.getBaseType a.typ
  | .scalarArrayOpExpr opno _ _ [left, _] =>
      ∀ varattno vartype, stripRelabel left = .var varattno vartype →
        ∀ a ∈ summarized attrs, a.attnum = varattno →
        ∀ op, compareOp pg opno false = some op → ReadsAs ord a vartype op.varType
  | _ => True

section Leaf

variable {attrs : List (IndexAttr D)} {s : IndexSummary} {row : Row D} {g : Guc}

/-- `Var op Const` with a btree operator. -/
theorem compare_sound (laws : ex.BtreeLaws ord) {c : ColSummary} {opno inputcollid : Oid}
    {left right : Node D} {vc : VarConst D} {op : CompareOp} {k : D}
    (hvc : varConst left right = some vc) (hk : vc.constvalue = some k)
    (hop : compareOp pg opno vc.commuted = some op)
    (hencloses : c.overlap = false → ∀ v, row vc.varattno = some v →
      Encloses ord g c op vc.vartype v)
    (h : (QualSpec.compare vc.varattno op.strategy (summaryParseType pg op.varType vc.vartype)
      op.cmpproc inputcollid k).provesPrune pg g c = .ok true) :
    ex.truth pg row (.opExpr opno inputcollid [left, right]) ≠ some true := by
  obtain ⟨family, cmp, -, hcmp, -⟩ := compareOp_spec hop
  simp only [QualSpec.provesPrune] at h
  split at h
  swap
  · cases h
  rename_i husable
  simp only [Bool.and_eq_true, Bool.not_eq_true', beq_iff_eq] at husable
  rw [Executor.truth]
  cases hv : row vc.varattno with
  | none =>
      rcases varConst_spec ex hvc row with ⟨-, hl, hr⟩ | ⟨-, hl, hr⟩
      · rw [hl, hv]
        exact laws.strict_left _ _ hcmp
      · rw [hr, hv]
        exact laws.strict_right _ _ hcmp
  | some v =>
      obtain ⟨family', cmp', hcmp', hnot⟩ :=
        evalCompare_sound hop husable.2 (hencloses husable.1 v hv) h
      rcases varConst_spec ex hvc row with ⟨hcom, hl, hr⟩ | ⟨hcom, hl, hr⟩
      · rw [hl, hr, hv, hk, Ne, laws.compare _ _ _ hcmp']
        rwa [hcom] at hnot
      · rw [hl, hr, hv, hk, Ne, laws.compare _ _ _ hcmp',
          ← @Comparison.holds_flip D (ord.order family' inputcollid)]
        rwa [hcom] at hnot

/-- `Var && Const` with a trusted operator. -/
theorem overlap_sound (io : pg.TextRoundTrip) (laws : ex.OverlapLaws eord) (hg : g.Stable)
    {a : IndexAttr D} {c : ColSummary} {opno inputcollid : Oid} {left right : Node D}
    {vc : VarConst D} {k : D} (hvc : varConst left right = some vc) (hk : vc.constvalue = some k)
    (htrusted : isTrustedOverlapOp pg opno vc.vartype = true)
    (htype : pg.getBaseType vc.vartype = pg.getBaseType a.typ)
    (hin : ∀ v, row vc.varattno = some v → c.overlap = true → c.unbounded = false →
      InExtent eord a c v)
    (h : (QualSpec.overlap vc.varattno (pg.getBaseType vc.vartype) (pg.getOpcode opno)
      inputcollid k vc.commuted).provesPrune pg g c = .ok true) :
    ex.truth pg row (.opExpr opno inputcollid [left, right]) ≠ some true := by
  simp only [QualSpec.provesPrune] at h
  split at h
  swap
  · cases h
  rename_i hov
  rw [Executor.truth]
  cases hv : row vc.varattno with
  | none =>
      rcases varConst_spec ex hvc row with ⟨-, hl, hr⟩ | ⟨-, hl, hr⟩
      · rw [hl, hv]
        exact laws.strict_left _ _ htrusted
      · rw [hr, hv]
        exact laws.strict_right _ _ htrusted
  | some v =>
      have hnot := evalOverlap_sound io laws hg htrusted htype (hin v hv hov) h
      rcases varConst_spec ex hvc row with ⟨hcom, hl, hr⟩ | ⟨hcom, hl, hr⟩
      · rw [hl, hr, hv, hk]
        rwa [hcom] at hnot
      · rw [hl, hr, hv, hk]
        rwa [hcom] at hnot

/-- `Var = ANY (array)`. -/
theorem inList_sound (laws : ex.BtreeLaws ord) {c : ColSummary}
    {opno inputcollid consttype vartype : Oid} {varattno : Int16}
    {left right : Node D} {op : CompareOp} {array : D} {elems : List D}
    (hleft : stripRelabel left = .var varattno vartype)
    (hright : stripRelabel right = .const consttype (some array))
    (hop : compareOp pg opno false = some op) (heq : op.strategy = 3)
    (helems : arrayConstDatums pg consttype array = some elems)
    (hencloses : c.overlap = false → ∀ v, row varattno = some v → Encloses ord g c op vartype v)
    (h : (QualSpec.inList varattno (summaryParseType pg op.varType vartype) op.cmpproc
      inputcollid elems).provesPrune pg g c = .ok true) :
    ex.truth pg row (.scalarArrayOpExpr opno true inputcollid [left, right]) ≠ some true := by
  simp only [QualSpec.provesPrune] at h
  split at h
  swap
  · cases h
  rename_i husable
  simp only [Bool.and_eq_true, Bool.not_eq_true', beq_iff_eq] at husable
  have hl : ex.value row left = row varattno := by
    rw [← ex.value_stripRelabel, hleft]
    rfl
  have hr : ex.value row right = some array := by
    rw [← ex.value_stripRelabel, hright]
    rfl
  simp only [Executor.truth, hr, hl, if_true]
  intro htrue
  obtain ⟨elem, helem, hres⟩ := List.mem_map.mp (disj_eq_true.mp htrue)
  obtain ⟨family, cmp, -, hcmp, -⟩ := compareOp_spec hop
  cases hv : row varattno with
  | none =>
      rw [hv] at hres
      exact laws.strict_left _ _ hcmp hres
  | some v =>
      rw [hv] at hres
      cases elem with
      | none => exact laws.strict_right _ _ hcmp hres
      | some k =>
          have hk : k ∈ elems := by
            unfold arrayConstDatums at helems
            split at helems
            · cases helems
            · cases helems
              exact List.mem_filterMap.mpr ⟨some k, helem, rfl⟩
          obtain ⟨family', hcmp', hnot⟩ :=
            evalInList_sound hop heq husable.2 (hencloses husable.1 v hv) h
          exact hnot k hk ((laws.compare _ _ _ hcmp').mp hres)

/-- `Var IS NOT NULL`, on any type. -/
theorem isNotNull_sound {a : IndexAttr D} {c : ColSummary} {arg : Node D} {argisrow : Bool}
    {varattno : Int16} {vartype : Oid} (harg : stripRelabel arg = .var varattno vartype)
    (hcovers : Covers ord eord a c (row varattno)) (h : c.allNulls = true) :
    ex.truth pg row (.nullTest arg .isNotNull argisrow) ≠ some true := by
  have hvalue : ex.value row arg = row varattno := by
    rw [← ex.value_stripRelabel, harg]
    rfl
  rw [Executor.truth, hvalue]
  cases hv : row varattno with
  | none => simp [Executor.isNotNull]
  | some v =>
      rw [hv] at hcovers
      exact absurd (hcovers.1.symm.trans h) (by simp)

/-- `Var IS NULL`, when only NULL itself satisfies it. -/
theorem isNull_sound {a : IndexAttr D} {c : ColSummary} {arg : Node D} {argisrow : Bool}
    {varattno : Int16} {vartype : Oid} (harg : stripRelabel arg = .var varattno vartype)
    (hplain : ∀ v, row varattno = some v → ex.isNull argisrow (some v) = false)
    (hcovers : Covers ord eord a c (row varattno)) (h : c.hasNulls = false) :
    ex.truth pg row (.nullTest arg .isNull argisrow) ≠ some true := by
  have hvalue : ex.value row arg = row varattno := by
    rw [← ex.value_stripRelabel, harg]
    rfl
  rw [Executor.truth, hvalue]
  cases hv : row varattno with
  | none =>
      rw [hv] at hcovers
      exact absurd (Eq.trans (Eq.symm hcovers) h) (by simp)
  | some v => simp [hplain v hv]

end Leaf

/-! ## Clauses -/

/-- Everything `extract_opexpr` can return. -/
theorem extractOpexpr_cases {opno inputcollid : Oid} {args : List (Node D)} {spec : QualSpec D}
    (h : extractOpexpr pg opno inputcollid args = some spec) :
    ∃ left right vc k, args = [left, right] ∧ varConst left right = some vc ∧
      vc.constvalue = some k ∧
      ((∃ op, compareOp pg opno vc.commuted = some op ∧
        spec = .compare vc.varattno op.strategy (summaryParseType pg op.varType vc.vartype)
          op.cmpproc inputcollid k) ∨
      (compareOp pg opno vc.commuted = none ∧ isTrustedOverlapOp pg opno vc.vartype = true ∧
        spec = .overlap vc.varattno (pg.getBaseType vc.vartype) (pg.getOpcode opno) inputcollid k
          vc.commuted)) := by
  unfold extractOpexpr at h
  split at h
  swap
  · cases h
  rename_i left right
  obtain ⟨vc, hvc, h⟩ := Option.bind_eq_some_iff.mp h
  obtain ⟨k, hk, h⟩ := Option.bind_eq_some_iff.mp h
  refine ⟨left, right, vc, k, rfl, hvc, hk, ?_⟩
  split at h
  · cases h
  split at h
  · rename_i op hop
    cases h
    exact Or.inl ⟨op, hop, rfl⟩
  · rename_i hop
    split at h
    · rename_i htrusted
      cases h
      exact Or.inr ⟨hop, htrusted, rfl⟩
    · cases h

/-- Everything `extract_saop` can return. -/
theorem extractSaop_cases {opno inputcollid : Oid} {useOr : Bool} {args : List (Node D)}
    {spec : QualSpec D} (h : extractSaop pg opno useOr inputcollid args = some spec) :
    useOr = true ∧ ∃ left right varattno vartype consttype array op elems,
      args = [left, right] ∧ stripRelabel left = .var varattno vartype ∧
      stripRelabel right = .const consttype (some array) ∧
      compareOp pg opno false = some op ∧ op.strategy = 3 ∧
      arrayConstDatums pg consttype array = some elems ∧
      spec = .inList varattno (summaryParseType pg op.varType vartype) op.cmpproc inputcollid
        elems := by
  unfold extractSaop at h
  split at h
  · cases h
  rename_i huse
  refine ⟨by simpa using huse, ?_⟩
  split at h
  swap
  · cases h
  rename_i left right
  split at h
  swap
  · cases h
  rename_i varattno vartype consttype constvalue hleft hright
  obtain ⟨array, hconst, h⟩ := Option.bind_eq_some_iff.mp h
  rw [hconst] at hright
  split at h
  · cases h
  obtain ⟨op, hop, h⟩ := Option.bind_eq_some_iff.mp h
  split at h
  · cases h
  rename_i heq
  obtain ⟨elems, helems, h⟩ := Option.bind_eq_some_iff.mp h
  cases h
  exact ⟨left, right, varattno, vartype, consttype, array, op, elems, rfl, hleft, hright, hop,
    not_not.mp heq, helems, rfl⟩

/-- Everything `extract_nulltest` can return. -/
theorem extractNulltest_cases {arg : Node D} {nulltesttype : NullTestType} {spec : QualSpec D}
    (h : extractNulltest arg nulltesttype = some spec) :
    ∃ varattno vartype, stripRelabel arg = .var varattno vartype ∧
      spec = .null varattno (nulltesttype == .isNull) := by
  unfold extractNulltest at h
  split at h
  swap
  · cases h
  rename_i varattno vartype harg
  split at h
  · cases h
  cases h
  refine ⟨varattno, vartype, harg, ?_⟩
  cases nulltesttype <;> rfl

/-- The leaf is not decided by an extent. -/
def NoOverlap (pg : Pg D) (node : Node D) : Prop :=
  ∀ attnum parseType opfunc collation konst commuted,
    extractQual pg node ≠ some (.overlap attnum parseType opfunc collation konst commuted)

/-- Only a trusted `&&` is decided by an extent. -/
theorem noOverlap_of_untrusted (h : ∀ opno vartype, isTrustedOverlapOp pg opno vartype = false)
    (node : Node D) : NoOverlap pg node := by
  intro attnum parseType opfunc collation konst commuted hqual
  cases node with
  | opExpr opno inputcollid args =>
      obtain ⟨_, _, vc, _, -, -, -, ⟨_, -, hspec⟩ | ⟨-, htrusted, -⟩⟩ := extractOpexpr_cases hqual
      · cases hspec
      · exact absurd (htrusted.symm.trans (h opno vc.vartype)) (by simp)
  | scalarArrayOpExpr opno useOr inputcollid args =>
      obtain ⟨-, _, _, _, _, _, _, _, _, -, -, -, -, -, -, hspec⟩ := extractSaop_cases hqual
      cases hspec
  | nullTest arg nulltesttype argisrow =>
      obtain ⟨_, _, -, hspec⟩ := extractNulltest_cases hqual
      cases hspec
  | boolExpr | relabelType | var | const | other => cases hqual

/-- What makes a decision about the leaf sound on the row. -/
structure LeafScope (ord : pg.BtreeOrder) (eord : pg.ExtentOrder) (ex : Executor D)
    (attrs : List (IndexAttr D)) (row : Row D) (node : Node D) : Prop where
  reads : LeafReads ord attrs node
  overlap : NoOverlap pg node ∨ ex.OverlapLaws eord
  /-- An `IS NULL` test is about NULL alone. -/
  null : ∀ arg argisrow, node = .nullTest arg .isNull argisrow →
    ∀ varattno vartype v, stripRelabel arg = .var varattno vartype → row varattno = some v →
      ex.isNull argisrow (some v) = false

/-- A leaf that proves a prune is not true on a covered row. -/
theorem leaf_sound (io : pg.TextRoundTrip) (laws : ex.BtreeLaws ord) {attrs : List (IndexAttr D)}
    {s : IndexSummary} {row : Row D} {g : Guc} (hg : g.Stable) {node : Node D}
    (hscope : LeafScope ord eord ex attrs row node)
    (hcovers : SummaryCovers ord eord attrs s (rowValues {row}))
    (h : leafProvesPrune pg g s.cols node = .ok true) : ex.truth pg row node ≠ some true := by
  unfold leafProvesPrune at h
  split at h
  · cases h
  rename_i spec hspec
  split at h
  · cases h
  rename_i c hfind
  obtain ⟨a, ha, hattnum, -, hcover⟩ := entry_of_find hcovers hfind
  cases node with
  | opExpr opno inputcollid args =>
      obtain ⟨left, right, vc, k, rfl, hvc, hk, hcases⟩ := extractOpexpr_cases hspec
      rcases hcases with ⟨op, hop, rfl⟩ | ⟨hop, htrusted, rfl⟩
      · have hreads := hscope.reads vc hvc a ha hattnum
        rw [hop] at hreads
        exact compare_sound laws hvc hk hop
          (fun hov v hv => hreads.encloses hg hov (hv ▸ hcover)) h
      · have hreads := hscope.reads vc hvc a ha hattnum
        rw [hop] at hreads
        rcases hscope.overlap with hno | hlaws
        · exact absurd hspec (hno _ _ _ _ _ _)
        · refine overlap_sound io hlaws hg hvc hk htrusted (hreads htrusted)
            (fun v hv hov hunb => ?_) h
          have hcover : Covers ord eord a c (some v) := hv ▸ hcover
          exact (hcover.2.resolve_left (by simp [hunb])).inExtent hov
  | scalarArrayOpExpr opno useOr inputcollid args =>
      obtain ⟨rfl, left, right, varattno, vartype, consttype, array, op, elems, rfl, hleft, hright,
        hop, heq, helems, rfl⟩ := extractSaop_cases hspec
      have hreads := hscope.reads varattno vartype hleft a ha hattnum op hop
      exact inList_sound laws hleft hright hop heq helems
        (fun hov v hv => hreads.encloses hg hov (hv ▸ hcover)) h
  | nullTest arg nulltesttype argisrow =>
      obtain ⟨varattno, vartype, harg, rfl⟩ := extractNulltest_cases hspec
      cases nulltesttype with
      | isNull =>
          refine isNull_sound harg
            (fun v hv => hscope.null arg argisrow rfl varattno vartype v harg hv) hcover ?_
          simpa [QualSpec.provesPrune] using h
      | isNotNull =>
          exact isNotNull_sound harg hcover (by simpa [QualSpec.provesPrune] using h)
  | boolExpr | relabelType | var | const | other => cases hspec

/-- A node below the boolean structure of a clause. -/
inductive Leaf : Node D → Node D → Prop
  | self (node : Node D) : Leaf node node
  | arg {node arg : Node D} {boolop : BoolExprType} {args : List (Node D)} (harg : arg ∈ args)
      (h : Leaf node arg) : Leaf node (.boolExpr boolop args)

theorem leaf_boolExpr_iff {node : Node D} {boolop : BoolExprType} {args : List (Node D)} :
    Leaf node (.boolExpr boolop args) ↔ node = .boolExpr boolop args ∨ ∃ arg ∈ args,
      Leaf node arg := by
  constructor
  · intro h
    cases h with
    | self => exact Or.inl rfl
    | arg harg h => exact Or.inr ⟨_, harg, h⟩
  · rintro (rfl | ⟨arg, harg, h⟩)
    · exact .self _
    · exact .arg harg h

theorem leaf_iff {node leaf : Node D} (hleaf : ∀ boolop args, leaf ≠ .boolExpr boolop args) :
    Leaf node leaf ↔ node = leaf := by
  constructor
  · intro h
    cases h with
    | self => rfl
    | arg => exact absurd rfl (hleaf _ _)
  · rintro rfl
    exact .self _

theorem truth_mem_truths {row : Row D} {arg : Node D} {args : List (Node D)} (h : arg ∈ args) :
    ex.truth pg row arg ∈ ex.truths pg row args := by
  induction args with
  | nil => cases h
  | cons node nodes ih =>
      rw [Executor.truths]
      rcases List.mem_cons.mp h with rfl | h
      · exact List.mem_cons_self
      · exact List.mem_cons_of_mem _ (ih h)

theorem mem_truths {row : Row D} {t : Truth} {args : List (Node D)}
    (h : t ∈ ex.truths pg row args) : ∃ arg ∈ args, t = ex.truth pg row arg := by
  induction args with
  | nil => cases h
  | cons node nodes ih =>
      rw [Executor.truths] at h
      rcases List.mem_cons.mp h with rfl | h
      · exact ⟨node, List.mem_cons_self, rfl⟩
      · obtain ⟨arg, harg, ht⟩ := ih h
        exact ⟨arg, List.mem_cons_of_mem node harg, ht⟩

/-- A node that is not a boolean expression is decided as a leaf. -/
theorem clauseProvesPrune_leaf {g : Guc} {rows : List ColSummary} {node : Node D} {depth : Nat}
    (hnode : ∀ boolop args, node ≠ .boolExpr boolop args)
    (h : clauseProvesPrune pg g rows node depth = .ok true) :
    leafProvesPrune pg g rows node = .ok true := by
  unfold clauseProvesPrune at h
  split at h
  · exact absurd rfl (hnode _ _)
  · split at h
    · cases h
    · exact h

/-- Some operand of a pruning conjunction proves the prune. -/
theorem anyProvesPrune_spec {g : Guc} {rows : List ColSummary} {args : List (Node D)}
    {depth : Nat} (h : anyProvesPrune pg g rows args depth = .ok true) :
    ∃ arg ∈ args, clauseProvesPrune pg g rows arg depth = .ok true := by
  induction args with
  | nil => cases h
  | cons node nodes ih =>
      rw [anyProvesPrune] at h
      obtain ⟨b, hb, h⟩ := bind_eq_ok.mp h
      cases b with
      | true => exact ⟨node, List.mem_cons_self, hb⟩
      | false =>
          obtain ⟨arg, harg, hprune⟩ := ih h
          exact ⟨arg, List.mem_cons_of_mem node harg, hprune⟩

/-- Every operand of a pruning disjunction proves the prune. -/
theorem allProvesPrune_spec {g : Guc} {rows : List ColSummary} {args : List (Node D)}
    {depth : Nat} (h : allProvesPrune pg g rows args depth = .ok true) :
    ∀ arg ∈ args, clauseProvesPrune pg g rows arg depth = .ok true := by
  induction args with
  | nil => exact nofun
  | cons node nodes ih =>
      rw [allProvesPrune] at h
      obtain ⟨b, hb, h⟩ := bind_eq_ok.mp h
      cases b with
      | false => cases h
      | true =>
          intro arg harg
          rcases List.mem_cons.mp harg with rfl | harg
          · exact hb
          · exact ih h arg harg

/-- If no leaf that proves a prune is true on the row, no clause that proves one
is.  The induction is on the clause: for `AND` one operand proves the prune, for
`OR` all of them do, and `NOT` never does. -/
theorem clause_sound {g : Guc} {rows : List ColSummary} {row : Row D} (clause : Node D)
    (hleaf : ∀ node, Leaf node clause → leafProvesPrune pg g rows node = .ok true →
      ex.truth pg row node ≠ some true) {depth : Nat}
    (h : clauseProvesPrune pg g rows clause depth = .ok true) :
    ex.truth pg row clause ≠ some true := by
  match clause with
  | .boolExpr .andExpr args =>
      rw [clauseProvesPrune] at h
      split at h
      · cases h
      obtain ⟨arg, harg, hprune⟩ := anyProvesPrune_spec h
      have hfalse := clause_sound arg (fun node hnode => hleaf node (.arg harg hnode)) hprune
      rw [Executor.truth, Ne, conj_eq_true]
      exact fun htrue => hfalse (htrue _ (truth_mem_truths harg))
  | .boolExpr .orExpr args =>
      rw [clauseProvesPrune] at h
      split at h
      · cases h
      split at h
      · cases h
      rw [Executor.truth, Ne, disj_eq_true]
      intro htrue
      obtain ⟨arg, harg, ht⟩ := mem_truths htrue
      exact clause_sound arg (fun node hnode => hleaf node (.arg harg hnode))
        (allProvesPrune_spec h arg harg) ht.symm
  | .boolExpr .notExpr args =>
      rw [clauseProvesPrune] at h
      split at h <;> cases h
  | .opExpr .. | .scalarArrayOpExpr .. | .nullTest .. | .relabelType .. | .var .. | .const .. |
    .other _ => exact hleaf _ (.self _) (clauseProvesPrune_leaf (by simp) h)
termination_by sizeOf clause
decreasing_by
  all_goals
    have := List.sizeOf_lt_of_mem harg
    simp only [Node.boolExpr.sizeOf_spec]
    omega

end TableRange
