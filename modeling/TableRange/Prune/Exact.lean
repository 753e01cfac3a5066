import TableRange.MiniPg
import TableRange.Prune.Sound

/-!
# Decisions on an interval are exact

`Prune/Sound.lean` says that a prune loses no row.  Here the test on the bounds is
compared with what the bounds say: a qual that is built from a btree operator
proves a prune exactly when no value of the interval satisfies it, and never does
on an entry that has no bounds for it.
-/

namespace TableRange

open Lib.Interval Lib.Fallible

variable {D : Type} {pg : Pg D} {ord : pg.BtreeOrder} {ex : Executor D}

/-! ## The tests on the bounds -/

/-- The boundary tests find every constant that is excluded. -/
theorem boundaryTest_of_excludes (returns : pg.CompareReturns)
    {family left right collation : Oid} {strategy : Int} {c : Comparison} {lo hi k : D}
    (hc : comparisonOf strategy = some c)
    (hproc : pg.getOpfamilyProc family left right ≠ invalidOid)
    (h : @Comparison.Excludes D (ord.order family collation) c lo hi k) :
    boundaryTest (fun bound =>
      pg.compareCall (pg.getOpfamilyProc family left right) collation bound k) strategy lo hi =
        .ok true := by
  let _ := ord.order family collation
  have _ := ord.total family collation
  obtain ⟨n, hn⟩ := returns.returns (pg.isCompareProc_opfamilyProc hproc) collation lo k
  obtain ⟨m, hm⟩ := returns.returns (pg.isCompareProc_opfamilyProc hproc) collation hi k
  have hlo := ord.compare_spec hproc hn
  have hhi := ord.compare_spec hproc hm
  unfold comparisonOf at hc
  split at hc <;> cases hc
  · have hle : ¬n < 0 := fun hneg => absurd (hlo.1.mp hneg) (not_lt_of_ge h)
    simp [boundaryTest, hn, bind, Except.bind]
    omega
  · have hlt : 0 < n := hlo.2.mpr h
    simp [boundaryTest, hn, hlt, bind, Except.bind]
  · by_cases hpos : 0 < n
    · simp [boundaryTest, hn, hpos, bind, Except.bind]
    · have hneg : m < 0 := hhi.1.mpr (h.resolve_left fun hlt => hpos (hlo.2.mpr hlt))
      simp [boundaryTest, hn, hm, hpos, hneg, bind, Except.bind]
  · have hlt : m < 0 := hhi.1.mpr h
    simp [boundaryTest, hm, hlt, bind, Except.bind]
  · have hle : ¬0 < m := fun hpos => absurd (hhi.2.mp hpos) (not_lt_of_ge h)
    simp [boundaryTest, hm, bind, Except.bind]
    omega

/-- The boundary tests are exact. -/
theorem boundaryTest_iff (returns : pg.CompareReturns) {family left right collation : Oid}
    {strategy : Int} {c : Comparison} {lo hi k : D} (hc : comparisonOf strategy = some c)
    (hproc : pg.getOpfamilyProc family left right ≠ invalidOid)
    (hle : (ord.order family collation).le lo hi) :
    boundaryTest (fun bound =>
      pg.compareCall (pg.getOpfamilyProc family left right) collation bound k) strategy lo hi =
        .ok true ↔
      ∀ x, (ord.order family collation).le lo x → (ord.order family collation).le x hi →
        ¬@Comparison.Holds D (ord.order family collation) c x k := by
  let _ := ord.order family collation
  have _ := ord.total family collation
  have hexact : boundaryTest (fun bound =>
      pg.compareCall (pg.getOpfamilyProc family left right) collation bound k) strategy lo hi =
        .ok true ↔ c.Excludes lo hi k :=
    ⟨boundaryTest_excludes ord hc hproc, boundaryTest_of_excludes returns hc hproc⟩
  rw [hexact, Comparison.excludes_iff hle]
  exact ⟨fun h x hlo hhi => h x ⟨hlo, hhi⟩, fun h x hx => h x hx.1 hx.2⟩

variable (ord) in
/-- `elem_in_range` is the test for the interval. -/
theorem elemInRange_spec (returns : pg.CompareReturns) {family left right : Oid}
    (hproc : pg.getOpfamilyProc family left right ≠ invalidOid) (collation : Oid) (lo hi k : D) :
    ∃ b, elemInRange pg (pg.getOpfamilyProc family left right) collation lo hi k = .ok b ∧
      (b = true ↔ (ord.order family collation).le lo k ∧ (ord.order family collation).le k hi) := by
  let _ := ord.order family collation
  have _ := ord.total family collation
  obtain ⟨n, hn⟩ := returns.returns (pg.isCompareProc_opfamilyProc hproc) collation lo k
  obtain ⟨m, hm⟩ := returns.returns (pg.isCompareProc_opfamilyProc hproc) collation hi k
  have hlo := ord.compare_spec hproc hn
  have hhi := ord.compare_spec hproc hm
  have hlok : 0 < n ↔ ¬lo ≤ k := hlo.2.trans ⟨fun h hle => absurd hle (not_le_of_gt h),
    lt_of_not_le⟩
  have hkhi : m < 0 ↔ ¬k ≤ hi := hhi.1.trans ⟨fun h hle => absurd hle (not_le_of_gt h),
    lt_of_not_le⟩
  by_cases hpos : 0 < n
  · refine ⟨false, by simp [elemInRange, hn, hpos, bind, Except.bind], ?_⟩
    simp only [Bool.false_eq_true, false_iff, not_and]
    intro hle
    exact absurd hle (hlok.mp hpos)
  · refine ⟨decide (0 ≤ m), by simp [elemInRange, hn, hm, hpos, bind, Except.bind], ?_⟩
    rw [decide_eq_true_eq]
    constructor
    · intro hnonneg
      exact ⟨not_not.mp fun hno => hpos (hlok.mpr hno), not_not.mp fun hno => by
        have hneg := hkhi.mpr hno
        omega⟩
    · rintro ⟨-, hle⟩
      by_contra hneg
      exact hkhi.mp (by omega) hle

/-! ## The quals -/

/-- The value compares with the constant, on the sides on which the clause has
them. -/
def Executor.Compares (ex : Executor D) (opno collation : Oid) (commuted : Bool) (x k : D) : Prop :=
  (if commuted then ex.opResult opno collation (some k) (some x)
    else ex.opResult opno collation (some x) (some k)) = some true

/-- The operator's types, the column's side first. -/
def columnSide (pg : Pg D) (opno : Oid) (commuted : Bool) : Oid × Oid :=
  if commuted then (pg.opInputTypes opno).swap else pg.opInputTypes opno

/-- A member of the default family of the column's side, which has a compare
procedure for the operator's types. -/
structure BtreeOperator (pg : Pg D) (opno : Oid) (commuted : Bool) (family : Oid) : Prop where
  isDefault : pg.defaultBtreeFamily (columnSide pg opno commuted).1 = some family
  strategy : 1 ≤ pg.getOpOpfamilyStrategy opno family ∧ pg.getOpOpfamilyStrategy opno family ≤ 5
  proc : pg.getOpfamilyProc family (columnSide pg opno commuted).1
    (columnSide pg opno commuted).2 ≠ invalidOid

/-- `compare_op` finds every such operator. -/
theorem compareOp_of_btreeOperator {opno family : Oid} {commuted : Bool}
    (h : BtreeOperator pg opno commuted family) :
    compareOp pg opno commuted = some
      { strategy := if commuted then commuteStrategy (pg.getOpOpfamilyStrategy opno family)
          else pg.getOpOpfamilyStrategy opno family
        varType := (columnSide pg opno commuted).1
        cmpproc := pg.getOpfamilyProc family (columnSide pg opno commuted).1
          (columnSide pg opno commuted).2 } := by
  obtain ⟨hfamily, hstrategy, hproc⟩ := h
  have hno : ¬(pg.getOpOpfamilyStrategy opno family < 1 ∨
      5 < pg.getOpOpfamilyStrategy opno family) := by omega
  cases commuted with
  | false =>
      have hfamily : pg.defaultBtreeFamily (pg.opInputTypes opno).1 = some family := hfamily
      simp only [compareOp, Bool.false_eq_true, if_false, hfamily, Option.bind_eq_bind,
        Option.bind_some, if_neg hno]
      exact if_neg hproc
  | true =>
      have hfamily : pg.defaultBtreeFamily (pg.opInputTypes opno).2 = some family := hfamily
      simp only [compareOp, if_true, hfamily, Option.bind_eq_bind, Option.bind_some, if_neg hno]
      exact if_neg hproc

/-- The entry has bounds of the qual's collation, and they are read as `lo` and
`hi`. -/
structure HasBounds (pg : Pg D) (g : Guc) (c : ColSummary) (parseType collation : Oid) (lo hi : D) :
    Prop where
  overlap : c.overlap = false
  collation : c.collation = collation
  bounds : parsedBounds pg g c parseType = .ok (some (lo, hi))

/-- The entry holds an extent, or bounds of another collation, or has lost its
bounds, or has none yet. -/
def Unusable (c : ColSummary) (collation : Oid) : Prop :=
  c.overlap = true ∨ c.collation ≠ collation ∨ c.unbounded = true ∨ c.min = none ∨ c.max = none

/-- An unusable entry has no bounds for the qual. -/
theorem not_hasBounds {g : Guc} {c : ColSummary} {parseType collation : Oid}
    (h : Unusable c collation) (lo hi : D) : ¬HasBounds pg g c parseType collation lo hi := by
  intro hb
  obtain ⟨hunb, s, t, hs, ht, -, -⟩ := parsedBounds_spec hb.bounds
  rcases h with h | h | h | h | h
  · rw [hb.overlap] at h
    cases h
  · exact h hb.collation
  · rw [hunb] at h
    cases h
  · rw [hs] at h
    cases h
  · rw [ht] at h
    cases h

variable (pg ord) in
/-- The qual proves a prune on an entry with bounds exactly when no value of the
interval satisfies it, and on no entry without them. -/
structure ExactOn (g : Guc) (spec : QualSpec D) (family parseType collation : Oid)
    (Satisfies : D → Prop) : Prop where
  exact : ∀ (c : ColSummary) (lo hi : D), HasBounds pg g c parseType collation lo hi →
    (ord.order family collation).le lo hi →
    (spec.provesPrune pg g c = .ok true ↔
      ∀ x, (ord.order family collation).le lo x → (ord.order family collation).le x hi →
        ¬Satisfies x)
  keeps : ∀ c : ColSummary,
    Unusable c collation ∨ (∀ lo hi, ¬HasBounds pg g c parseType collation lo hi) →
    spec.provesPrune pg g c ≠ .ok true

/-- A qual that runs its test on the bounds that `parsed_bounds` gives proves
nothing without them. -/
private theorem keeps_of_parsedBounds {g : Guc} {spec : QualSpec D} {parseType collation : Oid}
    (test : D × D → PgResult Bool)
    (hspec : ∀ c, spec.provesPrune pg g c =
      if !c.overlap && c.collation == collation then
        parsedBounds pg g c parseType >>= fun bounds => bounds.elim (.ok false) test
      else .ok false) (c : ColSummary)
    (hno : Unusable c collation ∨ ∀ lo hi, ¬HasBounds pg g c parseType collation lo hi) :
    spec.provesPrune pg g c ≠ .ok true := by
  intro h
  rw [hspec] at h
  split at h
  · rename_i husable
    simp only [Bool.and_eq_true, Bool.not_eq_true', beq_iff_eq] at husable
    obtain ⟨bounds, hbounds, h⟩ := bind_eq_ok.mp h
    cases bounds with
    | none => cases h
    | some bounds =>
        have hb : HasBounds pg g c parseType collation bounds.1 bounds.2 :=
          ⟨husable.1, husable.2, hbounds⟩
        rcases hno with hno | hno
        · exact not_hasBounds hno _ _ hb
        · exact hno _ _ hb
  · cases h

/-- `Var op Const` and `Const op Var`. -/
theorem compare_exactOn (laws : ex.BtreeLaws ord) (returns : pg.CompareReturns) (g : Guc)
    {opno family : Oid} {commuted : Bool} {op : CompareOp}
    (hop : compareOp pg opno commuted = some op)
    (hfamily : pg.defaultBtreeFamily op.varType = some family) (attnum : Int16)
    (parseType collation : Oid) (k : D) :
    ExactOn pg ord g (.compare attnum op.strategy parseType op.cmpproc collation k) family parseType
      collation (ex.Compares opno collation commuted · k) := by
  obtain ⟨family', cmp, hfamily', hcmp, hstrategy, hproc, constType, hcmpproc⟩ := compareOp_spec hop
  obtain rfl : family' = family := Option.some.inj (hfamily'.symm.trans hfamily)
  rw [hcmpproc] at hproc
  -- the comparison that the strategy stands for is the one that the clause makes
  have hholds (x : D) : ex.Compares opno collation commuted x k ↔
      @Comparison.Holds D (ord.order family' collation) (if commuted then cmp.flip else cmp)
        x k := by
    cases commuted with
    | false => exact laws.compare collation x k hcmp
    | true =>
        rw [if_pos rfl, @Comparison.holds_flip D (ord.order family' collation)]
        exact laws.compare collation k x hcmp
  constructor
  · intro c lo hi hb hle
    simp only [hholds]
    rw [← boundaryTest_iff returns hstrategy hproc hle]
    simp only [QualSpec.provesPrune, evalCompare, hb.overlap, hb.collation, hb.bounds, hcmpproc,
      bind, Except.bind]
    simp
  · refine keeps_of_parsedBounds (fun bounds => boundaryTest
      (fun bound => pg.compareCall op.cmpproc collation bound k) op.strategy bounds.1 bounds.2) ?_
    intro c
    simp only [QualSpec.provesPrune, evalCompare]
    split
    · congr
      funext bounds
      cases bounds <;> rfl
    · rfl

/-- `Var = ANY (array)`. -/
theorem inList_exactOn (laws : ex.BtreeLaws ord) (returns : pg.CompareReturns) (g : Guc)
    {opno family : Oid} {op : CompareOp} (hop : compareOp pg opno false = some op)
    (hfamily : pg.defaultBtreeFamily op.varType = some family) (heq : op.strategy = 3)
    (attnum : Int16) (parseType collation : Oid) (elems : List D) :
    ExactOn pg ord g (.inList attnum parseType op.cmpproc collation elems) family parseType
      collation
      fun x => ∃ k ∈ elems, ex.Compares opno collation false x k := by
  obtain ⟨family', cmp, hfamily', hcmp, hstrategy, hproc, constType, hcmpproc⟩ := compareOp_spec hop
  obtain rfl : family' = family := Option.some.inj (hfamily'.symm.trans hfamily)
  rw [hcmpproc] at hproc
  obtain rfl : cmp = .eq := by
    rw [heq] at hstrategy
    exact (Option.some.inj hstrategy).symm
  constructor
  · intro c lo hi hb hle
    let _ := ord.order family' collation
    have _ := ord.total family' collation
    have hholds (x k : D) : ex.Compares opno collation false x k ↔ Comparison.eq.Holds x k :=
      laws.compare collation x k hcmp
    have hprune : (QualSpec.inList attnum parseType op.cmpproc collation elems).provesPrune pg g c =
        .ok true ↔ elems.anyM (elemInRange pg op.cmpproc collation lo hi) = .ok false := by
      simp only [QualSpec.provesPrune, evalInList, hb.overlap, hb.collation, hb.bounds, bind,
        Except.bind]
      cases elems.anyM (elemInRange pg op.cmpproc collation lo hi) <;> simp
    have helem := elemInRange_spec ord returns hproc collation lo hi
    rw [← hcmpproc] at helem
    have hmiss (k : D) : elemInRange pg op.cmpproc collation lo hi k = .ok false ↔
        ¬(lo ≤ k ∧ k ≤ hi) := by
      obtain ⟨b, hb, hmem⟩ := helem k
      rw [hb, ← hmem]
      simp
    have hreturns : ∀ k ∈ elems, ∃ b, elemInRange pg op.cmpproc collation lo hi k = .ok b :=
      fun k _ => (helem k).imp fun _ h => h.1
    rw [hprune, anyM_eq_false_iff hreturns]
    simp only [hmiss, hholds, ← Comparison.forall_excludes_eq_iff, Comparison.excludes_iff hle]
    constructor
    · rintro hnone x hlo hhi ⟨k, hk, hx⟩
      exact hnone k hk x ⟨hlo, hhi⟩ hx
    · intro hnone k hk x hx hxk
      exact hnone x hx.1 hx.2 ⟨k, hk, hxk⟩
  · refine keeps_of_parsedBounds (fun bounds => do
      let hit ← elems.anyM (elemInRange pg op.cmpproc collation bounds.1 bounds.2)
      .ok (!hit)) ?_
    intro c
    simp only [QualSpec.provesPrune, evalInList]
    split
    · congr
      funext bounds
      cases bounds <;> rfl
    · rfl

/-! ## The clauses -/

/-- The elements that `array_const_datums` returns. -/
theorem mem_arrayConstDatums {consttype : Oid} {array k : D} {elems : List D}
    (h : arrayConstDatums pg consttype array = some elems) :
    k ∈ elems ↔ some k ∈ pg.deconstructArray array := by
  unfold arrayConstDatums at h
  split at h
  · cases h
  · cases h
    simp

/-- The quals that are built from the operators of a btree family decide exactly:
a comparison of the column with a constant, on either side, and a search of the
column in a constant array, whose NULLs count for nothing. -/
theorem leafDecision_exact (laws : ex.BtreeLaws ord) (returns : pg.CompareReturns) (g : Guc) :
    (∀ (opno inputcollid family : Oid) (left right : Node D) (vc : VarConst D) (k : D),
      varConst left right = some vc → vc.constvalue = some k → 0 < vc.varattno →
      BtreeOperator pg opno vc.commuted family →
      ∃ spec, extractOpexpr pg opno inputcollid [left, right] = some spec ∧
        spec.attnum = vc.varattno ∧
        ExactOn pg ord g spec family
          (summaryParseType pg (columnSide pg opno vc.commuted).1 vc.vartype) inputcollid
          (ex.Compares opno inputcollid vc.commuted · k)) ∧
    (∀ (opno inputcollid family : Oid) (left right : Node D) (varattno : Int16)
        (vartype consttype : Oid) (array : D),
      stripRelabel left = .var varattno vartype →
      stripRelabel right = .const consttype (some array) → 0 < varattno →
      pg.getElementType consttype ≠ invalidOid → BtreeOperator pg opno false family →
      pg.getOpOpfamilyStrategy opno family = 3 →
      ∃ spec, extractSaop pg opno true inputcollid [left, right] = some spec ∧
        spec.attnum = varattno ∧
        ExactOn pg ord g spec family
          (summaryParseType pg (columnSide pg opno false).1 vartype) inputcollid
          fun x => ∃ k, some k ∈ pg.deconstructArray array ∧
            ex.Compares opno inputcollid false x k) := by
  constructor
  · intro opno inputcollid family left right vc k hvc hk hpos hbtree
    have hop := compareOp_of_btreeOperator hbtree
    have hexact := compare_exactOn laws returns g hop hbtree.isDefault vc.varattno
      (summaryParseType pg (columnSide pg opno vc.commuted).1 vc.vartype) inputcollid k
    refine ⟨_, ?_, rfl, hexact⟩
    simp only [extractOpexpr, hvc, hk, Option.bind_eq_bind, Option.bind_some,
      if_neg (Int16.not_le.mpr hpos), hop]
  · intro opno inputcollid family left right varattno vartype consttype array hleft hright hpos
      helem hbtree hthree
    have hop := compareOp_of_btreeOperator hbtree
    have hthree' : (if false = true then commuteStrategy (pg.getOpOpfamilyStrategy opno family)
        else pg.getOpOpfamilyStrategy opno family) = 3 := hthree
    have hdatums : arrayConstDatums pg consttype array =
        some ((pg.deconstructArray array).filterMap id) := by
      rw [arrayConstDatums, if_neg helem]
    have hexact := inList_exactOn laws returns g hop hbtree.isDefault hthree' varattno
      (summaryParseType pg (columnSide pg opno false).1 vartype) inputcollid
      ((pg.deconstructArray array).filterMap id)
    simp only [mem_arrayConstDatums hdatums] at hexact
    refine ⟨_, ?_, rfl, hexact⟩
    simp [extractSaop, hleft, hright, hop, hthree, hdatums, Int16.not_le.mpr hpos]

/-- `100 < column` on the small server. -/
theorem leafDecision_exact_int4 :
    ∃ spec, extractOpexpr (Mini.pg fun _ _ => id) (Mini.op Mini.int4 1) invalidOid
        [.const Mini.int4 (some 100), .var 1 Mini.int4] = some spec ∧ spec.attnum = 1 ∧
      ExactOn (Mini.pg fun _ _ => id) (Mini.order fun _ _ => id) Mini.session.guc spec Mini.int4
        Mini.int4 invalidOid
        ((Mini.executor fun _ _ => id).Compares (Mini.op Mini.int4 1) invalidOid true · 100) := by
  have hbtree : BtreeOperator (Mini.pg fun _ _ => id) (Mini.op Mini.int4 1) true Mini.int4 :=
    ⟨by decide, by decide, by decide⟩
  exact (leafDecision_exact (Mini.btreeLaws fun _ _ => id) ⟨fun _ _ _ _ => ⟨_, rfl⟩⟩
    Mini.session.guc).1 _ invalidOid _ _ _ ⟨1, Mini.int4, Mini.int4, some 100, true⟩ 100 rfl rfl
    (by decide) hbtree

end TableRange
