import TableRange.Lib.Formula
import TableRange.Prune.Exact

/-!
# Decisions on whole clauses are exact

`Prune/Exact.lean` is about one qual.  Here quals stand under `AND` and `OR`, and the
entries say of each column that its values lie between two bounds and whether some of
them are NULL.

If the operands of every `AND` look at different columns, the relation is pruned exactly
when no row that the entries allow satisfies all of its clauses: nothing that the summary
says is left unused.  Two operands that look at one column are decided apart, and a row
would have to pass both.
-/

namespace TableRange

open Lib Lib.Interval Lib.Kleene Lib.Fallible

variable {D : Type} {pg : Pg D} {ord : pg.BtreeOrder} {ex : Executor D} {g : Guc}
  {rows : List ColSummary}

/-! ## What the entries allow -/

variable (ord) in
/-- A column whose entry has bounds and has seen a value. -/
structure BoundedColumn (g : Guc) (rows : List ColSummary) (attnum : Int16) where
  entry : ColSummary
  family : Oid
  parseType : Oid
  lo : D
  hi : D
  pos : 0 < attnum
  find : (rows.find? fun r => r.attnum == attnum) = some entry
  hasBounds : HasBounds pg g entry parseType entry.collation lo hi
  le : (ord.order family entry.collation).le lo hi
  allNulls : entry.allNulls = false

/-- The values that the column may have. -/
def BoundedColumn.allows {attnum : Int16} (col : BoundedColumn ord g rows attnum) :
    Set (Option D) :=
  {x | x.elim (col.entry.hasNulls = true) fun v =>
    (ord.order col.family col.entry.collation).le col.lo v ∧
      (ord.order col.family col.entry.collation).le v col.hi}

/-- A column without bounds may have any value. -/
def allowedValues {attnum : Int16} (col : Option (BoundedColumn ord g rows attnum)) :
    Set (Option D) :=
  col.elim Set.univ BoundedColumn.allows

theorem BoundedColumn.lo_allowed {attnum : Int16} (col : BoundedColumn ord g rows attnum) :
    some col.lo ∈ col.allows :=
  ⟨(ord.order col.family col.entry.collation).le_refl _, col.le⟩

/-- The entries allow some row. -/
theorem exists_allowed (cols : ∀ attnum, Option (BoundedColumn ord g rows attnum)) :
    ∃ row : Row D, ∀ attnum, row attnum ∈ allowedValues (cols attnum) := by
  refine ⟨fun attnum => (cols attnum).elim none fun col => some col.lo, fun attnum => ?_⟩
  cases hcol : cols attnum with
  | none => exact Set.mem_univ _
  | some col =>
      show (cols attnum).elim none (fun col => some col.lo) ∈ col.allows
      rw [hcol]
      exact col.lo_allowed

/-- What no allowed value satisfies. -/
theorem BoundedColumn.forall_allows {attnum : Int16} {col : BoundedColumn ord g rows attnum}
    {P : Option D → Prop} :
    (∀ x ∈ col.allows, ¬P x) ↔ (col.entry.hasNulls = true → ¬P none) ∧
      ∀ v, (ord.order col.family col.entry.collation).le col.lo v →
        (ord.order col.family col.entry.collation).le v col.hi → ¬P (some v) := by
  constructor
  · intro h
    exact ⟨fun hnull => h none hnull, fun v hlo hhi => h (some v) ⟨hlo, hhi⟩⟩
  · rintro ⟨hnone, hsome⟩ x hx
    cases x with
    | none => exact hnone hx
    | some v => exact hsome v hx.1 hx.2

/-! ## The leaves -/

/-- A comparison with the column in the collation and by the family of its bounds, a
search of it in a constant array, or a NULL test of it. -/
inductive ExactLeaf (pg : Pg D) (attnum : Int16) (family parseType collation : Oid) :
    Node D → Prop
  | compare {left right : Node D} {vc : VarConst D} {opno : Oid} {k : D}
      (hvc : varConst left right = some vc) (hk : vc.constvalue = some k)
      (hattnum : vc.varattno = attnum) (hop : BtreeOperator pg opno vc.commuted family)
      (hparse : summaryParseType pg (columnSide pg opno vc.commuted).1 vc.vartype = parseType) :
      ExactLeaf pg attnum family parseType collation (.opExpr opno collation [left, right])
  | anyOf {left right : Node D} {opno vartype consttype : Oid} {array : D}
      (hleft : stripRelabel left = .var attnum vartype)
      (hright : stripRelabel right = .const consttype (some array))
      (helem : pg.getElementType consttype ≠ invalidOid)
      (hop : BtreeOperator pg opno false family)
      (heq : pg.getOpOpfamilyStrategy opno family = 3)
      (hparse : summaryParseType pg (columnSide pg opno false).1 vartype = parseType) :
      ExactLeaf pg attnum family parseType collation
        (.scalarArrayOpExpr opno true collation [left, right])
  | nullTest {arg : Node D} {vartype : Oid} (nulltesttype : NullTestType)
      (harg : stripRelabel arg = .var attnum vartype) :
      ExactLeaf pg attnum family parseType collation (.nullTest arg nulltesttype false)

/-- The leaf reads the bounds as the column does. -/
def BoundedLeaf {attnum : Int16} (col : BoundedColumn ord g rows attnum) (node : Node D) : Prop :=
  ExactLeaf pg attnum col.family col.parseType col.entry.collation node

/-- The column that a leaf is decided on. -/
def columnOf (pg : Pg D) (node : Node D) : Int16 :=
  ((extractQual pg node).map QualSpec.attnum).getD 0

/-- The node is true on a row that has the value in every column. -/
def TrueAt (pg : Pg D) (ex : Executor D) (node : Node D) (x : Option D) : Prop :=
  ex.truth pg (fun _ => x) node = some true

/-- The boundary tests return. -/
theorem exists_boundaryTest (returns : pg.CompareReturns) {cmpproc : Oid}
    (hproc : pg.IsCompareProc cmpproc) (collation : Oid) (strategy : Int) (lo hi k : D) :
    ∃ b, boundaryTest (fun bound => pg.compareCall cmpproc collation bound k) strategy lo hi =
      .ok b := by
  obtain ⟨n, hn⟩ := returns.returns hproc collation lo k
  obtain ⟨m, hm⟩ := returns.returns hproc collation hi k
  unfold boundaryTest
  split
  case h_3 =>
    simp only [hn, hm, bind, Except.bind]
    split
    · exact ⟨_, rfl⟩
    · exact ⟨_, rfl⟩
  all_goals simp [hn, hm, bind, Except.bind]

/-- With bounds, the quals that test them return. -/
theorem exists_provesPrune (returns : pg.CompareReturns) {c : ColSummary}
    {parseType collation : Oid} {lo hi : D} (hb : HasBounds pg g c parseType collation lo hi) :
    (∀ attnum strategy cmpproc k, pg.IsCompareProc cmpproc → ∃ b,
      (QualSpec.compare attnum strategy parseType cmpproc collation k).provesPrune pg g c =
        .ok b) ∧
    ∀ attnum cmpproc elems, pg.IsCompareProc cmpproc → ∃ b,
      (QualSpec.inList attnum parseType cmpproc collation elems).provesPrune pg g c = .ok b := by
  constructor
  · intro attnum strategy cmpproc k hproc
    simpa [QualSpec.provesPrune, evalCompare, hb.overlap, hb.collation, hb.bounds, bind,
      Except.bind] using exists_boundaryTest returns hproc collation strategy lo hi k
  · intro attnum cmpproc elems hproc
    have helems : ∀ k ∈ elems, ∃ b, elemInRange pg cmpproc collation lo hi k = .ok b := by
      intro k _
      obtain ⟨n, hn⟩ := returns.returns hproc collation lo k
      obtain ⟨m, hm⟩ := returns.returns hproc collation hi k
      by_cases hpos : 0 < n
      · exact ⟨false, by simp [elemInRange, hn, hpos, bind, Except.bind]⟩
      · exact ⟨decide (0 ≤ m), by simp [elemInRange, hn, hm, hpos, bind, Except.bind]⟩
    obtain ⟨hit, hhit⟩ := exists_anyM helems
    exact ⟨!hit, by
      simp [QualSpec.provesPrune, evalInList, hb.overlap, hb.collation, hb.bounds, hhit, bind,
        Except.bind]⟩

section Leaves

variable {attnum : Int16} {col : BoundedColumn ord g rows attnum} {node : Node D}

/-- What is known of a leaf: the row matters only in the column, and the decision says
whether the leaf can be true. -/
structure DecidedOn (ex : Executor D) (col : BoundedColumn ord g rows attnum) (node : Node D) :
    Prop where
  column : columnOf pg node = attnum
  noBool : ∀ boolop args, node ≠ .boolExpr boolop args
  truth : ∀ row, ex.truth pg row node = ex.truth pg (fun _ => row attnum) node
  decision : ∃ b, leafProvesPrune pg g rows node = .ok b ∧
    (b = true ↔ ∀ x ∈ col.allows, ¬TrueAt pg ex node x)

/-- A leaf whose qual returns on the entry. -/
theorem DecidedOn.of_spec {spec : QualSpec D} (hspec : extractQual pg node = some spec)
    (hattnum : spec.attnum = attnum) (hnode : ∀ boolop args, node ≠ .boolExpr boolop args)
    (htruth : ∀ row, ex.truth pg row node = ex.truth pg (fun _ => row attnum) node)
    (hreturns : ∃ b, spec.provesPrune pg g col.entry = .ok b)
    (hexact : spec.provesPrune pg g col.entry = .ok true ↔
      ∀ x ∈ col.allows, ¬TrueAt pg ex node x) : DecidedOn ex col node := by
  refine ⟨?_, hnode, htruth, ?_⟩
  · rw [columnOf, hspec]
    exact hattnum
  · obtain ⟨b, hb⟩ := hreturns
    have hleaf : leafProvesPrune pg g rows node = spec.provesPrune pg g col.entry := by
      subst hattnum
      simp only [leafProvesPrune, hspec, col.find]
    refine ⟨b, hleaf.trans hb, ?_⟩
    rw [← hexact, hb]
    simp

/-- What `compare_op` finds for a member of the family. -/
theorem BtreeOperator.compareOp {opno family : Oid} {commuted : Bool}
    (hop : BtreeOperator pg opno commuted family) :
    ∃ op, TableRange.compareOp pg opno commuted = some op ∧
      pg.defaultBtreeFamily op.varType = some family ∧
      op.varType = (columnSide pg opno commuted).1 ∧ pg.IsCompareProc op.cmpproc :=
  ⟨_, compareOp_of_btreeOperator hop, hop.isDefault, rfl,
    pg.isCompareProc_opfamilyProc hop.proc⟩

/-- A member of a family is strict. -/
theorem BtreeOperator.strict (laws : ex.BtreeLaws ord) {opno family : Oid} {commuted : Bool}
    (hop : BtreeOperator pg opno commuted family) (collation : Oid) (x : Option D) :
    ex.opResult opno collation none x ≠ some true ∧
      ex.opResult opno collation x none ≠ some true := by
  have hno : ¬(pg.getOpOpfamilyStrategy opno family < 1 ∨
      5 < pg.getOpOpfamilyStrategy opno family) := by
    have := hop.strategy
    omega
  obtain ⟨c, hc⟩ := exists_comparisonOf hno
  exact ⟨laws.strict_left collation x hc, laws.strict_right collation x hc⟩

variable (pg ex) in
/-- One side of the operator is the column, the other one the constant. -/
theorem truth_varConst {left right : Node D} {vc : VarConst D} {k : D}
    (hvc : varConst left right = some vc) (hk : vc.constvalue = some k) (opno collation : Oid)
    (row : Row D) : ex.truth pg row (.opExpr opno collation [left, right]) =
      if vc.commuted then ex.opResult opno collation (some k) (row vc.varattno)
      else ex.opResult opno collation (row vc.varattno) (some k) := by
  rw [Executor.truth]
  rcases varConst_spec ex hvc row with ⟨hcom, hl, hr⟩ | ⟨hcom, hl, hr⟩
  · rw [hl, hr, hk, hcom]
    simp
  · rw [hl, hr, hk, hcom]
    simp

theorem DecidedOn.compare (laws : ex.BtreeLaws ord) (returns : pg.CompareReturns)
    {left right : Node D} {vc : VarConst D} {opno : Oid} {k : D}
    (hvc : varConst left right = some vc) (hk : vc.constvalue = some k)
    (hattnum : vc.varattno = attnum) (hop : BtreeOperator pg opno vc.commuted col.family)
    (hparse : summaryParseType pg (columnSide pg opno vc.commuted).1 vc.vartype = col.parseType) :
    DecidedOn ex col (.opExpr opno col.entry.collation [left, right]) := by
  subst hattnum
  obtain ⟨op, hcompare, hfamily, htype, hproc⟩ := hop.compareOp
  rw [← htype] at hparse
  have hspec : extractQual pg (.opExpr opno col.entry.collation [left, right]) =
      some (.compare vc.varattno op.strategy col.parseType op.cmpproc col.entry.collation k) := by
    simp only [extractQual, extractOpexpr, hvc, hk, Option.bind_eq_bind, Option.bind_some,
      if_neg (Int16.not_le.mpr col.pos), hcompare, hparse]
  have htruth := truth_varConst pg ex hvc hk opno col.entry.collation
  refine .of_spec hspec rfl (by simp) (fun row => by rw [htruth, htruth])
    ((exists_provesPrune returns col.hasBounds).1 _ _ _ k hproc) ?_
  have hexact := compare_exactOn laws returns g hcompare hfamily vc.varattno col.parseType
    col.entry.collation k
  rw [hexact.exact col.entry col.lo col.hi col.hasBounds col.le, BoundedColumn.forall_allows]
  simp only [TrueAt, htruth]
  refine (and_iff_right fun _ => ?_).symm
  have hnull := hop.strict laws col.entry.collation (some k)
  split
  · exact hnull.2
  · exact hnull.1

theorem DecidedOn.anyOf (laws : ex.BtreeLaws ord) (returns : pg.CompareReturns)
    {left right : Node D} {opno vartype consttype : Oid} {array : D}
    (hleft : stripRelabel left = .var attnum vartype)
    (hright : stripRelabel right = .const consttype (some array))
    (helem : pg.getElementType consttype ≠ invalidOid)
    (hop : BtreeOperator pg opno false col.family)
    (heq : pg.getOpOpfamilyStrategy opno col.family = 3)
    (hparse : summaryParseType pg (columnSide pg opno false).1 vartype = col.parseType) :
    DecidedOn ex col (.scalarArrayOpExpr opno true col.entry.collation [left, right]) := by
  obtain ⟨op, hcompare, hfamily, htype, hproc⟩ := hop.compareOp
  rw [← htype] at hparse
  have hthree : op.strategy = 3 := by
    have hcompare' := compareOp_of_btreeOperator hop
    rw [hcompare] at hcompare'
    rw [Option.some.inj hcompare']
    exact heq
  have hdatums : arrayConstDatums pg consttype array =
      some ((pg.deconstructArray array).filterMap id) := by
    rw [arrayConstDatums, if_neg helem]
  have hspec : extractQual pg (.scalarArrayOpExpr opno true col.entry.collation [left, right]) =
      some (.inList attnum col.parseType op.cmpproc col.entry.collation
        ((pg.deconstructArray array).filterMap id)) := by
    simp [extractQual, extractSaop, hleft, hright, hcompare, hthree, hdatums, hparse,
      Int16.not_le.mpr col.pos]
  have htruth (row : Row D) : ex.truth pg row
      (.scalarArrayOpExpr opno true col.entry.collation [left, right]) =
      disj ((pg.deconstructArray array).map
        (ex.opResult opno col.entry.collation (row attnum))) := by
    have hl : ex.value row left = row attnum := by
      rw [← ex.value_stripRelabel, hleft]
      rfl
    have hr : ex.value row right = some array := by
      rw [← ex.value_stripRelabel, hright]
      rfl
    simp only [Executor.truth, hl, hr, if_true]
  refine .of_spec hspec rfl (by simp) (fun row => by rw [htruth, htruth])
    ((exists_provesPrune returns col.hasBounds).2 _ _ _ hproc) ?_
  have hexact := inList_exactOn laws returns g hcompare hfamily hthree attnum col.parseType
    col.entry.collation ((pg.deconstructArray array).filterMap id)
  rw [hexact.exact col.entry col.lo col.hi col.hasBounds col.le, BoundedColumn.forall_allows]
  have htrue (x : Option D) : TrueAt pg ex
      (.scalarArrayOpExpr opno true col.entry.collation [left, right]) x ↔
      ∃ elem ∈ pg.deconstructArray array,
        ex.opResult opno col.entry.collation x elem = some true := by
    rw [TrueAt, htruth, disj_eq_true, List.mem_map]
  simp only [htrue]
  refine Iff.trans ?_ (and_iff_right ?_).symm
  · refine forall₃_congr fun x _ _ => not_congr ?_
    constructor
    · rintro ⟨k, hk, hx⟩
      exact ⟨some k, by simpa using hk, hx⟩
    · rintro ⟨elem, helem, hx⟩
      cases elem with
      | none => exact absurd hx (hop.strict laws col.entry.collation (some x)).2
      | some k => exact ⟨k, by simpa using helem, hx⟩
  · rintro - ⟨elem, -, helem⟩
    exact (hop.strict laws col.entry.collation elem).1 helem

/-- The column has a value, so only the NULLs decide. -/
theorem DecidedOn.nullTest {arg : Node D} {vartype : Oid} (nulltesttype : NullTestType)
    (harg : stripRelabel arg = .var attnum vartype) :
    DecidedOn ex col (.nullTest arg nulltesttype false) := by
  have hspec : extractQual pg (.nullTest arg nulltesttype false) =
      some (.null attnum (nulltesttype == .isNull)) := by
    simp only [extractQual, extractNulltest, harg, if_neg (Int16.not_le.mpr col.pos)]
    cases nulltesttype <;> rfl
  have htruth (row : Row D) : ex.truth pg row (.nullTest arg nulltesttype false) =
      some (if nulltesttype = .isNull then (row attnum).isNone else (row attnum).isSome) := by
    have hvalue : ex.value row arg = row attnum := by
      rw [← ex.value_stripRelabel, harg]
      rfl
    cases nulltesttype with
    | isNull =>
        rw [Executor.truth, hvalue]
        cases row attnum <;> rfl
    | isNotNull =>
        rw [Executor.truth, hvalue]
        cases row attnum <;> rfl
  refine .of_spec hspec rfl (by simp) (fun row => by rw [htruth, htruth]) ⟨_, rfl⟩ ?_
  simp only [QualSpec.provesPrune, TrueAt, htruth]
  cases nulltesttype with
  | isNull =>
      rw [BoundedColumn.forall_allows]
      simp
  | isNotNull =>
      have hlo : ¬∀ x ∈ col.allows, ¬x.isSome = true := fun h => h _ col.lo_allowed rfl
      simpa [col.allNulls] using hlo

theorem BoundedLeaf.decided (laws : ex.BtreeLaws ord) (returns : pg.CompareReturns)
    (h : BoundedLeaf col node) : DecidedOn ex col node := by
  cases h with
  | compare hvc hk hattnum hop hparse => exact .compare laws returns hvc hk hattnum hop hparse
  | anyOf hleft hright helem hop heq hparse =>
      exact .anyOf laws returns hleft hright helem hop heq hparse
  | nullTest nulltesttype harg => exact .nullTest nulltesttype harg

end Leaves

/-! ## Clauses -/

mutual

/-- The formula as the planner has it. -/
def clauseOf : Formula (Node D) → Node D
  | .leaf node => node
  | .and fs => .boolExpr .andExpr (clausesOf fs)
  | .or fs => .boolExpr .orExpr (clausesOf fs)

def clausesOf : List (Formula (Node D)) → List (Node D)
  | [] => []
  | f :: fs => clauseOf f :: clausesOf fs

end

theorem mem_clausesOf {arg : Node D} {fs : List (Formula (Node D))} :
    arg ∈ clausesOf fs ↔ ∃ f ∈ fs, clauseOf f = arg := by
  induction fs with
  | nil => simp [clausesOf]
  | cons f fs ih => simp [clausesOf, ih, eq_comm]

/-- If the operands return, so does the search for one that proves the prune. -/
theorem exists_anyProvesPrune {args : List (Node D)} {depth : ℕ}
    (h : ∀ arg ∈ args, ∃ b, clauseProvesPrune pg g rows arg depth = .ok b) :
    ∃ b, anyProvesPrune pg g rows args depth = .ok b ∧
      (b = true ↔ ∃ arg ∈ args, clauseProvesPrune pg g rows arg depth = .ok true) := by
  induction args with
  | nil => exact ⟨false, by rw [anyProvesPrune], by simp⟩
  | cons arg args ih =>
      obtain ⟨rest, hrest, hiff⟩ := ih fun arg' harg' => h arg' (List.mem_cons_of_mem arg harg')
      obtain ⟨first, hfirst⟩ := h arg List.mem_cons_self
      rw [anyProvesPrune]
      cases first with
      | true => exact ⟨true, by simp [hfirst, bind, Except.bind], by simp [hfirst]⟩
      | false => exact ⟨rest, by simp [hfirst, hrest, bind, Except.bind], by simp [hfirst, hiff]⟩

/-- The same when all of them have to. -/
theorem exists_allProvesPrune {args : List (Node D)} {depth : ℕ}
    (h : ∀ arg ∈ args, ∃ b, clauseProvesPrune pg g rows arg depth = .ok b) :
    ∃ b, allProvesPrune pg g rows args depth = .ok b ∧
      (b = true ↔ ∀ arg ∈ args, clauseProvesPrune pg g rows arg depth = .ok true) := by
  induction args with
  | nil => exact ⟨true, by rw [allProvesPrune], by simp⟩
  | cons arg args ih =>
      obtain ⟨rest, hrest, hiff⟩ := ih fun arg' harg' => h arg' (List.mem_cons_of_mem arg harg')
      obtain ⟨first, hfirst⟩ := h arg List.mem_cons_self
      rw [allProvesPrune]
      cases first with
      | true => exact ⟨rest, by simp [hfirst, hrest, bind, Except.bind], by simp [hfirst, hiff]⟩
      | false => exact ⟨false, by simp [hfirst, bind, Except.bind], by simp [hfirst]⟩

section Clauses

variable {cols : ∀ attnum, Option (BoundedColumn ord g rows attnum)}

variable (ex cols) in
/-- The leaf is decided on a column with bounds. -/
def LeafDecided (node : Node D) : Prop :=
  ∃ attnum col, cols attnum = some col ∧ DecidedOn ex col node

/-- The leaf proves a prune. -/
def Never (pg : Pg D) (g : Guc) (rows : List ColSummary) (node : Node D) : Prop :=
  leafProvesPrune pg g rows node = .ok true

theorem LeafDecided.never_iff {node : Node D} (h : LeafDecided ex cols node) :
    Never pg g rows node ↔ ∀ x ∈ allowedValues (cols (columnOf pg node)), ¬TrueAt pg ex node x := by
  obtain ⟨attnum, col, hcol, hdecided⟩ := h
  obtain ⟨b, hb, hiff⟩ := hdecided.decision
  have hallowed : allowedValues (cols attnum) = col.allows := by rw [hcol]; rfl
  rw [hdecided.column, hallowed, ← hiff, Never, hb]
  simp

/-- The formula is decided as the leaves refute it. -/
def ClauseDecided (pg : Pg D) (g : Guc) (rows : List ColSummary) (depth : ℕ)
    (f : Formula (Node D)) : Prop :=
  ∃ b, clauseProvesPrune pg g rows (clauseOf f) depth = .ok b ∧
    (b = true ↔ f.Refuted (Never pg g rows))

theorem ClauseDecided.iff {depth : ℕ} {f : Formula (Node D)}
    (h : ClauseDecided pg g rows depth f) :
    clauseProvesPrune pg g rows (clauseOf f) depth = .ok true ↔ f.Refuted (Never pg g rows) := by
  obtain ⟨b, hb, hiff⟩ := h
  rw [← hiff, hb]
  simp

theorem ClauseDecided.returns {depth : ℕ} {fs : List (Formula (Node D))}
    (h : ∀ f ∈ fs, ClauseDecided pg g rows depth f) :
    ∀ arg ∈ clausesOf fs, ∃ b, clauseProvesPrune pg g rows arg depth = .ok b := by
  intro arg harg
  obtain ⟨f, hf, rfl⟩ := mem_clausesOf.mp harg
  exact (h f hf).imp fun _ hb => hb.1

/-- A clause that is nested at most as deep as the recursion goes returns, and proves a
prune when the leaves refute it.  The induction is on the nesting. -/
theorem clauseDecided {f : Formula (Node D)} {n depth : ℕ} (hdepth : f.DepthLe n)
    (hle : depth + n ≤ 32) (hleaf : ∀ node, f.Mem node → LeafDecided ex cols node) :
    ClauseDecided pg g rows depth f := by
  induction hdepth generalizing depth with
  | leaf n node =>
      obtain ⟨attnum, col, -, hdecided⟩ := hleaf node .leaf
      obtain ⟨b, hb, -⟩ := hdecided.decision
      refine ⟨b, ?_, by simp [Never, hb]⟩
      rw [clauseOf, clauseProvesPrune.eq_def]
      split
      · exact absurd rfl (hdecided.noBool _ _)
      · rw [if_neg (by omega), hb]
  | @and n fs _ ih =>
      have hfs : ∀ f ∈ fs, ClauseDecided pg g rows (depth + 1) f := fun f hf =>
        ih f hf (by omega) fun node hnode => hleaf node (.and hf hnode)
      obtain ⟨b, hb, hiff⟩ := exists_anyProvesPrune (ClauseDecided.returns hfs)
      refine ⟨b, by rw [clauseOf, clauseProvesPrune, if_neg (by omega), hb], hiff.trans ?_⟩
      rw [Formula.refuted_and]
      constructor
      · rintro ⟨arg, harg, hprune⟩
        obtain ⟨f, hf, rfl⟩ := mem_clausesOf.mp harg
        exact ⟨f, hf, (hfs f hf).iff.mp hprune⟩
      · rintro ⟨f, hf, hrefuted⟩
        exact ⟨clauseOf f, mem_clausesOf.mpr ⟨f, hf, rfl⟩, (hfs f hf).iff.mpr hrefuted⟩
  | @or n fs _ ih =>
      have hfs : ∀ f ∈ fs, ClauseDecided pg g rows (depth + 1) f := fun f hf =>
        ih f hf (by omega) fun node hnode => hleaf node (.or hf hnode)
      obtain ⟨b, hb, hiff⟩ := exists_allProvesPrune (ClauseDecided.returns hfs)
      have hiff : b = true ↔ ∀ f ∈ fs, f.Refuted (Never pg g rows) := by
        rw [hiff]
        constructor
        · intro hall f hf
          exact (hfs f hf).iff.mp (hall _ (mem_clausesOf.mpr ⟨f, hf, rfl⟩))
        · intro hall arg harg
          obtain ⟨f, hf, rfl⟩ := mem_clausesOf.mp harg
          exact (hfs f hf).iff.mpr (hall f hf)
      cases fs with
      | nil => exact ⟨false, by rw [clauseOf, clauseProvesPrune, if_neg (by omega)]; rfl, by simp⟩
      | cons f fs =>
          refine ⟨b, ?_, by rw [Formula.refuted_or, hiff]; simp⟩
          rw [clauseOf, clauseProvesPrune, if_neg (by omega), hb]
          rfl

/-- Only the columns that the clause is decided on matter to its truth. -/
theorem sat_iff_truth {f : Formula (Node D)} {n : ℕ} (hdepth : f.DepthLe n)
    (hleaf : ∀ node, f.Mem node → LeafDecided ex cols node) (row : Row D) :
    f.Sat (columnOf pg) (TrueAt pg ex) row ↔ ex.truth pg row (clauseOf f) = some true := by
  induction hdepth with
  | leaf n node =>
      obtain ⟨attnum, col, -, hdecided⟩ := hleaf node .leaf
      rw [clauseOf, Formula.sat_leaf, hdecided.truth row, hdecided.column]
      exact Iff.rfl
  | @and n fs _ ih =>
      have hfs := fun f hf => ih f hf fun node hnode => hleaf node (.and hf hnode)
      rw [clauseOf, Executor.truth, conj_eq_true, Formula.sat_and]
      constructor
      · intro hall t ht
        obtain ⟨arg, harg, rfl⟩ := mem_truths ht
        obtain ⟨f, hf, rfl⟩ := mem_clausesOf.mp harg
        exact (hfs f hf).mp (hall f hf)
      · intro hall f hf
        exact (hfs f hf).mpr (hall _ (truth_mem_truths (mem_clausesOf.mpr ⟨f, hf, rfl⟩)))
  | @or n fs _ ih =>
      have hfs := fun f hf => ih f hf fun node hnode => hleaf node (.or hf hnode)
      rw [clauseOf, Executor.truth, disj_eq_true, Formula.sat_or]
      constructor
      · rintro ⟨f, hf, hsat⟩
        rw [← (hfs f hf).mp hsat]
        exact truth_mem_truths (mem_clausesOf.mpr ⟨f, hf, rfl⟩)
      · intro htrue
        obtain ⟨arg, harg, ht⟩ := mem_truths htrue
        obtain ⟨f, hf, rfl⟩ := mem_clausesOf.mp harg
        exact ⟨f, hf, (hfs f hf).mpr ht.symm⟩

/-- Without entries no leaf proves anything. -/
theorem leafProvesPrune_nil (g : Guc) (node : Node D) :
    leafProvesPrune pg g [] node = .ok false := by
  unfold leafProvesPrune
  split
  · rfl
  · rfl

/-- The clauses of a relation are decided as their conjunction. -/
theorem evaluateRelationInner_iff {fs : List (Formula (Node D))}
    (hdepth : ∀ f ∈ fs, f.DepthLe 32)
    (hleaf : ∀ node, (Formula.and fs).Mem node → LeafDecided ex cols node) :
    evaluateRelationInner pg g rows (clausesOf fs) = .ok true ↔
      (Formula.and fs).Refuted (Never pg g rows) := by
  have hfs : ∀ f ∈ fs, ClauseDecided pg g rows 0 f := fun f hf =>
    clauseDecided (hdepth f hf) (by omega) fun node hnode => hleaf node (.and hf hnode)
  by_cases hrows : rows = []
  · subst hrows
    simp only [evaluateRelationInner, List.isEmpty_nil, if_true, Except.ok.injEq,
      Bool.false_eq_true, false_iff]
    intro hrefuted
    obtain ⟨node, -, hnever⟩ := hrefuted.exists_leaf
    cases (leafProvesPrune_nil g node).symm.trans hnever
  · have hsome : rows.isEmpty = false := by simpa using hrows
    simp only [evaluateRelationInner, hsome, Bool.false_eq_true, if_false, Formula.refuted_and]
    constructor
    · intro h
      obtain ⟨arg, harg, hprune⟩ := anyM_eq_true h
      obtain ⟨f, hf, rfl⟩ := mem_clausesOf.mp harg
      exact ⟨f, hf, (hfs f hf).iff.mp hprune⟩
    · rintro ⟨f, hf, hrefuted⟩
      obtain ⟨b, hb⟩ := exists_anyM (ClauseDecided.returns hfs)
      cases b with
      | true => exact hb
      | false =>
          have hfalse := anyM_eq_false hb _ (mem_clausesOf.mpr ⟨f, hf, rfl⟩)
          cases hfalse.symm.trans ((hfs f hf).iff.mpr hrefuted)

/-- The clauses are not all satisfied. -/
theorem not_sat_iff {fs : List (Formula (Node D))} {n : ℕ} (hdepth : ∀ f ∈ fs, f.DepthLe n)
    (hleaf : ∀ node, (Formula.and fs).Mem node → LeafDecided ex cols node) (row : Row D) :
    ¬(Formula.and fs).Sat (columnOf pg) (TrueAt pg ex) row ↔
      ∃ clause ∈ clausesOf fs, ex.truth pg row clause ≠ some true := by
  have hsat (f : Formula (Node D)) (hf : f ∈ fs) :=
    sat_iff_truth (hdepth f hf) (fun node hnode => hleaf node (.and hf hnode)) row
  rw [Formula.sat_and]
  constructor
  · intro hnot
    by_contra hall
    push Not at hall
    exact hnot fun f hf => (hsat f hf).mpr (hall _ (mem_clausesOf.mpr ⟨f, hf, rfl⟩))
  · rintro ⟨clause, hclause, hfalse⟩ hall
    obtain ⟨f, hf, rfl⟩ := mem_clausesOf.mp hclause
    exact hfalse ((hsat f hf).mp (hall f hf))

end Clauses

theorem prunes_eq_true_iff {session : Session} (hruns : session.runs = true)
    (rows : List ColSummary) (clauses : List (Node D)) :
    prunes pg session rows clauses = true ↔
      evaluateRelationInner pg session.guc.pin rows clauses = .ok true := by
  rw [prunes, evaluateRelation, withStableIo_eq, if_pos hruns, Option.getD_some]
  cases evaluateRelationInner pg session.guc.pin rows clauses <;> simp

/-- Where the operands of every `AND` look at different columns, the relation is pruned
exactly when no row that the entries allow satisfies all of its clauses. -/
theorem prunes_iff (laws : ex.BtreeLaws ord) (returns : pg.CompareReturns) (session : Session)
    (hruns : session.runs = true) (rows : List ColSummary)
    (cols : ∀ attnum, Option (BoundedColumn ord session.guc.pin rows attnum))
    (fs : List (Formula (Node D))) (hdepth : ∀ f ∈ fs, f.DepthLe 32)
    (hsplits : (Formula.and fs).Splits (columnOf pg))
    (hleaf : ∀ node, (Formula.and fs).Mem node →
      ∃ attnum col, cols attnum = some col ∧ BoundedLeaf col node) :
    prunes pg session rows (clausesOf fs) = true ↔
      ∀ row : Row D, (∀ attnum, row attnum ∈ allowedValues (cols attnum)) →
        ∃ clause ∈ clausesOf fs, ex.truth pg row clause ≠ some true := by
  have hdecided : ∀ node, (Formula.and fs).Mem node → LeafDecided ex cols node := by
    intro node hnode
    obtain ⟨attnum, col, hcol, hbounded⟩ := hleaf node hnode
    exact ⟨attnum, col, hcol, hbounded.decided laws returns⟩
  rw [prunes_eq_true_iff hruns, evaluateRelationInner_iff hdepth hdecided,
    Formula.refuted_iff (exists_allowed cols) hsplits fun node hnode =>
      (hdecided node hnode).never_iff]
  exact forall₂_congr fun row _ => not_sat_iff hdepth hdecided row

/-! ## Two columns -/

/-- Two columns whose values lie between 3 and 7. -/
def Mini.twoEntries : List ColSummary := [Mini.entry 3 7, { Mini.entry 3 7 with attnum := 2 }]

def Mini.boundedColumn (attnum : Int16) (h : attnum = 1 ∨ attnum = 2) :
    BoundedColumn (Mini.order fun _ _ => id) Mini.session.guc.pin Mini.twoEntries attnum where
  entry := { Mini.entry 3 7 with attnum }
  family := Mini.int4
  parseType := Mini.int4
  lo := 3
  hi := 7
  pos := by rcases h with rfl | rfl <;> decide
  find := by rcases h with rfl | rfl <;> rfl
  hasBounds := by
    refine ⟨rfl, rfl, ?_⟩
    have hread (n : Int) : (Mini.pg fun _ _ => id).textToDatum Mini.session.guc.pin Mini.int4
        (Mini.text n) = .ok (some n) := Mini.textToDatum _ (by decide) n
    simp [parsedBounds, Mini.entry, hread, bind, Except.bind]
  le := show (3 : Int) ≤ 7 by decide
  allNulls := rfl

def Mini.boundedColumns (attnum : Int16) :
    Option (BoundedColumn (Mini.order fun _ _ => id) Mini.session.guc.pin Mini.twoEntries attnum) :=
  if h : attnum = 1 ∨ attnum = 2 then some (Mini.boundedColumn attnum h) else none

/-- `column op n`, for either column. -/
def Mini.columnNode (attnum : Int16) (strategy : UInt32) (n : Int) : Node Int :=
  .opExpr (Mini.op Mini.int4 strategy) invalidOid [.var attnum Mini.int4, .const Mini.int4 (some n)]

theorem Mini.btreeOperator {strategy : UInt32} (h : strategy = 1 ∨ strategy = 5) :
    BtreeOperator (Mini.pg fun _ _ => id) (Mini.op Mini.int4 strategy) false Mini.int4 := by
  rcases h with rfl | rfl
  · exact ⟨by decide, by decide, by decide⟩
  · exact ⟨by decide, by decide, by decide⟩

theorem Mini.boundedLeaf {attnum : Int16} (h : attnum = 1 ∨ attnum = 2) {strategy : UInt32}
    (hstrategy : strategy = 1 ∨ strategy = 5) (n : Int) :
    ∃ attnum' col, Mini.boundedColumns attnum' = some col ∧
      BoundedLeaf col (Mini.columnNode attnum strategy n) := by
  refine ⟨attnum, Mini.boundedColumn attnum h, dif_pos h, ?_⟩
  have htype : Mini.op Mini.int4 strategy / 8 = Mini.int4 := by
    rcases hstrategy with rfl | rfl <;> decide
  have hvc : varConst (.var attnum Mini.int4) (.const Mini.int4 (some n)) =
    some ⟨attnum, Mini.int4, Mini.int4, some n, false⟩ := rfl
  exact .compare hvc rfl rfl (Mini.btreeOperator hstrategy) htype

/-- `first < 3 OR (4 < first AND 9 < second)`. -/
theorem prunes_iff_int4 :
    prunes (Mini.pg fun _ _ => id) Mini.session Mini.twoEntries
        (clausesOf [.or [.leaf (Mini.columnNode 1 1 3),
          .and [.leaf (Mini.columnNode 1 5 4), .leaf (Mini.columnNode 2 5 9)]]]) = true ↔
      ∀ row : Row Int, (∀ attnum, row attnum ∈ allowedValues (Mini.boundedColumns attnum)) →
        ∃ clause ∈ clausesOf [.or [.leaf (Mini.columnNode 1 1 3),
          .and [.leaf (Mini.columnNode 1 5 4), .leaf (Mini.columnNode 2 5 9)]]],
          (Mini.executor fun _ _ => id).truth (Mini.pg fun _ _ => id) row clause ≠ some true := by
  have hfirst : columnOf (Mini.pg fun _ _ => id) (Mini.columnNode 1 5 4) = 1 := rfl
  have hsecond : columnOf (Mini.pg fun _ _ => id) (Mini.columnNode 2 5 9) = 2 := rfl
  refine prunes_iff (Mini.btreeLaws fun _ _ => id) ⟨fun _ _ _ _ => ⟨_, rfl⟩⟩ Mini.session rfl
    Mini.twoEntries Mini.boundedColumns _ ?_ ?_ ?_
  · intro f hf
    obtain rfl := List.mem_singleton.mp hf
    refine .or (n := 31) fun f hf => ?_
    rcases List.mem_pair.mp hf with rfl | rfl
    · exact .leaf _ _
    · refine .and (n := 30) fun f hf => ?_
      rcases List.mem_pair.mp hf with rfl | rfl <;> exact .leaf _ _
  · refine .and (fun f hf => ?_) (List.pairwise_singleton _ _)
    obtain rfl := List.mem_singleton.mp hf
    refine .or (by simp) fun f hf => ?_
    rcases List.mem_pair.mp hf with rfl | rfl
    · exact .leaf _
    · refine .and (fun f hf => ?_) ?_
      · rcases List.mem_pair.mp hf with rfl | rfl <;> exact .leaf _
      · simp [Formula.Looks, hfirst, hsecond]
  · simp only [Formula.mem_and, Formula.mem_or, Formula.mem_leaf, List.mem_cons, List.not_mem_nil,
      or_false, exists_eq_left, exists_eq_or_imp]
    rintro node (rfl | rfl | rfl)
    · exact Mini.boundedLeaf (.inl rfl) (.inl rfl) 3
    · exact Mini.boundedLeaf (.inl rfl) (.inr rfl) 4
    · exact Mini.boundedLeaf (.inr rfl) (.inr rfl) 9

/-- Two tests of one column are decided apart. -/
example : prunes (Mini.pg fun _ _ => id) Mini.session Mini.twoEntries
    [Mini.columnNode 1 1 5, Mini.columnNode 1 5 6] = false := by decide +kernel

end TableRange
