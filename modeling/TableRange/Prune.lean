import TableRange.Postgres

/-!
# Deciding a prune

`src/prune_hook.rs` without its per-plan memos, which only save lookups: from a
restriction clause to the decision whether a partition with a given summary can
be removed from the plan.

A memoised compare or input function is taken to do what a fresh call does, so
`cmp_cached` is `Pg.compareCall` and `parse_cached` is `Pg.textToDatum`.
An `ERROR` anywhere in the evaluation keeps the partition.
-/

namespace TableRange

variable {D : Type}

/-! ## Expression trees -/

inductive BoolExprType
  | andExpr | orExpr | notExpr
deriving DecidableEq, Repr

inductive NullTestType
  | isNull | isNotNull
deriving DecidableEq, Repr

/-- The planner's nodes, as far as the extension looks into them.  `other` is
any node it does not know, a null pointer included. -/
inductive Node (D : Type)
  | boolExpr (boolop : BoolExprType) (args : List (Node D))
  | opExpr (opno inputcollid : Oid) (args : List (Node D))
  | scalarArrayOpExpr (opno : Oid) (useOr : Bool) (inputcollid : Oid) (args : List (Node D))
  | nullTest (arg : Node D) (nulltesttype : NullTestType) (argisrow : Bool)
  | relabelType (arg : Node D) (resulttype : Oid)
  | var (varattno : Int16) (vartype : Oid)
  /-- `none`: `constisnull`. -/
  | const (consttype : Oid) (constvalue : Option D)
  | other (id : Nat)

def stripRelabel : Node D → Node D
  | .relabelType arg _ => stripRelabel arg
  | node => node

/-! ## Operators -/

structure CompareOp where
  /-- Strategy (1..=5) with the column on the left. -/
  strategy : Int
  varType : Oid
  cmpproc : Oid
deriving DecidableEq, Repr

def commuteStrategy (strategy : Int) : Int :=
  match strategy with
  | 1 => 5
  | 2 => 4
  | 3 => 3
  | 4 => 2
  | 5 => 1
  | other => other

def compareOp (pg : Pg D) (opno : Oid) (commuted : Bool) : Option CompareOp := do
  let (left, right) := pg.opInputTypes opno
  let (varType, constType) := if commuted then (right, left) else (left, right)
  let opfamily ← pg.defaultBtreeFamily varType
  let strategy := pg.getOpOpfamilyStrategy opno opfamily
  if strategy < 1 ∨ 5 < strategy then none
  else
    -- cross-type operators compare via the family's cross-type procedure
    let cmpproc := pg.getOpfamilyProc opfamily varType constType
    if cmpproc = invalidOid then none
    else some ⟨if commuted then commuteStrategy strategy else strategy, varType, cmpproc⟩

/-- A polymorphic operator input type cannot parse text; the column's can. -/
def summaryParseType (pg : Pg D) (opVarType vartype : Oid) : Oid :=
  if pg.getTyptype opVarType = 'p' then pg.getBaseType vartype else opVarType

/-- `PG_CATALOG_NAMESPACE`. -/
def pgCatalogNamespace : Oid := 11

/-- Only an `&&` from `pg_catalog` or the column type's schema is trusted. -/
def isTrustedOverlapOp (pg : Pg D) (opno vartype : Oid) : Bool :=
  if pg.getOpname opno ≠ some "&&" then false
  else
    let ns := pg.getFuncNamespace (pg.getOpcode opno)
    decide (ns = pgCatalogNamespace) ||
      decide (some ns = pg.typeNamespace (pg.getBaseType vartype))

/-! ## Clause extraction -/

inductive QualSpec (D : Type)
  | compare (attnum : Int16) (strategy : Int) (parseType cmpproc collation : Oid) (konst : D)
  | null (attnum : Int16) (isNull : Bool)
  | inList (attnum : Int16) (parseType cmpproc collation : Oid) (elems : List D)
  | overlap (attnum : Int16) (parseType opfunc collation : Oid) (konst : D) (commuted : Bool)

def QualSpec.attnum : QualSpec D → Int16
  | .compare attnum .. => attnum
  | .null attnum _ => attnum
  | .inList attnum .. => attnum
  | .overlap attnum .. => attnum

/-- A column and a constant that are compared: the column's attribute number and
type, the constant's type and value, and whether the column is on the right. -/
structure VarConst (D : Type) where
  varattno : Int16
  vartype : Oid
  consttype : Oid
  constvalue : Option D
  commuted : Bool

/-- The operands of a binary operator with a column on one side. -/
def varConst (left right : Node D) : Option (VarConst D) :=
  match stripRelabel left, stripRelabel right with
  | .var varattno vartype, .const consttype constvalue =>
      some ⟨varattno, vartype, consttype, constvalue, false⟩
  | .const consttype constvalue, .var varattno vartype =>
      some ⟨varattno, vartype, consttype, constvalue, true⟩
  | _, _ => none

def extractOpexpr (pg : Pg D) (opno inputcollid : Oid) (args : List (Node D)) :
    Option (QualSpec D) :=
  match args with
  | [left, right] => do
      let vc ← varConst left right
      let konst ← vc.constvalue
      if vc.varattno ≤ 0 then none
      else
        match compareOp pg opno vc.commuted with
        | some op =>
            some (.compare vc.varattno op.strategy (summaryParseType pg op.varType vc.vartype)
              op.cmpproc inputcollid konst)
        | none =>
            if isTrustedOverlapOp pg opno vc.vartype then
              some (.overlap vc.varattno (pg.getBaseType vc.vartype) (pg.getOpcode opno)
                inputcollid konst vc.commuted)
            else none
  | _ => none

def extractNulltest (arg : Node D) (nulltesttype : NullTestType) : Option (QualSpec D) :=
  match stripRelabel arg with
  | .var varattno _ =>
      if varattno ≤ 0 then none
      else
        some (.null varattno (match nulltesttype with
          | .isNull => true
          | .isNotNull => false))
  | _ => none

/-- NULL elements are dropped: they never match. -/
def arrayConstDatums (pg : Pg D) (consttype : Oid) (constvalue : D) : Option (List D) :=
  if pg.getElementType consttype = invalidOid then none
  else some ((pg.deconstructArray constvalue).filterMap id)

def extractSaop (pg : Pg D) (opno : Oid) (useOr : Bool) (inputcollid : Oid)
    (args : List (Node D)) : Option (QualSpec D) :=
  if !useOr then none
  else
    match args with
    | [left, right] =>
        match stripRelabel left, stripRelabel right with
        | .var varattno vartype, .const consttype constvalue => do
            let array ← constvalue
            if varattno ≤ 0 then none
            else do
              -- only equality has the "any element in range" semantics
              let op ← compareOp pg opno false
              if op.strategy ≠ 3 then none
              else do
                let elems ← arrayConstDatums pg consttype array
                some (.inList varattno (summaryParseType pg op.varType vartype) op.cmpproc
                  inputcollid elems)
        | _, _ => none
    | _ => none

def extractQual (pg : Pg D) : Node D → Option (QualSpec D)
  | .opExpr opno inputcollid args => extractOpexpr pg opno inputcollid args
  | .nullTest arg nulltesttype _ => extractNulltest arg nulltesttype
  | .scalarArrayOpExpr opno useOr inputcollid args => extractSaop pg opno useOr inputcollid args
  | _ => none

/-! ## Typed evaluation -/

/-- `none`: no usable range. -/
def parsedBounds (pg : Pg D) (g : Guc) (row : ColSummary) (parseType : Oid) :
    PgResult (Option (D × D)) :=
  match row.min, row.max with
  | some min, some max =>
      if row.unbounded then .ok none
      else do
        match ← pg.textToDatum g parseType min with
        | none => .ok none
        | some minD =>
            match ← pg.textToDatum g parseType max with
            | none => .ok none
            | some maxD => .ok (some (minD, maxD))
  | _, _ => .ok none

/-- The boundary tests; `||` does not evaluate its right side after a `true`. -/
def boundaryTest (cmp : D → PgResult Int) (strategy : Int) (minD maxD : D) : PgResult Bool :=
  match strategy with
  | 1 => do
      let c ← cmp minD
      .ok (decide (0 ≤ c))
  | 2 => do
      let c ← cmp minD
      .ok (decide (0 < c))
  | 3 => do
      let c ← cmp minD
      if 0 < c then .ok true
      else do
        let c ← cmp maxD
        .ok (decide (c < 0))
  | 4 => do
      let c ← cmp maxD
      .ok (decide (c < 0))
  | 5 => do
      let c ← cmp maxD
      .ok (decide (c ≤ 0))
  | _ => .ok false

def evalCompare (pg : Pg D) (g : Guc) (row : ColSummary) (strategy : Int)
    (parseType cmpproc collation : Oid) (k : D) : PgResult Bool := do
  match ← parsedBounds pg g row parseType with
  | none => .ok false
  | some (minD, maxD) =>
      boundaryTest (fun bound => pg.compareCall cmpproc collation bound k) strategy minD maxD

/-- Whether the listed value falls within the bounds. -/
def elemInRange (pg : Pg D) (cmpproc collation : Oid) (minD maxD d : D) : PgResult Bool := do
  let c ← pg.compareCall cmpproc collation minD d
  if 0 < c then .ok false
  else do
    let c ← pg.compareCall cmpproc collation maxD d
    .ok (decide (0 ≤ c))

def evalInList (pg : Pg D) (g : Guc) (row : ColSummary) (parseType cmpproc collation : Oid)
    (elems : List D) : PgResult Bool := do
  match ← parsedBounds pg g row parseType with
  | none => .ok false
  | some (minD, maxD) => do
      let hit ← elems.anyM (elemInRange pg cmpproc collation minD maxD)
      .ok (!hit)

/-- The constant keeps its side of the operator. -/
def overlapCall (pg : Pg D) (opfunc collation : Oid) (ext k : D) (commuted : Bool) :
    PgResult Bool :=
  if commuted then pg.boolCall opfunc collation k ext else pg.boolCall opfunc collation ext k

def evalOverlap (pg : Pg D) (g : Guc) (row : ColSummary) (parseType opfunc collation : Oid)
    (k : D) (commuted : Bool) : PgResult Bool :=
  match row.min with
  | none => .ok false
  | some extent =>
      if row.unbounded then .ok false
      else do
        match ← pg.textToDatum g parseType extent with
        | none => .ok false
        | some ext => do
            let overlaps ← overlapCall pg opfunc collation ext k commuted
            .ok (!overlaps)

def QualSpec.provesPrune (pg : Pg D) (g : Guc) (row : ColSummary) : QualSpec D → PgResult Bool
  | .null _ isNull => .ok (if isNull then !row.hasNulls else row.allNulls)
  -- min/max order says nothing about another collation's order
  | .compare _ strategy parseType cmpproc collation konst =>
      if !row.overlap && row.collation == collation then
        evalCompare pg g row strategy parseType cmpproc collation konst
      else .ok false
  | .inList _ parseType cmpproc collation elems =>
      if !row.overlap && row.collation == collation then
        evalInList pg g row parseType cmpproc collation elems
      else .ok false
  | .overlap _ parseType opfunc collation konst commuted =>
      if row.overlap then evalOverlap pg g row parseType opfunc collation konst commuted
      else .ok false

/-! ## Whole clauses -/

/-- The first entry for the qual's attribute decides. -/
def leafProvesPrune (pg : Pg D) (g : Guc) (rows : List ColSummary) (node : Node D) :
    PgResult Bool :=
  match extractQual pg node with
  | none => .ok false
  | some spec =>
      match rows.find? fun r => r.attnum == spec.attnum with
      | none => .ok false
      | some row => spec.provesPrune pg g row

mutual

/-- Below depth 32 nothing is decided. -/
def clauseProvesPrune (pg : Pg D) (g : Guc) (rows : List ColSummary) :
    Node D → Nat → PgResult Bool
  | .boolExpr boolop args, depth =>
      if 32 < depth then .ok false
      else
        match boolop with
        | .andExpr => anyProvesPrune pg g rows args (depth + 1)
        | .orExpr => if args.isEmpty then .ok false else allProvesPrune pg g rows args (depth + 1)
        | .notExpr => .ok false
  | node, depth => if 32 < depth then .ok false else leafProvesPrune pg g rows node

/-- `args.iter_ptr().any(..)`. -/
def anyProvesPrune (pg : Pg D) (g : Guc) (rows : List ColSummary) :
    List (Node D) → Nat → PgResult Bool
  | [], _ => .ok false
  | node :: nodes, depth => do
      if ← clauseProvesPrune pg g rows node depth then .ok true
      else anyProvesPrune pg g rows nodes depth

/-- `args.iter_ptr().all(..)`. -/
def allProvesPrune (pg : Pg D) (g : Guc) (rows : List ColSummary) :
    List (Node D) → Nat → PgResult Bool
  | [], _ => .ok true
  | node :: nodes, depth => do
      if ← clauseProvesPrune pg g rows node depth then
        allProvesPrune pg g rows nodes depth
      else .ok false

end

/-- `summary.map(|s| s.cols).unwrap_or_default()` of `read_index_summary`. -/
def summaryCols (summary : Option IndexSummary) : List ColSummary :=
  (summary.map IndexSummary.cols).getD []

/-- The clauses of `baserestrictinfo` are implicitly AND-ed.  Without a summary
nothing is pruned. -/
def evaluateRelationInner (pg : Pg D) (g : Guc) (rows : List ColSummary)
    (clauses : List (Node D)) : PgResult Bool :=
  if rows.isEmpty then .ok false
  else clauses.anyM fun clause => clauseProvesPrune pg g rows clause 0

def evaluateRelation (pg : Pg D) (session : Session) (rows : List ColSummary)
    (clauses : List (Node D)) : PgResult Bool :=
  (withStableIo session fun g => evaluateRelationInner pg g rows clauses).getD (.ok false)

/-- The decision of `table_range_pathlist_hook`: `catch_others(|_| false)`. -/
def prunes (pg : Pg D) (session : Session) (rows : List ColSummary) (clauses : List (Node D)) :
    Bool :=
  match evaluateRelation pg session rows clauses with
  | .ok prune => prune
  | .error _ => false

/-- Without a summary nothing is pruned. -/
theorem prunes_nil (pg : Pg D) (session : Session) (clauses : List (Node D)) :
    prunes pg session [] clauses = false := by
  unfold prunes evaluateRelation
  cases h : withStableIo session fun g => evaluateRelationInner pg g [] clauses with
  | none => rfl
  | some r =>
      rw [withStableIo_eq_some h]
      rfl

end TableRange
