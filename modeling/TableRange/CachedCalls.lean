import TableRange.Lib.Calls
import TableRange.MiniPg

/-!
# The call records of a plan

While a statement is planned, compare procedures, input functions and the functions
of overlap operators are called through one `FmgrInfo` for each of them, which
`FMGR_MEMO` keeps until the plan is made.  A procedure may keep state in its record.

The first half is the evaluation of `src/prune_hook.rs` once more, this time as a
program whose calls go through such records; with fresh records it is the evaluation
of `Prune.lean`.  The second half is about `enum_cmp`, whose record remembers an enum
type: `cachedCalls_iff` says when its answers are those of fresh calls.
-/

namespace TableRange

open Lib.Calls

variable {D : Type}

/-! ## Calls -/

/-- A call through a record of `FMGR_MEMO`. -/
inductive FmgrCall (D : Type)
  /-- `cmp_cached`. -/
  | compare (cmpproc collation : Oid) (a b : D)
  /-- The call of `parse_cached`. -/
  | input (infunc : Oid) (g : Guc) (text : String) (ioparam : Oid)
  /-- The call of `eval_overlap`. -/
  | overlaps (opfunc collation : Oid) (a b : D)

namespace FmgrCall

def Result : FmgrCall D → Type
  | .compare .. => Int
  | .input .. => D
  | .overlaps .. => Bool

/-- The key of the record. -/
def proc : FmgrCall D → Oid
  | .compare cmpproc .. => cmpproc
  | .input infunc .. => infunc
  | .overlaps opfunc .. => opfunc

/-- The same call with a record of its own: `datum_cmp` for a comparison. -/
def fresh (pg : Pg D) : (c : FmgrCall D) → PgResult c.Result
  | .compare cmpproc collation a b => pg.compareCall cmpproc collation a b
  | .input infunc g text ioparam => pg.inputFunctionCall g infunc text ioparam
  | .overlaps opfunc collation a b => pg.boolCall opfunc collation a b

end FmgrCall

/-- A program that calls procedures. -/
abbrev Calls (D : Type) := Prog (FmgrCall D) FmgrCall.Result

/-- The server's procedures, which may keep something in their records. -/
structure Fmgr (pg : Pg D) where
  /-- An `FmgrInfo`, with what its procedure keeps in it. -/
  Info : Type
  /-- `fmgr_info` on zeroed memory. -/
  fmgrInfo : Oid → Info
  call : Info → (c : FmgrCall D) → PgResult c.Result × Info
  fresh : ∀ c, (call (fmgrInfo c.proc) c).1 = c.fresh pg

variable {pg : Pg D}

/-- `FMGR_MEMO`. -/
abbrev Fmgr.Memo (fmgr : Fmgr pg) := Oid → Option fmgr.Info

/-- `fmgr_cached`: the record of the plan, made at the first call. -/
def Fmgr.cached (fmgr : Fmgr pg) (memo : fmgr.Memo) (procOid : Oid) : fmgr.Info :=
  (memo procOid).getD (fmgr.fmgrInfo procOid)

/-- A call through the record of the plan.  What the procedure has kept stays there,
also after an `ERROR`. -/
def Fmgr.callCached (fmgr : Fmgr pg) (memo : fmgr.Memo) (c : FmgrCall D) :
    PgResult c.Result × fmgr.Memo :=
  let (result, info) := fmgr.call (fmgr.cached memo c.proc) c
  (result, Function.update memo c.proc (some info))

/-! ## The evaluation -/

namespace Cached

def cmpCached (cmpproc collation : Oid) (a b : D) : Calls D Int :=
  .call (.compare cmpproc collation a b) pure

/-- `InputFunctionCall(fmgr_cached(infunc), ..)`. -/
def inputCached (g : Guc) (infunc : Oid) (text : String) (ioparam : Oid) : Calls D D :=
  .call (.input infunc g text ioparam) pure

/-- `FunctionCall2Coll(fmgr_cached(opfunc), ..)`. -/
def boolCached (opfunc collation : Oid) (a b : D) : Calls D Bool :=
  .call (.overlaps opfunc collation a b) pure

def parseCached (pg : Pg D) (g : Guc) (typ : Oid) (text : String) : Calls D (Option D) :=
  let (infunc, ioparam) := pg.getTypeInputInfo typ
  if infunc = invalidOid then pure none
  else if 0 ∈ utf8Bytes text then pure none
  else do
    let d ← inputCached g infunc text ioparam
    pure (some d)

def parsedBounds (pg : Pg D) (g : Guc) (row : ColSummary) (parseType : Oid) :
    Calls D (Option (D × D)) :=
  match row.min, row.max with
  | some min, some max =>
      if row.unbounded then pure none
      else do
        match ← parseCached pg g parseType min with
        | none => pure none
        | some minD =>
            match ← parseCached pg g parseType max with
            | none => pure none
            | some maxD => pure (some (minD, maxD))
  | _, _ => pure none

def boundaryTest (cmp : D → Calls D Int) (strategy : Int) (minD maxD : D) : Calls D Bool :=
  match strategy with
  | 1 => do
      let c ← cmp minD
      pure (decide (0 ≤ c))
  | 2 => do
      let c ← cmp minD
      pure (decide (0 < c))
  | 3 => do
      let c ← cmp minD
      if 0 < c then pure true
      else do
        let c ← cmp maxD
        pure (decide (c < 0))
  | 4 => do
      let c ← cmp maxD
      pure (decide (c < 0))
  | 5 => do
      let c ← cmp maxD
      pure (decide (c ≤ 0))
  | _ => pure false

def evalCompare (pg : Pg D) (g : Guc) (row : ColSummary) (strategy : Int)
    (parseType cmpproc collation : Oid) (k : D) : Calls D Bool := do
  match ← parsedBounds pg g row parseType with
  | none => pure false
  | some (minD, maxD) =>
      boundaryTest (fun bound => cmpCached cmpproc collation bound k) strategy minD maxD

def elemInRange (cmpproc collation : Oid) (minD maxD d : D) : Calls D Bool := do
  let c ← cmpCached cmpproc collation minD d
  if 0 < c then pure false
  else do
    let c ← cmpCached cmpproc collation maxD d
    pure (decide (0 ≤ c))

def evalInList (pg : Pg D) (g : Guc) (row : ColSummary) (parseType cmpproc collation : Oid)
    (elems : List D) : Calls D Bool := do
  match ← parsedBounds pg g row parseType with
  | none => pure false
  | some (minD, maxD) => do
      let hit ← elems.anyM (elemInRange cmpproc collation minD maxD)
      pure (!hit)

def overlapCall (opfunc collation : Oid) (ext k : D) (commuted : Bool) : Calls D Bool :=
  if commuted then boolCached opfunc collation k ext else boolCached opfunc collation ext k

def evalOverlap (pg : Pg D) (g : Guc) (row : ColSummary) (parseType opfunc collation : Oid)
    (k : D) (commuted : Bool) : Calls D Bool :=
  match row.min with
  | none => pure false
  | some extent =>
      if row.unbounded then pure false
      else do
        match ← parseCached pg g parseType extent with
        | none => pure false
        | some ext => do
            let overlaps ← overlapCall opfunc collation ext k commuted
            pure (!overlaps)

def provesPrune (pg : Pg D) (g : Guc) (row : ColSummary) : QualSpec D → Calls D Bool
  | .null _ isNull => pure (if isNull then !row.hasNulls else row.allNulls)
  | .compare _ strategy parseType cmpproc collation konst =>
      if !row.overlap && row.collation == collation then
        evalCompare pg g row strategy parseType cmpproc collation konst
      else pure false
  | .inList _ parseType cmpproc collation elems =>
      if !row.overlap && row.collation == collation then
        evalInList pg g row parseType cmpproc collation elems
      else pure false
  | .overlap _ parseType opfunc collation konst commuted =>
      if row.overlap then evalOverlap pg g row parseType opfunc collation konst commuted
      else pure false

def leafProvesPrune (pg : Pg D) (g : Guc) (rows : List ColSummary) (node : Node D) :
    Calls D Bool :=
  match extractQual pg node with
  | none => pure false
  | some spec =>
      match rows.find? fun r => r.attnum == spec.attnum with
      | none => pure false
      | some row => provesPrune pg g row spec

mutual

def clauseProvesPrune (pg : Pg D) (g : Guc) (rows : List ColSummary) :
    Node D → Nat → Calls D Bool
  | .boolExpr boolop args, depth =>
      if 32 < depth then pure false
      else
        match boolop with
        | .andExpr => anyProvesPrune pg g rows args (depth + 1)
        | .orExpr => if args.isEmpty then pure false else allProvesPrune pg g rows args (depth + 1)
        | .notExpr => pure false
  | node, depth => if 32 < depth then pure false else leafProvesPrune pg g rows node

def anyProvesPrune (pg : Pg D) (g : Guc) (rows : List ColSummary) :
    List (Node D) → Nat → Calls D Bool
  | [], _ => pure false
  | node :: nodes, depth => do
      if ← clauseProvesPrune pg g rows node depth then pure true
      else anyProvesPrune pg g rows nodes depth

def allProvesPrune (pg : Pg D) (g : Guc) (rows : List ColSummary) :
    List (Node D) → Nat → Calls D Bool
  | [], _ => pure true
  | node :: nodes, depth => do
      if ← clauseProvesPrune pg g rows node depth then
        allProvesPrune pg g rows nodes depth
      else pure false

end

def evaluateRelationInner (pg : Pg D) (g : Guc) (rows : List ColSummary)
    (clauses : List (Node D)) : Calls D Bool :=
  if rows.isEmpty then pure false
  else clauses.anyM fun clause => clauseProvesPrune pg g rows clause 0

end Cached

/-! ## With fresh records -/

section Fresh

variable (pg) (g : Guc)

/-- What the program returns when every call has a record of its own. -/
def evalFresh {α : Type} (p : Calls D α) : PgResult α := p.eval (FmgrCall.fresh pg)

@[simp] theorem evalFresh_pure {α : Type} (a : α) : evalFresh pg (pure a) = .ok a := rfl

@[simp] theorem evalFresh_bind {α β : Type} (p : Calls D α) (f : α → Calls D β) :
    evalFresh pg (p >>= f) = evalFresh pg p >>= fun a => evalFresh pg (f a) :=
  Prog.eval_bind _ p f

@[simp] theorem evalFresh_ite {α : Type} {P : Prop} [Decidable P] (p q : Calls D α) :
    evalFresh pg (if P then p else q) = if P then evalFresh pg p else evalFresh pg q :=
  apply_ite (evalFresh pg) P p q

@[simp] theorem evalFresh_cmpCached (cmpproc collation : Oid) (a b : D) :
    evalFresh pg (Cached.cmpCached cmpproc collation a b) = pg.compareCall cmpproc collation a b :=
  Prog.eval_ask (FmgrCall.fresh pg) (.compare cmpproc collation a b)

@[simp] theorem evalFresh_inputCached (infunc : Oid) (text : String) (ioparam : Oid) :
    evalFresh pg (Cached.inputCached g infunc text ioparam) =
      pg.inputFunctionCall g infunc text ioparam :=
  Prog.eval_ask (FmgrCall.fresh pg) (.input infunc g text ioparam)

@[simp] theorem evalFresh_boolCached (opfunc collation : Oid) (a b : D) :
    evalFresh pg (Cached.boolCached opfunc collation a b) = pg.boolCall opfunc collation a b :=
  Prog.eval_ask (FmgrCall.fresh pg) (.overlaps opfunc collation a b)

@[simp] theorem evalFresh_parseCached (typ : Oid) (text : String) :
    evalFresh pg (Cached.parseCached pg g typ text) = pg.textToDatum g typ text := by
  simp only [Cached.parseCached, Pg.textToDatum, evalFresh_ite, evalFresh_bind, evalFresh_pure,
    evalFresh_inputCached]

@[simp] theorem evalFresh_parsedBounds (row : ColSummary) (parseType : Oid) :
    evalFresh pg (Cached.parsedBounds pg g row parseType) = parsedBounds pg g row parseType := by
  unfold Cached.parsedBounds parsedBounds
  cases row.min with
  | none => rfl
  | some min =>
      cases row.max with
      | none => rfl
      | some max =>
          simp only [evalFresh_ite, evalFresh_bind, evalFresh_pure, evalFresh_parseCached]
          congr 2
          funext minD
          cases minD with
          | none => rfl
          | some minD =>
              simp only [evalFresh_bind, evalFresh_parseCached]
              congr 1
              funext maxD
              cases maxD <;> rfl

theorem evalFresh_boundaryTest (cmp : D → Calls D Int) (strategy : Int) (minD maxD : D) :
    evalFresh pg (Cached.boundaryTest cmp strategy minD maxD) =
      boundaryTest (fun d => evalFresh pg (cmp d)) strategy minD maxD := by
  unfold Cached.boundaryTest boundaryTest
  split <;> simp only [evalFresh_bind, evalFresh_ite, evalFresh_pure]

theorem evalFresh_evalCompare (row : ColSummary) (strategy : Int)
    (parseType cmpproc collation : Oid) (k : D) :
    evalFresh pg (Cached.evalCompare pg g row strategy parseType cmpproc collation k) =
      evalCompare pg g row strategy parseType cmpproc collation k := by
  unfold Cached.evalCompare evalCompare
  rw [evalFresh_bind, evalFresh_parsedBounds]
  congr 1
  funext bounds
  cases bounds with
  | none => rfl
  | some bounds => simp only [evalFresh_boundaryTest, evalFresh_cmpCached]

theorem evalFresh_elemInRange (cmpproc collation : Oid) (minD maxD d : D) :
    evalFresh pg (Cached.elemInRange cmpproc collation minD maxD d) =
      elemInRange pg cmpproc collation minD maxD d := by
  simp only [Cached.elemInRange, elemInRange, evalFresh_bind, evalFresh_ite, evalFresh_pure,
    evalFresh_cmpCached]

theorem evalFresh_anyM {α : Type} (f : α → Calls D Bool) (xs : List α) :
    evalFresh pg (xs.anyM f) = xs.anyM fun x => evalFresh pg (f x) :=
  Prog.eval_anyM _ f xs

theorem evalFresh_evalInList (row : ColSummary) (parseType cmpproc collation : Oid)
    (elems : List D) :
    evalFresh pg (Cached.evalInList pg g row parseType cmpproc collation elems) =
      evalInList pg g row parseType cmpproc collation elems := by
  unfold Cached.evalInList evalInList
  rw [evalFresh_bind, evalFresh_parsedBounds]
  congr 1
  funext bounds
  cases bounds with
  | none => rfl
  | some bounds =>
      simp only [evalFresh_bind, evalFresh_pure, evalFresh_anyM, evalFresh_elemInRange]

theorem evalFresh_evalOverlap (row : ColSummary) (parseType opfunc collation : Oid) (k : D)
    (commuted : Bool) :
    evalFresh pg (Cached.evalOverlap pg g row parseType opfunc collation k commuted) =
      evalOverlap pg g row parseType opfunc collation k commuted := by
  unfold Cached.evalOverlap evalOverlap
  cases row.min with
  | none => rfl
  | some extent =>
      simp only [evalFresh_ite, evalFresh_bind, evalFresh_pure, evalFresh_parseCached]
      congr 2
      funext ext
      cases ext with
      | none => rfl
      | some ext =>
          simp only [Cached.overlapCall, overlapCall, evalFresh_ite, evalFresh_bind,
            evalFresh_pure, evalFresh_boolCached]

theorem evalFresh_provesPrune (row : ColSummary) (spec : QualSpec D) :
    evalFresh pg (Cached.provesPrune pg g row spec) = spec.provesPrune pg g row := by
  cases spec <;> simp only [Cached.provesPrune, QualSpec.provesPrune, evalFresh_ite,
    evalFresh_pure, evalFresh_evalCompare, evalFresh_evalInList, evalFresh_evalOverlap]

theorem evalFresh_leafProvesPrune (rows : List ColSummary) (node : Node D) :
    evalFresh pg (Cached.leafProvesPrune pg g rows node) = leafProvesPrune pg g rows node := by
  unfold Cached.leafProvesPrune leafProvesPrune
  cases extractQual pg node with
  | none => rfl
  | some spec =>
      simp only
      cases rows.find? fun r => r.attnum == spec.attnum with
      | none => rfl
      | some row => exact evalFresh_provesPrune pg g row spec

mutual

theorem evalFresh_clauseProvesPrune (rows : List ColSummary) (node : Node D) (depth : Nat) :
    evalFresh pg (Cached.clauseProvesPrune pg g rows node depth) =
      clauseProvesPrune pg g rows node depth := by
  match node with
  | .boolExpr boolop args =>
      cases boolop with
      | andExpr =>
          simp only [Cached.clauseProvesPrune, clauseProvesPrune, evalFresh_ite, evalFresh_pure,
            evalFresh_anyProvesPrune rows args]
      | orExpr =>
          simp only [Cached.clauseProvesPrune, clauseProvesPrune, evalFresh_ite, evalFresh_pure,
            evalFresh_allProvesPrune rows args]
      | notExpr =>
          simp only [Cached.clauseProvesPrune, clauseProvesPrune, evalFresh_ite, evalFresh_pure]
  | .opExpr .. | .scalarArrayOpExpr .. | .nullTest .. | .relabelType .. | .var .. | .const .. |
    .other _ =>
      simp only [Cached.clauseProvesPrune, clauseProvesPrune, evalFresh_ite, evalFresh_pure,
        evalFresh_leafProvesPrune]

theorem evalFresh_anyProvesPrune (rows : List ColSummary) (args : List (Node D)) (depth : Nat) :
    evalFresh pg (Cached.anyProvesPrune pg g rows args depth) =
      anyProvesPrune pg g rows args depth := by
  match args with
  | [] => rfl
  | node :: nodes =>
      simp only [Cached.anyProvesPrune, anyProvesPrune, evalFresh_bind, evalFresh_ite,
        evalFresh_pure, evalFresh_clauseProvesPrune rows node, evalFresh_anyProvesPrune rows nodes]

theorem evalFresh_allProvesPrune (rows : List ColSummary) (args : List (Node D)) (depth : Nat) :
    evalFresh pg (Cached.allProvesPrune pg g rows args depth) =
      allProvesPrune pg g rows args depth := by
  match args with
  | [] => rfl
  | node :: nodes =>
      simp only [Cached.allProvesPrune, allProvesPrune, evalFresh_bind, evalFresh_ite,
        evalFresh_pure, evalFresh_clauseProvesPrune rows node, evalFresh_allProvesPrune rows nodes]

end

theorem evalFresh_evaluateRelationInner (rows : List ColSummary) (clauses : List (Node D)) :
    evalFresh pg (Cached.evaluateRelationInner pg g rows clauses) =
      evaluateRelationInner pg g rows clauses := by
  simp only [Cached.evaluateRelationInner, evaluateRelationInner, evalFresh_ite, evalFresh_pure,
    evalFresh_anyM, evalFresh_clauseProvesPrune]

end Fresh

/-! ## Planning -/

/-- A relation that the hook is called for. -/
structure BaseRel (D : Type) where
  summary : List ColSummary
  clauses : List (Node D)

/-- The program of `evaluate_relation`; `unwrap_or(false)` when it is not run. -/
def BaseRel.evaluation (pg : Pg D) (session : Session) (rel : BaseRel D) : Calls D Bool :=
  (withStableIo session fun g => Cached.evaluateRelationInner pg g rel.summary rel.clauses).getD
    (pure false)

/-- `table_range_pathlist_hook`: an `ERROR` keeps the relation, and the records stay
as they are. -/
def pathlistHook (fmgr : Fmgr pg) (session : Session) (memo : fmgr.Memo) (rel : BaseRel D) :
    Bool × fmgr.Memo :=
  match (rel.evaluation pg session).run fmgr.callCached memo with
  | (.ok prune, memo) => (prune, memo)
  | (.error _, memo) => (false, memo)

/-- The decisions of a plan, whose hook is called for these relations one after the
other. -/
def planDecisions (fmgr : Fmgr pg) (session : Session) : fmgr.Memo → List (BaseRel D) → List Bool
  | _, [] => []
  | memo, rel :: rels =>
      let (prune, memo) := pathlistHook fmgr session memo rel
      prune :: planDecisions fmgr session memo rels

/-- The calls of the plan when each of them has a record of its own. -/
def planCalls (pg : Pg D) (session : Session) (rels : List (BaseRel D)) : List (FmgrCall D) :=
  rels.flatMap fun rel => (rel.evaluation pg session).calls (FmgrCall.fresh pg)

theorem evalFresh_evaluation (session : Session) (rel : BaseRel D) :
    evalFresh pg (rel.evaluation pg session) =
      evaluateRelation pg session rel.summary rel.clauses := by
  unfold BaseRel.evaluation evaluateRelation
  rw [withStableIo_eq, withStableIo_eq]
  split
  · exact evalFresh_evaluateRelationInner pg _ rel.summary rel.clauses
  · rfl

/-- While all records answer as fresh ones do, the hook decides as it does in a plan
of its own. -/
theorem pathlistHook_of_transparent (fmgr : Fmgr pg) (session : Session) {memo : fmgr.Memo}
    {rel : BaseRel D}
    (h : Prog.Transparent fmgr.callCached (FmgrCall.fresh pg) memo
      ((rel.evaluation pg session).calls (FmgrCall.fresh pg))) :
    pathlistHook fmgr session memo rel = (prunes pg session rel.summary rel.clauses,
      Prog.after fmgr.callCached memo ((rel.evaluation pg session).calls (FmgrCall.fresh pg))) := by
  obtain ⟨houtcome, hmemo⟩ := Prog.run_of_transparent _ h
  rw [← hmemo]
  unfold pathlistHook prunes
  rw [← evalFresh_evaluation, evalFresh]
  generalize (rel.evaluation pg session).run fmgr.callCached memo = done at houtcome ⊢
  rcases done with ⟨result, memo'⟩
  rcases houtcome.cases with ⟨prune, rfl, hfresh⟩ | ⟨e, e', rfl, hfresh⟩ <;> rw [hfresh]

theorem planDecisions_of_transparent (fmgr : Fmgr pg) (session : Session) {memo : fmgr.Memo}
    {rels : List (BaseRel D)}
    (h : Prog.Transparent fmgr.callCached (FmgrCall.fresh pg) memo (planCalls pg session rels)) :
    planDecisions fmgr session memo rels =
      rels.map fun rel => prunes pg session rel.summary rel.clauses := by
  induction rels generalizing memo with
  | nil => rfl
  | cons rel rels ih =>
      obtain ⟨hrel, hrels⟩ := Prog.transparent_append.mp h
      simp only [planDecisions, pathlistHook_of_transparent fmgr session hrel, List.map_cons]
      rw [ih hrels]

/-! ## The enum type that a record remembers -/

/-- `pg_enum`: the type of an enum value and its place in the order of the type. -/
structure EnumCatalog where
  enumtypid : Oid → Option Oid
  enumsortorder : Oid → Int

namespace EnumCatalog

variable (cat : EnumCatalog)

/-- Two values that `enum_cmp` cannot compare by their OIDs alone. -/
def NeedsType (a b : Oid) : Prop := a ≠ b ∧ ¬(a % 2 = 0 ∧ b % 2 = 0)

instance (a b : Oid) : Decidable (NeedsType a b) := by
  unfold NeedsType
  infer_instance

/-- Comparison in the order of one enum type. -/
def compareValues (typ a b : Oid) : PgResult Int :=
  if cat.enumtypid a = some typ ∧ cat.enumtypid b = some typ then
    .ok (cat.enumsortorder a - cat.enumsortorder b)
  else .error "enum value not found in cache"

/-- What is assumed of `enum_cmp`: its result, and the type its record remembers
afterwards.  The first call that needs a type looks up the one of its first argument. -/
def enumCmp (remembered : Option Oid) (a b : Oid) : PgResult Int × Option Oid :=
  if a = b then (.ok 0, remembered)
  else if a % 2 = 0 ∧ b % 2 = 0 then (.ok (if a < b then -1 else 1), remembered)
  else
    match remembered.or (cat.enumtypid a) with
    | none => (.error "invalid internal value for enum", none)
    | some typ => (cat.compareValues typ a b, some typ)

variable {cat}

theorem compareValues_of_foreign {typ a b : Oid}
    (h : ¬(cat.enumtypid a = some typ ∧ cat.enumtypid b = some typ)) :
    ∃ e, cat.compareValues typ a b = .error e := ⟨_, if_neg h⟩

theorem enumCmp_of_not_needsType {remembered : Option Oid} {a b : Oid} (h : ¬NeedsType a b) :
    (cat.enumCmp remembered a b).1 = (cat.enumCmp none a b).1 ∧
      (cat.enumCmp remembered a b).2 = remembered := by
  unfold enumCmp
  split
  · exact ⟨rfl, rfl⟩
  · rename_i hne
    split
    · exact ⟨rfl, rfl⟩
    · rename_i hodd
      exact absurd ⟨hne, hodd⟩ h

theorem enumCmp_of_needsType {remembered : Option Oid} {a b : Oid} (h : NeedsType a b) :
    cat.enumCmp remembered a b =
      match remembered.or (cat.enumtypid a) with
      | none => (.error "invalid internal value for enum", none)
      | some typ => (cat.compareValues typ a b, some typ) := by
  rw [enumCmp, if_neg h.1, if_neg h.2]

theorem enumCmp_remembers {remembered : Option Oid} {a b : Oid} (h : NeedsType a b) :
    (cat.enumCmp remembered a b).2 = remembered.or (cat.enumtypid a) := by
  rw [enumCmp_of_needsType h]
  cases remembered.or (cat.enumtypid a) <;> rfl

/-- A remembered type spoils the comparison of two values of another type, and no
other one. -/
theorem enumCmp_sameOutcome_iff {remembered : Option Oid} {a b : Oid} (h : NeedsType a b) :
    Prog.SameOutcome (cat.enumCmp remembered a b).1 (cat.enumCmp none a b).1 ↔
      ∀ typ, cat.enumtypid a = some typ → cat.enumtypid b = some typ →
        remembered.or (cat.enumtypid a) = some typ := by
  rw [enumCmp_of_needsType h, enumCmp_of_needsType h]
  cases remembered with
  | none => exact ⟨fun _ typ ha _ => ha, fun _ => rfl⟩
  | some typ =>
      simp only [Option.some_or, Option.none_or]
      cases ha : cat.enumtypid a with
      | none =>
          have hforeign : ∃ e, cat.compareValues typ a b = .error e :=
            compareValues_of_foreign (by simp [ha])
          obtain ⟨e, he⟩ := hforeign
          rw [he]
          exact ⟨fun _ typ' h => absurd h (by simp), fun _ => rfl⟩
      | some typ' =>
          by_cases htyp : typ = typ'
          · subst htyp
            exact ⟨fun _ t ht _ => ht, fun _ => rfl⟩
          · have hforeign : ∃ e, cat.compareValues typ a b = .error e :=
              compareValues_of_foreign (by simp [ha, Ne.symm htyp])
            obtain ⟨e, he⟩ := hforeign
            simp only [he]
            by_cases hb : cat.enumtypid b = some typ'
            · rw [compareValues, if_pos ⟨ha, hb⟩]
              constructor
              · intro hsame
                cases hsame
              · intro hall
                exact absurd (Option.some.inj (hall typ' rfl hb)) htyp
            · rw [compareValues, if_neg (not_and_of_not_right _ hb)]
              refine ⟨fun _ t ht hbt => ?_, fun _ => rfl⟩
              exact absurd (ht ▸ hbt) hb

end EnumCatalog

/-- The server's `enum_cmp`.  Every other procedure may save lookups in its record, but
answers the same without it. -/
structure EnumCmp (fmgr : Fmgr pg) where
  procOid : Oid
  cat : EnumCatalog
  /-- `DatumGetObjectId`. -/
  valueOid : D → Oid
  remembered : fmgr.Info → Option Oid
  remembered_fmgrInfo : remembered (fmgr.fmgrInfo procOid) = none
  compare : ∀ info collation a b,
    (fmgr.call info (.compare procOid collation a b)).1 =
        (cat.enumCmp (remembered info) (valueOid a) (valueOid b)).1 ∧
      remembered (fmgr.call info (.compare procOid collation a b)).2 =
        (cat.enumCmp (remembered info) (valueOid a) (valueOid b)).2
  others : ∀ info c, (∀ collation a b, c ≠ .compare procOid collation a b) →
    (fmgr.call info c).1 = c.fresh pg ∧
      (c.proc = procOid → remembered (fmgr.call info c).2 = remembered info)

namespace EnumCmp

variable {fmgr : Fmgr pg} (enum : EnumCmp fmgr)

/-- The values of a comparison for which `enum_cmp` needs a type. -/
def typedArgs : FmgrCall D → Option (Oid × Oid)
  | .compare cmpproc _ a b =>
      if cmpproc = enum.procOid ∧ EnumCatalog.NeedsType (enum.valueOid a) (enum.valueOid b) then
        some (enum.valueOid a, enum.valueOid b)
      else none
  | _ => none

/-- The type that a record without a type remembers after the call. -/
def lookedUp (c : FmgrCall D) : Option Oid :=
  (enum.typedArgs c).bind fun args => enum.cat.enumtypid args.1

/-- The call compares two values of the enum type, and needs the type. -/
def ComparesIn (c : FmgrCall D) (typ : Oid) : Prop :=
  ∃ args, enum.typedArgs c = some args ∧ enum.cat.enumtypid args.1 = some typ ∧
    enum.cat.enumtypid args.2 = some typ

theorem lookedUp_of_comparesIn {c : FmgrCall D} {typ : Oid} (h : enum.ComparesIn c typ) :
    enum.lookedUp c = some typ := by
  obtain ⟨args, hargs, htyp, -⟩ := h
  rw [lookedUp, hargs]
  exact htyp

/-- All comparisons that need a type are about the enum type that is looked up first. -/
def OneEnumType (calls : List (FmgrCall D)) : Prop :=
  ∀ c ∈ calls, ∀ typ, enum.ComparesIn c typ → (calls.filterMap enum.lookedUp).head? = some typ

/-- The type that the plan's record of `enum_cmp` remembers. -/
def rememberedIn (memo : fmgr.Memo) : Option Oid :=
  enum.remembered (fmgr.cached memo enum.procOid)

theorem rememberedIn_empty : enum.rememberedIn (fun _ => none) = none :=
  enum.remembered_fmgrInfo

/-- A comparison by `enum_cmp`, or a call for which the record does not matter. -/
theorem call_cases (c : FmgrCall D) :
    (∃ collation a b, c = .compare enum.procOid collation a b) ∨
      ((∀ collation a b, c ≠ .compare enum.procOid collation a b) ∧ enum.typedArgs c = none) := by
  cases c with
  | compare cmpproc collation a b =>
      by_cases hproc : cmpproc = enum.procOid
      · subst hproc
        exact Or.inl ⟨collation, a, b, rfl⟩
      · refine Or.inr ⟨fun _ _ _ h => hproc (FmgrCall.compare.inj h).1, ?_⟩
        exact if_neg fun h => hproc h.1
  | input => exact Or.inr ⟨by simp, rfl⟩
  | overlaps => exact Or.inr ⟨by simp, rfl⟩

/-- The record is the one that the call leaves. -/
theorem rememberedIn_callCached_self (memo : fmgr.Memo) {c : FmgrCall D}
    (hproc : c.proc = enum.procOid) :
    enum.rememberedIn (fmgr.callCached memo c).2 =
      enum.remembered (fmgr.call (fmgr.cached memo enum.procOid) c).2 := by
  change enum.remembered ((Function.update memo c.proc _ enum.procOid).getD _) = _
  rw [hproc, Function.update_self]
  rfl

theorem rememberedIn_callCached_of_ne (memo : fmgr.Memo) {c : FmgrCall D}
    (hproc : c.proc ≠ enum.procOid) :
    enum.rememberedIn (fmgr.callCached memo c).2 = enum.rememberedIn memo := by
  change enum.remembered ((Function.update memo c.proc _ enum.procOid).getD _) = _
  rw [Function.update_of_ne (Ne.symm hproc)]
  rfl

theorem callCached_remembers (memo : fmgr.Memo) (c : FmgrCall D) :
    enum.rememberedIn (fmgr.callCached memo c).2 =
      (enum.rememberedIn memo).or (enum.lookedUp c) := by
  rcases enum.call_cases c with ⟨collation, a, b, rfl⟩ | ⟨hother, hnone⟩
  · rw [enum.rememberedIn_callCached_self memo rfl, (enum.compare _ collation a b).2]
    by_cases hneeds : EnumCatalog.NeedsType (enum.valueOid a) (enum.valueOid b)
    · rw [EnumCatalog.enumCmp_remembers hneeds, lookedUp, typedArgs, if_pos ⟨rfl, hneeds⟩]
      rfl
    · rw [(EnumCatalog.enumCmp_of_not_needsType hneeds).2, lookedUp, typedArgs,
        if_neg fun h => hneeds h.2]
      exact Option.or_none.symm
  · rw [lookedUp, hnone, Option.bind_none, Option.or_none]
    by_cases hproc : c.proc = enum.procOid
    · rw [enum.rememberedIn_callCached_self memo hproc]
      exact (enum.others _ c hother).2 hproc
    · exact enum.rememberedIn_callCached_of_ne memo hproc

theorem callCached_sameOutcome_iff (memo : fmgr.Memo) (c : FmgrCall D) :
    Prog.SameOutcome (fmgr.callCached memo c).1 (c.fresh pg) ↔
      ∀ typ, enum.ComparesIn c typ → (enum.rememberedIn memo).or (enum.lookedUp c) = some typ := by
  rcases enum.call_cases c with ⟨collation, a, b, rfl⟩ | ⟨hother, hnone⟩
  · have hcached : (fmgr.callCached memo (.compare enum.procOid collation a b)).1 =
        (enum.cat.enumCmp (enum.rememberedIn memo) (enum.valueOid a) (enum.valueOid b)).1 :=
      (enum.compare _ collation a b).1
    have hfresh : FmgrCall.fresh pg (.compare enum.procOid collation a b) =
        (enum.cat.enumCmp none (enum.valueOid a) (enum.valueOid b)).1 := by
      rw [← fmgr.fresh, ← enum.remembered_fmgrInfo]
      exact (enum.compare _ collation a b).1
    rw [hcached, hfresh]
    by_cases hneeds : EnumCatalog.NeedsType (enum.valueOid a) (enum.valueOid b)
    · have hargs : enum.typedArgs (.compare enum.procOid collation a b) =
          some (enum.valueOid a, enum.valueOid b) := if_pos ⟨rfl, hneeds⟩
      refine (EnumCatalog.enumCmp_sameOutcome_iff hneeds).trans ?_
      simp only [ComparesIn, lookedUp, hargs, Option.some.injEq, exists_eq_left', and_imp,
        Option.bind_some]
    · have hargs : enum.typedArgs (.compare enum.procOid collation a b) = none :=
        if_neg fun h => hneeds h.2
      rw [(EnumCatalog.enumCmp_of_not_needsType hneeds).1]
      simp [ComparesIn, hargs, Prog.SameOutcome]
  · rw [show (fmgr.callCached memo c).1 = c.fresh pg from (enum.others _ c hother).1]
    simp [ComparesIn, hnone, Prog.SameOutcome]

theorem transparent_iff (memo : fmgr.Memo) (calls : List (FmgrCall D)) :
    Prog.Transparent fmgr.callCached (FmgrCall.fresh pg) memo calls ↔
      ∀ c ∈ calls, ∀ typ, enum.ComparesIn c typ →
        (enum.rememberedIn memo).or (calls.filterMap enum.lookedUp).head? = some typ := by
  induction calls generalizing memo with
  | nil => simp [Prog.Transparent]
  | cons c cs ih =>
      have hhead : ((c :: cs).filterMap enum.lookedUp).head? =
          (enum.lookedUp c).or (cs.filterMap enum.lookedUp).head? := by
        rw [List.filterMap_cons]
        cases enum.lookedUp c <;> rfl
      rw [Prog.Transparent, ih, enum.callCached_sameOutcome_iff, enum.callCached_remembers,
        List.forall_mem_cons, hhead, ← Option.or_assoc]
      refine and_congr_left fun _ => forall_congr' fun typ => forall_congr' fun hin => ?_
      rw [enum.lookedUp_of_comparesIn hin]
      cases enum.rememberedIn memo <;> simp

end EnumCmp

/-- The records of a plan answer as fresh ones do exactly when all comparisons of enum
values that need a type are about one type.  Then the decision about a relation does
not depend on what was evaluated before. -/
theorem cachedCalls_iff (fmgr : Fmgr pg) (enum : EnumCmp fmgr) :
    (∀ calls : List (FmgrCall D),
      (∀ done c rest, calls = done ++ c :: rest →
        Prog.SameOutcome
          (fmgr.callCached (Prog.after fmgr.callCached (fun _ => none) done) c).1 (c.fresh pg)) ↔
        enum.OneEnumType calls) ∧
    (∀ (session : Session) (rels : List (BaseRel D)),
      enum.OneEnumType (planCalls pg session rels) →
        planDecisions fmgr session (fun _ => none) rels =
          rels.map fun rel => prunes pg session rel.summary rel.clauses) := by
  have hiff (calls : List (FmgrCall D)) :
      Prog.Transparent fmgr.callCached (FmgrCall.fresh pg) (fun _ => none) calls ↔
        enum.OneEnumType calls := by
    rw [enum.transparent_iff, enum.rememberedIn_empty]
    simp only [Option.none_or]
    rfl
  refine ⟨fun calls => ?_, fun session rels h => ?_⟩
  · rw [← hiff, Prog.transparent_iff]
  · exact planDecisions_of_transparent fmgr session ((hiff _).mpr h)

section Mini

/-- Two enum types: 100 with the values below 16, and 200 with the others. -/
def enumCatalog : EnumCatalog where
  enumtypid value := some (if value < 16 then 100 else 200)
  enumsortorder value := value.toNat

def enumOid (d : Int) : Oid := UInt32.ofNat d.toNat

/-- `F_ENUM_CMP`. -/
def enumProc : Oid := 3514

/-- The small server with enum values. -/
def enumPg : Pg Int :=
  { Mini.pg fun _ _ => id with
    getOpfamilyProc := fun _ _ _ => enumProc
    compareCall := fun _ _ a b => (enumCatalog.enumCmp none (enumOid a) (enumOid b)).1 }

/-- The record of `enum_cmp` is the type it remembers; other procedures have no use for
theirs. -/
def enumCompare (info : Option Oid) (cmpproc : Oid) (a b : Int) : PgResult Int × Option Oid :=
  if cmpproc = enumProc then enumCatalog.enumCmp info (enumOid a) (enumOid b)
  else (enumPg.compareCall cmpproc invalidOid a b, info)

theorem enumCompare_other {cmpproc : Oid} (h : cmpproc ≠ enumProc) (info : Option Oid) (a b : Int) :
    (enumCompare info cmpproc a b).1 = enumPg.compareCall cmpproc invalidOid a b ∧
      (enumCompare info cmpproc a b).2 = info := by
  rw [enumCompare, if_neg h]
  exact ⟨rfl, rfl⟩

def enumFmgr : Fmgr enumPg where
  Info := Option Oid
  fmgrInfo _ := none
  call
    | info, .compare cmpproc _ a b => enumCompare info cmpproc a b
    | info, .input infunc g text ioparam => (enumPg.inputFunctionCall g infunc text ioparam, info)
    | info, .overlaps opfunc collation a b => (enumPg.boolCall opfunc collation a b, info)
  fresh
    | .compare cmpproc collation a b => by
        by_cases hproc : cmpproc = enumProc
        · subst hproc
          rfl
        · exact (enumCompare_other hproc none a b).1
    | .input .. => rfl
    | .overlaps .. => rfl

def enumFmgr_enumCmp : EnumCmp enumFmgr where
  procOid := enumProc
  cat := enumCatalog
  valueOid := enumOid
  remembered info := info
  remembered_fmgrInfo := rfl
  compare _ _ _ _ := ⟨rfl, rfl⟩
  others info c h := by
    cases c with
    | compare cmpproc collation a b =>
        have hproc : cmpproc ≠ enumProc := fun hproc => h collation a b (by rw [hproc])
        exact ⟨(enumCompare_other hproc info a b).1, fun _ => (enumCompare_other hproc info a b).2⟩
    | input => exact ⟨rfl, fun _ => rfl⟩
    | overlaps => exact ⟨rfl, fun _ => rfl⟩

/-- A table with the one value `n` of the enum type, and the clause `column > k`. -/
def enumRel (typ : Oid) (n k : Int) : BaseRel Int where
  summary := [Mini.entry n n]
  clauses := [.opExpr (Mini.op typ 5) invalidOid [.var 1 typ, .const typ (some k)]]

/-- Two tables of one enum type. -/
theorem cachedCalls_oneEnum :
    planDecisions enumFmgr Mini.session (fun _ => none) [enumRel 100 3 5, enumRel 100 5 7] =
      [prunes enumPg Mini.session [Mini.entry 3 3] (enumRel 100 3 5).clauses,
        prunes enumPg Mini.session [Mini.entry 5 5] (enumRel 100 5 7).clauses] := by
  refine (cachedCalls_iff enumFmgr enumFmgr_enumCmp).2 Mini.session
    [enumRel 100 3 5, enumRel 100 5 7] fun c hc typ hin => ?_
  have hlooked : ∀ c ∈ planCalls enumPg Mini.session [enumRel 100 3 5, enumRel 100 5 7],
      enumFmgr_enumCmp.lookedUp c = none ∨ enumFmgr_enumCmp.lookedUp c = some 100 := by
    decide +kernel
  have htyp := enumFmgr_enumCmp.lookedUp_of_comparesIn hin
  rcases hlooked c hc with hnone | hmood
  · cases hnone.symm.trans htyp
  · obtain rfl : 100 = typ := Option.some.inj (hmood.symm.trans htyp)
    decide +kernel

/-- The comparison of the second enum type fails after one of the first type, and its
relation is kept; planned alone, it is pruned. -/
theorem not_cachedCalls_twoEnums :
    let first : FmgrCall Int := .compare enumProc invalidOid 3 5
    let second : FmgrCall Int := .compare enumProc invalidOid 17 19
    ¬Prog.SameOutcome
        (enumFmgr.callCached (Prog.after enumFmgr.callCached (fun _ => none) [first]) second).1
        (second.fresh enumPg) ∧
      planDecisions enumFmgr Mini.session (fun _ => none) [enumRel 100 3 5, enumRel 200 17 19] =
        [true, false] ∧
      planDecisions enumFmgr Mini.session (fun _ => none) [enumRel 200 17 19, enumRel 100 3 5] =
        [true, false] ∧
      prunes enumPg Mini.session [Mini.entry 17 17] (enumRel 200 17 19).clauses = true := by
  refine ⟨?_, ?_, ?_, ?_⟩
  · intro hsame
    have hfailed : (none : Option Int) = some (-2) := hsame
    cases hfailed
  · decide +kernel
  · decide +kernel
  · decide +kernel

end Mini

end TableRange
