import TableRange.CacheCoherence
import TableRange.PlanState
import TableRange.SharedRecords

/-!
# Planning with the hook changes no answer

`table_range_pathlist_hook` from its arguments to `mark_dummy_rel`: which relations it
looks at, where it finds their summaries, and what of the backend it reads and writes
on the way: the summaries of the plan, those of the backend, and the call records.

A relation that is marked as dummy is not scanned.  `plan_keeps_answer` says that the
rows which a plan returns are those it would return without the hook, for any relations
in any order, while other backends widen the pages and invalidate the caches between
two calls of the hook.

The hook keeps summaries by the oid of the table, and never reads `rte->inh`.  A parent in
traditional inheritance has its oid twice in a plan, once for itself and once for the whole
tree, and its summary is about its own rows.  `Apart` excludes such plans if the parent has an
index of the access method, and `plan_loses_children` is one that loses a row.
-/

namespace TableRange

open Lib.Calls Lib.Fallible

variable {D : Type} {pg : Pg D}

/-! ## What the hook is given -/

inductive RelOptKind
  | baseRel | otherMemberRel | other
deriving DecidableEq, Repr

inductive RteKind
  | relation | other
deriving DecidableEq, Repr

structure IndexOptInfo where
  indexoid : Oid
  relam : Oid
deriving DecidableEq, Repr

/-- The arguments `rel` and `rte`.  A NULL list is an empty one. -/
structure RelOptInfo (D : Type) where
  reloptkind : RelOptKind
  rtekind : RteKind
  relid : Oid
  /-- `rte->inh`: whether the rows of the children are read too. -/
  inh : Bool
  indexlist : List IndexOptInfo
  baserestrictinfo : List (Node D)

/-- What `index_open` finds. -/
structure IndexRelation where
  /-- `RELKIND_PARTITIONED_INDEX`. -/
  partitioned : Bool
  file : IndexFile

/-- The server at the moment of a call: `get_am_oid` for the access method, the indexes,
and the setting `table_range.enable_pruning`. -/
structure Server where
  amOid : Oid
  indexOpen : Oid → IndexRelation
  enablePruning : Bool

/-- What the backend keeps between the calls. -/
structure HookState (fmgr : Fmgr pg) where
  locals : PlanLocals
  /-- `FMGR_MEMO` with what the procedures keep in their records. -/
  records : fmgr.Memo
  /-- `summary_cache`. -/
  summaries : SummaryCache

/-! ## Reading the summary -/

/-- The entries of an index that is not cached. -/
def IndexRelation.cols (irel : IndexRelation) : List ColSummary :=
  summaryCols (if irel.partitioned then none else readSummary irel.file)

/-- The loop of `read_index_summary`. -/
def readFirstIndex (server : Server) (am : Oid) (summaries : SummaryCache) :
    List IndexOptInfo → List ColSummary × SummaryCache
  | [] => ([], summaries)
  | idx :: indexes =>
      if idx.relam ≠ am then readFirstIndex server am summaries indexes
      else
        match summaries.get idx.indexoid with
        | some cached => (cached, summaries)
        | none =>
            let cols := (server.indexOpen idx.indexoid).cols
            (cols, summaries.put idx.indexoid cols)

def readIndexSummary (server : Server) (am : Oid) (summaries : SummaryCache)
    (rel : RelOptInfo D) : List ColSummary × SummaryCache :=
  if am = invalidOid then ([], summaries)
  else readFirstIndex server am summaries rel.indexlist

/-- `load_summary`. -/
def HookState.loadSummary {fmgr : Fmgr pg} (server : Server) (rel : RelOptInfo D)
    (st : HookState fmgr) : HookState fmgr :=
  match st.locals.cache rel.relid with
  | some _ => st
  | none =>
      let (am, locals) := st.locals.tableRangeAmOid server.amOid
      let (cols, summaries) := readIndexSummary server am st.summaries rel
      { st with locals := locals.loadSummary rel.relid cols, summaries }

/-! ## The hook -/

/-- `evaluate_relation_inner`. -/
def HookState.evaluateInner {fmgr : Fmgr pg} (server : Server) (rel : RelOptInfo D) (g : Guc)
    (st : HookState fmgr) : PgResult Bool × HookState fmgr :=
  let st := st.loadSummary server rel
  let rows := (st.locals.cache rel.relid).getD []
  let (result, records) :=
    (Cached.evaluateRelationInner pg g rows rel.baserestrictinfo).run fmgr.callCached st.records
  (result, { st with records })

/-- `evaluate_relation`. -/
def HookState.evaluate {fmgr : Fmgr pg} (session : Session) (server : Server)
    (rel : RelOptInfo D) (st : HookState fmgr) : PgResult Bool × HookState fmgr :=
  (withStableIo session fun g => st.evaluateInner server rel g).getD (.ok false, st)

/-- The relations that the hook looks at. -/
def RelOptInfo.eligible (rel : RelOptInfo D) : Bool :=
  rel.reloptkind != .other && rel.rtekind == .relation && rel.relid != invalidOid

/-- `table_range_pathlist_hook`: whether it calls `mark_dummy_rel`.  An `ERROR` keeps the
relation and leaves behind what has been done. -/
def tableRangePathlistHook {fmgr : Fmgr pg} (session : Session) (server : Server)
    (rel : RelOptInfo D) (st : HookState fmgr) : Bool × HookState fmgr :=
  if st.locals.inHook then (false, st)
  else if !server.enablePruning || !rel.eligible then (false, st)
  else
    let st := { st with locals := { st.locals with inHook := true } }
    let (result, st) := st.evaluate session server rel
    let st := { st with locals := { st.locals with inHook := false } }
    (match result with
      | .ok prune => prune
      | .error _ => false, st)

/-- One call of the hook, and what happens to the backend before it: invalidations are
processed, and other backends have written their pages. -/
structure HookCall (D : Type) where
  messages : List Oid
  session : Session
  server : Server
  rel : RelOptInfo D

def HookCall.step {fmgr : Fmgr pg} (call : HookCall D) (st : HookState fmgr) :
    Bool × HookState fmgr :=
  tableRangePathlistHook call.session call.server call.rel
    { st with summaries := processMessages st.summaries call.messages }

/-- The relations of a plan, each with the decision about it. -/
def planRelations {fmgr : Fmgr pg} : List (HookCall D) → HookState fmgr → List (RelOptInfo D × Bool)
  | [], _ => []
  | call :: calls, st =>
      let (dummy, st) := call.step st
      (call.rel, dummy) :: planRelations calls st

/-! ## What the plan returns -/

/-- The rows of the relation that all its clauses are true on. -/
def Executor.scan (ex : Executor D) (pg : Pg D) (rows : List (Row D)) (clauses : List (Node D)) :
    List (Row D) :=
  rows.filter fun row => clauses.all fun clause => ex.truth pg row clause = some true

/-- A dummy relation is not scanned.  `rows` are those that a relation reads, without its
children or with them. -/
def Executor.execute (ex : Executor D) (pg : Pg D) (rows : Oid → Bool → List (Row D))
    (plan : List (RelOptInfo D × Bool)) : List (List (Row D)) :=
  plan.map fun (rel, dummy) =>
    if dummy then [] else ex.scan pg (rows rel.relid rel.inh) rel.baserestrictinfo

/-! ## The summaries that a plan uses -/

/-- An index of the server. -/
structure CatalogIndex (D : Type) extends IndexedLeaf D where
  /-- `RELKIND_PARTITIONED_INDEX`. -/
  partitioned : Bool

section Plan

variable (ord : pg.BtreeOrder) (eord : pg.ExtentOrder) (ex : Executor D)
  (catalog : Oid → CatalogIndex D) (rows : Oid → Bool → List (Row D)) (am : Oid)
  (trees : Set Oid) {fmgr : Fmgr pg}

/-- The entries admit what the query sees of the table of the index itself.  A partitioned
index has no entries. -/
def AdmitsRows (indexoid : Oid) (cols : List ColSummary) : Prop :=
  cols = [] ∨ (catalog indexoid).partitioned = false ∧
    ∀ row ∈ rows (catalog indexoid).heapoid false,
      Admits ord eord (catalog indexoid).toIndexedLeaf cols row

/-- The relation of the call is one of the catalog, its pages admit the rows of the table, and
its clauses are such that pruning with them is sound.  The tables in `trees` are read with
their children. -/
structure HookCall.Sound (call : HookCall D) : Prop where
  amOid : call.server.amOid = am
  inh : call.rel.inh = true → call.rel.relid ∈ trees
  indexes : ∀ idx ∈ call.rel.indexlist, (catalog idx.indexoid).heapoid = call.rel.relid
  apart : ∀ idx ∈ call.rel.indexlist, idx.relam = am →
    (catalog idx.indexoid).partitioned = false → call.rel.relid ∉ trees
  pages : ∀ idx ∈ call.rel.indexlist, idx.relam = am →
    AdmitsRows ord eord catalog rows idx.indexoid (call.server.indexOpen idx.indexoid).cols
  clauses : ∀ clause ∈ call.rel.baserestrictinfo, ∀ indexoid,
    (catalog indexoid).heapoid = call.rel.relid → ∀ row ∈ rows call.rel.relid false, ∀ node,
      Leaf node clause → LeafScope ord eord ex (catalog indexoid).attrs row node

/-- What the plan may keep for a table. -/
def Serves (relid : Oid) (cols : List ColSummary) : Prop :=
  cols = [] ∨ relid ∉ trees ∧
    ∃ indexoid, (catalog indexoid).heapoid = relid ∧ AdmitsRows ord eord catalog rows indexoid cols

/-- Between two calls the backend keeps nothing that is narrower than the rows. -/
structure HookState.Inv (st : HookState fmgr) : Prop where
  amOid : st.locals.amOid = none ∨ st.locals.amOid = some am
  cache : ∀ relid cols, st.locals.cache relid = some cols →
    Serves ord eord catalog rows trees relid cols
  records : fmgr.MemoUsed st.records
  summaries : ∀ indexoid cols, st.summaries indexoid = some cols →
    AdmitsRows ord eord catalog rows indexoid cols

variable {ord eord ex catalog rows am trees}

/-- The summaries that `read_index_summary` returns and caches. -/
theorem readFirstIndex_spec {server : Server} {indexes : List IndexOptInfo} {relid : Oid}
    (hindexes : ∀ idx ∈ indexes, (catalog idx.indexoid).heapoid = relid)
    (hapart : ∀ idx ∈ indexes, idx.relam = am → (catalog idx.indexoid).partitioned = false →
      relid ∉ trees)
    (hpages : ∀ idx ∈ indexes, idx.relam = am →
      AdmitsRows ord eord catalog rows idx.indexoid (server.indexOpen idx.indexoid).cols)
    {summaries : SummaryCache} (hsummaries : ∀ indexoid cols, summaries indexoid = some cols →
      AdmitsRows ord eord catalog rows indexoid cols) :
    Serves ord eord catalog rows trees relid (readFirstIndex server am summaries indexes).1 ∧
      ∀ indexoid cols, (readFirstIndex server am summaries indexes).2 indexoid = some cols →
        AdmitsRows ord eord catalog rows indexoid cols := by
  induction indexes with
  | nil => exact ⟨Or.inl rfl, hsummaries⟩
  | cons idx indexes ih =>
      rw [readFirstIndex]
      split
      · exact ih (fun i hi => hindexes i (List.mem_cons_of_mem _ hi))
          (fun i hi => hapart i (List.mem_cons_of_mem _ hi))
          fun i hi => hpages i (List.mem_cons_of_mem _ hi)
      · rename_i hrelam
        have hrelam := not_not.mp hrelam
        have hserves {cols : List ColSummary}
            (hcols : AdmitsRows ord eord catalog rows idx.indexoid cols) :
            Serves ord eord catalog rows trees relid cols :=
          hcols.imp_right fun hleaf => ⟨hapart idx List.mem_cons_self hrelam hleaf.1,
            idx.indexoid, hindexes idx List.mem_cons_self, hcols⟩
        split
        · rename_i cached hcached
          exact ⟨hserves (hsummaries _ _ hcached), hsummaries⟩
        · have hpage := hpages idx List.mem_cons_self hrelam
          refine ⟨hserves hpage, fun indexoid cols hcols => ?_⟩
          change Function.update summaries idx.indexoid _ indexoid = some cols at hcols
          by_cases hidx : indexoid = idx.indexoid
          · subst hidx
            rw [Function.update_self] at hcols
            exact Option.some.inj hcols ▸ hpage
          · rw [Function.update_of_ne hidx] at hcols
            exact hsummaries indexoid cols hcols

theorem readIndexSummary_spec {call : HookCall D}
    (hcall : call.Sound ord eord ex catalog rows am trees)
    {summaries : SummaryCache} (hsummaries : ∀ indexoid cols, summaries indexoid = some cols →
      AdmitsRows ord eord catalog rows indexoid cols) :
    Serves ord eord catalog rows trees call.rel.relid
        (readIndexSummary call.server am summaries call.rel).1 ∧
      ∀ indexoid cols, (readIndexSummary call.server am summaries call.rel).2 indexoid = some cols →
        AdmitsRows ord eord catalog rows indexoid cols := by
  unfold readIndexSummary
  split
  · exact ⟨Or.inl rfl, hsummaries⟩
  · exact readFirstIndex_spec hcall.indexes hcall.apart hcall.pages hsummaries

theorem HookState.Inv.loadSummary {call : HookCall D} {st : HookState fmgr}
    (hcall : call.Sound ord eord ex catalog rows am trees)
    (h : st.Inv ord eord catalog rows am trees) :
    (st.loadSummary call.server call.rel).Inv ord eord catalog rows am trees := by
  unfold HookState.loadSummary
  split
  · exact h
  · rename_i hnone
    have hlookup : st.locals.tableRangeAmOid call.server.amOid =
        (am, { st.locals with amOid := some am }) := by
      unfold PlanLocals.tableRangeAmOid
      rcases h.amOid with hno | hsome
      · rw [hno, hcall.amOid]
      · rw [hsome]
        simp only [Prod.mk.injEq, true_and]
        rw [← hsome]
    obtain ⟨hcols, hsummaries⟩ := readIndexSummary_spec hcall h.summaries
    rw [hlookup]
    refine ⟨Or.inr ?_, fun relid cols hcache => ?_, h.records, hsummaries⟩
    · simp [PlanLocals.loadSummary, hnone]
    · simp only [PlanLocals.loadSummary, hnone] at hcache
      by_cases hrelid : relid = call.rel.relid
      · subst hrelid
        rw [Function.update_self] at hcache
        exact Option.some.inj hcache ▸ hcols
      · rw [Function.update_of_ne hrelid] at hcache
        exact h.cache relid cols hcache

/-! ## One call -/

/-- What `evaluate_relation_inner` decides: a prune means that one of the clauses is
true on no row. -/
theorem HookState.Inv.evaluateInner (io : pg.TextRoundTrip) (laws : ex.BtreeLaws ord)
    (hfmgr : fmgr.Cautious) {call : HookCall D} {st : HookState fmgr}
    (hcall : call.Sound ord eord ex catalog rows am trees)
    (h : st.Inv ord eord catalog rows am trees)
    {g : Guc} (hg : g.Stable) :
    (st.evaluateInner call.server call.rel g).2.Inv ord eord catalog rows am trees ∧
      ((st.evaluateInner call.server call.rel g).1 = .ok true →
        ∀ row ∈ rows call.rel.relid call.rel.inh, ∃ clause ∈ call.rel.baserestrictinfo,
          ex.truth pg row clause ≠ some true) := by
  have hload := h.loadSummary hcall
  unfold HookState.evaluateInner
  generalize st.loadSummary call.server call.rel = st at hload
  obtain ⟨hused, hagrees⟩ := Prog.run_of_cautious hfmgr.calls
    (Cached.evaluateRelationInner pg g ((st.locals.cache call.rel.relid).getD [])
      call.rel.baserestrictinfo) hload.records
  refine ⟨⟨hload.amOid, hload.cache, hused, hload.summaries⟩, fun hprune row hrow => ?_⟩
  have hfresh := hagrees true hprune
  rw [show Prog.eval (FmgrCall.fresh pg) _ = evalFresh pg _ from rfl,
    evalFresh_evaluateRelationInner, evaluateRelationInner] at hfresh
  split at hfresh
  · cases hfresh
  · rename_i hcols
    obtain ⟨clause, hclause, hproves⟩ := anyM_eq_true hfresh
    refine ⟨clause, hclause, ?_⟩
    cases hcache : st.locals.cache call.rel.relid with
    | none =>
        rw [hcache] at hcols
        exact absurd rfl hcols
    | some cols =>
        rw [hcache, Option.getD_some] at hcols hproves
        have hne : cols ≠ [] := by simpa using hcols
        obtain ⟨hown, indexoid, hrelid, hadmits⟩ := (hload.cache _ _ hcache).resolve_left hne
        -- The table is nowhere read with its children, so the rows are its own.
        rw [Bool.eq_false_of_not_eq_true fun hinh => hown (hcall.inh hinh)] at hrow
        obtain ⟨-, hrows⟩ := hadmits.resolve_left hne
        have hcovers := (hrows row (hrelid ▸ hrow)).resolve_left hne
        exact clause_sound_of_covers io laws hg hcovers (Set.mem_singleton row)
          (hcall.clauses clause hclause indexoid hrelid row hrow) hproves

/-- The step of a plan: the hook keeps the invariant, and a relation that it marks has
no row that its clauses let through. -/
theorem HookState.Inv.step (io : pg.TextRoundTrip) (laws : ex.BtreeLaws ord)
    (hfmgr : fmgr.Cautious) {call : HookCall D} {st : HookState fmgr}
    (hcall : call.Sound ord eord ex catalog rows am trees)
    (h : st.Inv ord eord catalog rows am trees) :
    (call.step st).2.Inv ord eord catalog rows am trees ∧ ((call.step st).1 = true →
      ex.scan pg (rows call.rel.relid call.rel.inh) call.rel.baserestrictinfo = []) := by
  have hprocessed : HookState.Inv ord eord catalog rows am trees
      { st with summaries := processMessages st.summaries call.messages } :=
    ⟨h.amOid, h.cache, h.records, fun indexoid cols hcols =>
      h.summaries indexoid cols (processMessages_eq_some hcols).1⟩
  unfold HookCall.step tableRangePathlistHook
  generalize { st with summaries := processMessages st.summaries call.messages } = st at hprocessed
  split
  · exact ⟨hprocessed, fun h => absurd h Bool.false_ne_true⟩
  split
  · exact ⟨hprocessed, fun h => absurd h Bool.false_ne_true⟩
  have hbegun : HookState.Inv ord eord catalog rows am trees
      { st with locals := { st.locals with inHook := true } } :=
    ⟨hprocessed.amOid, hprocessed.cache, hprocessed.records, hprocessed.summaries⟩
  simp only
  generalize { st with locals := { st.locals with inHook := true } } = st at hbegun
  unfold HookState.evaluate
  rw [withStableIo_eq]
  split
  · obtain ⟨hinv, hprune⟩ := hbegun.evaluateInner io laws hfmgr hcall call.session.guc.pin_stable
    rw [Option.getD_some]
    generalize st.evaluateInner call.server call.rel call.session.guc.pin = done at hinv hprune
    obtain ⟨result, st'⟩ := done
    refine ⟨⟨hinv.amOid, hinv.cache, hinv.records, hinv.summaries⟩, fun hdummy => ?_⟩
    have hresult : result = .ok true := by
      cases result with
      | error e => cases hdummy
      | ok prune => exact congrArg _ hdummy
    refine List.filter_eq_nil_iff.mpr fun row hrow hall => ?_
    obtain ⟨clause, hclause, hno⟩ := hprune hresult row hrow
    exact hno (by simpa using List.all_eq_true.mp hall clause hclause)
  · exact ⟨⟨hbegun.amOid, hbegun.cache, hbegun.records, hbegun.summaries⟩,
      fun h => absurd h Bool.false_ne_true⟩

/-! ## The whole plan -/

/-- The plan of any relations returns what it would return without the hook. -/
theorem plan_keeps_answer_of_inv (io : pg.TextRoundTrip) (laws : ex.BtreeLaws ord)
    (hfmgr : fmgr.Cautious) {calls : List (HookCall D)} {st : HookState fmgr}
    (hcalls : ∀ call ∈ calls, call.Sound ord eord ex catalog rows am trees)
    (h : st.Inv ord eord catalog rows am trees) :
    ex.execute pg rows (planRelations calls st) =
      ex.execute pg rows (calls.map fun call => (call.rel, false)) := by
  induction calls generalizing st with
  | nil => rfl
  | cons call calls ih =>
      obtain ⟨hinv, hdummy⟩ := h.step io laws hfmgr (hcalls call List.mem_cons_self)
      have hrest := ih (fun c hc => hcalls c (List.mem_cons_of_mem _ hc)) hinv
      simp only [planRelations, Executor.execute, List.map_cons] at hrest ⊢
      rw [hrest]
      congr 1
      cases hprune : (call.step st).1 with
      | false => rfl
      | true => exact (hdummy hprune).symm

variable (ord catalog rows am) in
/-- The relation of the call is one of the catalog.  Each page of its `table_range`
indexes has a history in which the rows that the query sees of the table have been stored and
not deleted, and its clauses are those of `clauseProvesPrune_run_sound`. -/
structure HookCall.Maintained (call : HookCall D) : Prop where
  amOid : call.server.amOid = am
  indexes : ∀ idx ∈ call.rel.indexlist, (catalog idx.indexoid).heapoid = call.rel.relid
  relkinds : ∀ idx ∈ call.rel.indexlist,
    (call.server.indexOpen idx.indexoid).partitioned = (catalog idx.indexoid).partitioned
  pages : ∀ idx ∈ call.rel.indexlist, idx.relam = am →
    (catalog idx.indexoid).partitioned = false → ∃ stored,
      TableRun pg (catalog idx.indexoid).toIndexDef (call.server.indexOpen idx.indexoid).file
        stored ∧ rows call.rel.relid false ⊆ stored
  clauses : ∀ clause ∈ call.rel.baserestrictinfo, ∀ indexoid,
    (catalog indexoid).heapoid = call.rel.relid → ClauseScope ord (catalog indexoid).attrs clause

variable (catalog am) in
/-- No table with a summary of its own is read with its children. -/
def Apart (calls : List (HookCall D)) : Prop :=
  ∀ call ∈ calls, ∀ idx ∈ call.rel.indexlist, idx.relam = am →
    (catalog idx.indexoid).partitioned = false →
      ∀ tree ∈ calls, tree.rel.relid = call.rel.relid → tree.rel.inh = false

theorem HookCall.Maintained.sound (io : pg.TextRoundTrip)
    (hdistinct : ∀ indexoid, DistinctColumns (catalog indexoid).attrs)
    {calls : List (HookCall D)} (hapart : Apart catalog am calls) {call : HookCall D}
    (hmem : call ∈ calls) (h : call.Maintained ord catalog rows am) :
    call.Sound ord pg.noExtents ex catalog rows am
      {relid | ∃ tree ∈ calls, tree.rel.inh = true ∧ tree.rel.relid = relid} where
  amOid := h.amOid
  inh hinh := ⟨call, hmem, hinh, rfl⟩
  indexes := h.indexes
  apart idx hidx hrelam hleaf := by
    rintro ⟨tree, htree, hinh, hrelid⟩
    rw [hapart call hmem idx hidx hrelam hleaf tree htree hrelid] at hinh
    cases hinh
  pages idx hidx hrelam := by
    unfold IndexRelation.cols
    rw [h.relkinds idx hidx]
    cases hpart : (catalog idx.indexoid).partitioned with
    | true => exact Or.inl rfl
    | false =>
        obtain ⟨stored, hrun, hstored⟩ := h.pages idx hidx hrelam hpart
        refine Or.inr ⟨hpart, fun row hrow => admits_summaryCols ?_⟩
        refine (tableRun_covers ord pg.noExtents io (hdistinct _) hrun).mono
          (rowValues_mono fun r hr => ?_)
        rw [Set.mem_singleton_iff.mp hr]
        exact hstored (h.indexes idx hidx ▸ hrow)
  clauses clause hclause indexoid hrelid row _ _ hnode :=
    (h.clauses clause hclause indexoid hrelid).leafScope row hnode

/-- Planning with the hook changes no answer.  The plan has just begun, and the backend
has cached nothing that is narrower than the rows; the hook may be called for any
relations that are `Apart`, again and again for the same one, through call records that
procedures keep state in, while pages are widened and cached summaries dropped in between. -/
theorem plan_keeps_answer (io : pg.TextRoundTrip) (laws : ex.BtreeLaws ord)
    (hdistinct : ∀ indexoid, DistinctColumns (catalog indexoid).attrs) (hfmgr : fmgr.Cautious)
    {calls : List (HookCall D)} (hcalls : ∀ call ∈ calls, call.Maintained ord catalog rows am)
    (hapart : Apart catalog am calls) {st : HookState fmgr} (hcleared : st.locals.Cleared)
    (hrecords : st.records = fun _ => none)
    (hsummaries : ∀ indexoid cols, st.summaries indexoid = some cols →
      AdmitsRows ord pg.noExtents catalog rows indexoid cols) :
    ex.execute pg rows (planRelations calls st) =
      ex.execute pg rows (calls.map fun call => (call.rel, false)) := by
  refine plan_keeps_answer_of_inv io laws hfmgr
    (fun call hcall => (hcalls call hcall).sound io hdistinct hapart hcall)
    ⟨Or.inl hcleared.amOid, fun relid cols hcols => ?_, ?_, hsummaries⟩
  · cases (hcleared.cache relid).symm.trans hcols
  · rw [hrecords]
    exact .empty

end Plan

section Mini

/-- The table 6, with an index of the access method 5, under the clause `c > 7`. -/
def Mini.rel : RelOptInfo Int where
  reloptkind := .otherMemberRel
  rtekind := .relation
  relid := 6
  inh := false
  indexlist := [⟨8, 403⟩, ⟨7, 5⟩]
  baserestrictinfo := [Mini.compareNode 5 7]

/-- The partitioned table 9 of 6, whose index is partitioned too. -/
def Mini.partitioned : RelOptInfo Int :=
  { Mini.rel with reloptkind := .baseRel, relid := 9, inh := true, indexlist := [⟨10, 5⟩] }

/-- A child of the table 6 in traditional inheritance. -/
def Mini.child : RelOptInfo Int := { Mini.rel with relid := 11, indexlist := [] }

/-- The table 6 with its child. -/
def Mini.tree : RelOptInfo Int :=
  { Mini.rel with reloptkind := .baseRel, inh := true, indexlist := [] }

/-- The table 6 holds 3, and its child 9. -/
def Mini.inherited (relid : Oid) (inh : Bool) : List (Row Int) :=
  if relid = 11 then [Mini.row 9] else if inh then [Mini.row 3, Mini.row 9] else [Mini.row 3]

def Mini.catalog (indexoid : Oid) : CatalogIndex Int where
  toIndexDef := Mini.index
  indexoid := indexoid
  heapoid := if indexoid = 10 then 9 else 6
  partitioned := indexoid = 10

def Mini.call (file : IndexFile) (rel : RelOptInfo Int) : HookCall Int where
  messages := []
  session := Mini.session
  server :=
    { amOid := 5
      indexOpen := fun indexoid => ⟨indexoid = 10, file⟩
      enablePruning := true }
  rel := rel

/-- The backend before the plan. -/
def Mini.unplanned : HookState (Fmgr.stateless (Mini.pg fun _ _ n => n)) :=
  ⟨.initial, fun _ => none, fun _ => none⟩

/-- The table 6 has the values `[3, 3]`. -/
def Mini.loaded : HookState (Fmgr.stateless (Mini.pg fun _ _ n => n)) where
  locals := ({ PlanLocals.initial with amOid := some 5 }).loadSummary 6 [Mini.entry 3 3]
  records _ := none
  summaries := SummaryCache.put (fun _ => none) 7 [Mini.entry 3 3]

/-- Its clause has been evaluated. -/
def Mini.planned : HookState (Fmgr.stateless (Mini.pg fun _ _ n => n)) :=
  { Mini.loaded with
    records := ((Cached.evaluateRelationInner (Mini.pg fun _ _ n => n) Mini.session.guc.pin
      [Mini.entry 3 3] Mini.rel.baserestrictinfo).run
        (Fmgr.stateless (Mini.pg fun _ _ n => n)).callCached fun _ => none).2 }

/-- The hook marks the table. -/
theorem Mini.step_rel {file : IndexFile} (hs : readSummary file = some ⟨[Mini.entry 3 3]⟩) :
    (Mini.call file Mini.rel).step Mini.unplanned = (true, Mini.planned) := by
  have hcols : ((Mini.call file Mini.rel).server.indexOpen 7).cols = [Mini.entry 3 3] := by
    simp [Mini.call, IndexRelation.cols, hs, summaryCols]
  let begun := { Mini.unplanned with locals := { Mini.unplanned.locals with inHook := true } }
  have hload : begun.loadSummary (Mini.call file Mini.rel).server Mini.rel =
      { Mini.loaded with locals := { Mini.loaded.locals with inHook := true } } := by
    change { begun with
      locals := ({ begun.locals with amOid := some 5 }).loadSummary 6
        ((Mini.call file Mini.rel).server.indexOpen 7).cols
      summaries := SummaryCache.put begun.summaries 7
        ((Mini.call file Mini.rel).server.indexOpen 7).cols } = _
    rw [hcols]
    rfl
  have hevaluate : begun.evaluate Mini.session (Mini.call file Mini.rel).server Mini.rel =
      (.ok true, { Mini.planned with locals := { Mini.planned.locals with inHook := true } }) := by
    change begun.evaluateInner (Mini.call file Mini.rel).server Mini.rel Mini.session.guc.pin = _
    rw [HookState.evaluateInner, hload]
    rfl
  exact congrArg (fun done : PgResult Bool × HookState _ =>
    (match done.1 with
      | .ok prune => prune
      | .error _ => false, { done.2 with locals := { done.2.locals with inHook := false } }))
    hevaluate

theorem Mini.rel_clauses {attrs : List (IndexAttr Int)} :
    ∀ clause ∈ Mini.rel.baserestrictinfo,
      ClauseScope (Mini.order fun _ _ n => n) attrs clause := by
  intro clause hclause
  obtain rfl : clause = Mini.compareNode 5 7 := List.mem_singleton.mp hclause
  refine Mini.clauseScope _ fun arg nulltesttype argisrow hleaf => ?_
  simp [Mini.compareNode, leaf_iff] at hleaf

/-- A plan for the table `{3}` with its partitioned parent.  The table is not scanned. -/
theorem plan_keeps_answer_int4 :
    let pg := Mini.pg fun _ _ n => n
    let ex := Mini.executor fun _ _ n => n
    let rows : Oid → Bool → List (Row Int) := fun _ _ => [Mini.row 3]
    ∃ file,
      let calls := [Mini.call file Mini.rel, Mini.call file Mini.partitioned]
      planRelations calls Mini.unplanned = [(Mini.rel, true), (Mini.partitioned, false)] ∧
        ex.execute pg rows (planRelations calls Mini.unplanned) =
          ex.execute pg rows [(Mini.rel, false), (Mini.partitioned, false)] := by
  intro pg ex rows
  have hbuilt : buildLeafSummary pg Mini.session Mini.index.attrs [Mini.row 3] =
      .ok ⟨[Mini.entry 3 3]⟩ := rfl
  obtain ⟨file, hbuild, hs⟩ := amBuild_eq_ok Mini.index_total hbuilt (by decide) none
  let calls := [Mini.call file Mini.rel, Mini.call file Mini.partitioned]
  have hmem {call : HookCall Int} (h : call ∈ calls) :
      call = Mini.call file Mini.rel ∨ call = Mini.call file Mini.partitioned := by
    simpa [calls] using h
  have hcalls : ∀ call ∈ calls,
      call.Maintained (Mini.order fun _ _ n => n) Mini.catalog rows 5 := by
    intro call h
    rcases hmem h with rfl | rfl
    · refine ⟨rfl, ?_, fun _ _ => rfl, fun idx _ _ _ => ⟨[Mini.row 3], ?_,
        List.Subset.refl _⟩, fun clause hclause _ _ => Mini.rel_clauses clause hclause⟩
      · simp [Mini.call, Mini.rel, Mini.catalog]
      · exact .create hbuild (List.Subset.refl _)
    · refine ⟨rfl, ?_, fun _ _ => rfl, fun idx hidx _ hleaf => ?_,
        fun clause hclause _ _ => Mini.rel_clauses clause hclause⟩
      · simp [Mini.call, Mini.partitioned, Mini.catalog]
      · obtain rfl := List.mem_singleton.mp hidx
        cases hleaf
  have hapart : Apart Mini.catalog 5 calls := by
    intro call h idx hidx _ hleaf tree htree hrelid
    rcases hmem h with rfl | rfl
    · rcases hmem htree with rfl | rfl
      · rfl
      · cases hrelid
    · obtain rfl := List.mem_singleton.mp hidx
      cases hleaf
  have hplan : planRelations calls Mini.unplanned =
      [(Mini.rel, true), (Mini.partitioned, false)] := by
    rw [planRelations, Mini.step_rel hs]
    rfl
  exact ⟨file, hplan, plan_keeps_answer (Mini.textRoundTrip _) (Mini.btreeLaws _)
    (fun _ => Mini.index_distinct) Fmgr.stateless_cautious hcalls hapart
    (PlanLocals.clearCache_cleared .initial) rfl (by simp [Mini.unplanned])⟩

/-- Inheritance can lose a row.  The call for the parent alone leaves its summary under the oid
that the whole tree has too, and `c > 7` does not find 9. -/
theorem plan_loses_children :
    let pg := Mini.pg fun _ _ n => n
    let ex := Mini.executor fun _ _ n => n
    ∃ file, amBuild pg Mini.session Mini.index none [Mini.row 3] = .ok file ∧
      let calls := [Mini.rel, Mini.child, Mini.tree].map (Mini.call file)
      ex.execute pg Mini.inherited (planRelations calls Mini.unplanned) =
          [[], [Mini.row 9], []] ∧
        ex.execute pg Mini.inherited (calls.map fun call => (call.rel, false)) =
          [[], [Mini.row 9], [Mini.row 9]] := by
  intro pg ex
  have hbuilt : buildLeafSummary pg Mini.session Mini.index.attrs [Mini.row 3] =
      .ok ⟨[Mini.entry 3 3]⟩ := rfl
  obtain ⟨file, hbuild, hs⟩ := amBuild_eq_ok Mini.index_total hbuilt (by decide) none
  have hplan : planRelations ([Mini.rel, Mini.child, Mini.tree].map (Mini.call file))
      Mini.unplanned = [(Mini.rel, true), (Mini.child, false), (Mini.tree, true)] := by
    rw [List.map_cons, planRelations, Mini.step_rel hs]
    rfl
  refine ⟨file, hbuild, ?_, rfl⟩
  rw [hplan]
  rfl

end Mini

end TableRange
