import TableRange.CacheCoherence

/-!
# Plans that are kept

A backend may keep the plan of a query and run it again, as for `PREPARE` and for the
queries of a PL/pgSQL function.  Which partitions the plan leaves out was decided by the
entries that `read_index_summary` returned when it was made.  `note_widened` therefore
registers a second message, for the heap: plans depend on tables, not on indexes.

`KeptPlanStep` is what happens to a kept plan while its backend takes a step, and `PlansOk` the
invariant.  A plan may have been made from a cached summary that was already narrower than
the page, with the invalidation of the index on its way; the two messages travel together
(`Paired`), so the invalidation of the plan is on its way too.
-/

namespace TableRange

open Lib.Levels

variable {D ι : Type} {pg : Pg D} {ord : pg.BtreeOrder} {eord : pg.ExtentOrder}
  {leaf : IndexedLeaf D}

/-! ## The steps -/

/-- The plan that a backend keeps, by the entries of the leaf that it was made with. -/
abbrev KeptPlan := Option (List ColSummary)

/-- What becomes of the plan in a step of the backend. -/
inductive KeptPlanStep (heapoid : Oid) (b b' : Backend D) : KeptPlan → KeptPlan → Prop
  /-- The backend can drop a plan at any time. -/
  | drop (plan : KeptPlan) : KeptPlanStep heapoid b b' plan none
  | keep (plan : KeptPlan) (hno : ¬b.Processes b' heapoid) : KeptPlanStep heapoid b b' plan plan
  /-- The query that is planned is to be run again.  A message that is processed before
  its planning ends counts already. -/
  | make (plan : KeptPlan) {snapshot : Set (Row D)} {cols : List ColSummary}
      (hnew : ∀ snapshot' cols', b.planning ≠ .returned snapshot' cols')
      (hplan : b'.planning = .returned snapshot cols) :
      KeptPlanStep heapoid b b' plan (some cols)

/-- The cluster, and the plan that each backend keeps. -/
structure PlannedState (ι D : Type) where
  cluster : ClusterState ι D
  plan : ι → KeptPlan

variable [DecidableEq ι]

def PlannedStep (pg : Pg D) (leaf : IndexedLeaf D) (s : PlannedState ι D) (i : ι)
    (ev : BackendEvent D) (s' : PlannedState ι D) : Prop :=
  ClusterStep pg leaf s.cluster i ev s'.cluster ∧
    KeptPlanStep leaf.heapoid (s.cluster.backend i) (s'.cluster.backend i) (s.plan i) (s'.plan i) ∧
    ∀ j, j ≠ i → s'.plan j = s.plan j

omit [DecidableEq ι] in
variable (ord eord leaf) in
/-- As `Forewarned`, for the plans and the invalidation of the heap. -/
def PlansForewarned (s : PlannedState ι D) (i : ι) (row : Row D) : Prop :=
  ∀ j cols, s.plan j = some cols → ¬Admits ord eord leaf cols row →
    leaf.heapoid ∈ (s.cluster.backend j).inbox ∨
      (j ≠ i ∧ Registered leaf.heapoid (s.cluster.backend i).levels) ∨
      (j = i ∧ CmdRegistered leaf.heapoid (s.cluster.backend i).levels)

/-! ## The messages travel together -/

section Paired

omit [DecidableEq ι]

/-- Where the first message is, the second one is. -/
structure Backend.Paired (b : Backend D) (m m' : Oid) : Prop where
  inbox : m ∈ b.inbox → m' ∈ b.inbox
  levels : ∀ l ∈ b.levels, l.Pairs m m'

/-- No step separates the two messages of a widening, and none sends one alone. -/
theorem BackendStep.paired {file file' : IndexFile} {committed committed' : Set (Row D)}
    {b b' : Backend D} {ev : BackendEvent D} {sent : List Oid}
    (h : BackendStep pg leaf file committed b ev file' committed' b' sent)
    (hpaired : b.Paired leaf.indexoid leaf.heapoid) :
    b'.Paired leaf.indexoid leaf.heapoid ∧ (leaf.indexoid ∈ sent → leaf.heapoid ∈ sent) := by
  obtain ⟨hinbox, hpairs⟩ := hpaired
  cases h with
  | inserted hlevels hwiden =>
      rename_i row widened φ l ls
      rw [hlevels] at hpairs
      refine ⟨⟨hinbox, ?_⟩, nofun⟩
      refine List.forall_mem_cons.mpr ⟨.record (hpairs l List.mem_cons_self) fun hmem => ?_,
        fun l' hl' => hpairs l' (List.mem_cons_of_mem l hl')⟩
      cases widened with
      | true => simp [noteWidened]
      | false => cases hmem
  | beginTransaction _ => exact ⟨⟨hinbox, List.forall_mem_singleton.mpr .empty⟩, nofun⟩
  | savepoint _ => exact ⟨⟨hinbox, List.forall_mem_cons.mpr ⟨.empty, hpairs⟩⟩, nofun⟩
  | release hlevels =>
      rename_i inner outer ls
      rw [hlevels] at hpairs
      refine ⟨⟨hinbox, List.forall_mem_cons.mpr ⟨.merge (hpairs inner (by simp))
        (hpairs outer (by simp)), fun l hl => hpairs l (by simp [hl])⟩⟩, nofun⟩
  | rollbackTo hlevels =>
      rw [hlevels] at hpairs
      exact ⟨⟨hinbox, fun l hl => hpairs l (List.mem_cons_of_mem _ hl)⟩, nofun⟩
  | abort => exact ⟨⟨hinbox, nofun⟩, nofun⟩
  | endCommand =>
      refine ⟨⟨hinbox, fun l hl => ?_⟩, nofun⟩
      obtain ⟨l', hl', rfl⟩ := List.mem_map.mp hl
      exact (hpairs l' hl').endCommand
  | commit hlevels =>
      rename_i l
      have hl : l.Pairs leaf.indexoid leaf.heapoid := hpairs l (by simp [hlevels])
      refine ⟨⟨hinbox, nofun⟩, fun hmem => ?_⟩
      exact List.mem_append.mpr ((List.mem_append.mp hmem).imp hl.msgs hl.cmdMsgs)
  | processInvalidations => exact ⟨⟨nofun, hpairs⟩, nofun⟩
  | planBegin _ => exact ⟨⟨nofun, hpairs⟩, nofun⟩
  | insert _ _ => exact ⟨⟨hinbox, hpairs⟩, nofun⟩
  | planGet _ => exact ⟨⟨hinbox, hpairs⟩, nofun⟩
  | planRead _ => exact ⟨⟨hinbox, hpairs⟩, nofun⟩
  | planPut _ => exact ⟨⟨hinbox, hpairs⟩, nofun⟩
  | planEnd => exact ⟨⟨hinbox, hpairs⟩, nofun⟩

/-- A pending invalidation of the index comes with one of the heap. -/
theorem ClusterState.Pending.paired {s : ClusterState ι D} {m m' : Oid} {j : ι} {row : Row D}
    (h : s.Pending m j row) (hpaired : ∀ i, (s.backend i).Paired m m') : s.Pending m' j row := by
  rcases h with hin | ⟨hrow, hannounced, hdeferred⟩
  · exact Or.inl ((hpaired j).inbox hin)
  · exact Or.inr ⟨hrow, fun i hi => (hannounced i hi).pairs (hpaired i).levels,
      hdeferred.pairs (hpaired j).levels⟩

end Paired

theorem ClusterStep.paired {s s' : ClusterState ι D} {i : ι} {ev : BackendEvent D}
    (h : ClusterStep pg leaf s i ev s')
    (hpaired : ∀ j, (s.backend j).Paired leaf.indexoid leaf.heapoid) (j : ι) :
    (s'.backend j).Paired leaf.indexoid leaf.heapoid := by
  obtain ⟨b, sent, hb, -, hbackend⟩ := h
  obtain ⟨hself, hsent⟩ := hb.paired (hpaired i)
  have hold : (Function.update s.backend i b j).Paired leaf.indexoid leaf.heapoid := by
    by_cases hj : j = i
    · rw [hj, Function.update_self]
      exact hself
    · rw [Function.update_of_ne hj]
      exact hpaired j
  rw [hbackend]
  refine ⟨fun hin => ?_, hold.levels⟩
  exact List.mem_append.mpr ((List.mem_append.mp hin).imp hold.inbox hsent)

/-! ## The invariant -/

omit [DecidableEq ι] in
/-- What a plan is made with is in the cache afterwards. -/
theorem BackendStep.cached {file file' : IndexFile} {committed committed' : Set (Row D)}
    {b b' : Backend D} {ev : BackendEvent D} {sent : List Oid}
    (h : BackendStep pg leaf file committed b ev file' committed' b' sent)
    (hnew : ∀ snapshot cols, b.planning ≠ .returned snapshot cols) {snapshot : Set (Row D)}
    {cols : List ColSummary} (hplan : b'.planning = .returned snapshot cols) :
    b'.cache leaf.indexoid = some cols := by
  cases h with
  | planGet _ =>
      simp only at hplan ⊢
      cases hget : b.cache.get leaf.indexoid with
      | none =>
          rw [hget] at hplan
          cases hplan
      | some cols' =>
          rw [hget] at hplan
          cases hplan
          exact hget
  | planPut _ =>
      cases hplan
      exact Function.update_self _ _ _
  | planBegin _ => cases hplan
  | planRead _ => cases hplan
  | planEnd => cases hplan
  | insert _ _ => exact absurd hplan (hnew _ _)
  | inserted _ _ => exact absurd hplan (hnew _ _)
  | beginTransaction _ => exact absurd hplan (hnew _ _)
  | savepoint _ => exact absurd hplan (hnew _ _)
  | release _ => exact absurd hplan (hnew _ _)
  | rollbackTo _ => exact absurd hplan (hnew _ _)
  | abort => exact absurd hplan (hnew _ _)
  | endCommand => exact absurd hplan (hnew _ _)
  | commit _ => exact absurd hplan (hnew _ _)
  | processInvalidations => exact absurd hplan (hnew _ _)

variable (ord eord leaf) in
/-- The invariant of the cluster with its plans. -/
structure PlansOk (io : pg.TextRoundTrip) (hdistinct : DistinctColumns leaf.attrs)
    (s : PlannedState ι D) : Prop where
  coherent : Coherent ord eord leaf io hdistinct s.cluster
  paired : ∀ j, (s.cluster.backend j).Paired leaf.indexoid leaf.heapoid
  plans : ∀ j cols, s.plan j = some cols → ∀ row, ¬Admits ord eord leaf cols row →
    s.cluster.Pending leaf.heapoid j row

variable {io : pg.TextRoundTrip} {hdistinct : DistinctColumns leaf.attrs}

/-- Every step keeps the invariant, if the inserts that register nothing are forewarned. -/
theorem PlansOk.step {s s' : PlannedState ι D} {i : ι} {ev : BackendEvent D}
    (h : PlansOk ord eord leaf io hdistinct s) (hstep : PlannedStep pg leaf s i ev s')
    (hcond : ∀ row, ev = .insert (.returned row false) →
      Forewarned ord eord leaf s.cluster i row ∧ PlansForewarned ord eord leaf s i row) :
    PlansOk ord eord leaf io hdistinct s' := by
  obtain ⟨hcluster, hplan, hothers⟩ := hstep
  have hcoherent := h.coherent.step hcluster fun row hev => (hcond row hev).1
  have hpaired := hcluster.paired h.paired
  have hheap : leaf.heapoid ∈ noteWidened leaf.indexoid leaf.heapoid := by simp [noteWidened]
  refine ⟨hcoherent, hpaired, fun j cols hcols row hno => ?_⟩
  -- a plan that is kept stays as well warned as it was
  have hkept (hold : s.plan j = some cols)
      (hprocess : j = i → ¬(s.cluster.backend i).Processes (s'.cluster.backend i) leaf.heapoid) :
      s'.cluster.Pending leaf.heapoid j row :=
    hcluster.pending hheap (h.plans j cols hold row hno) hprocess fun hev =>
      (hcond row hev).2 j cols hold hno
  by_cases hj : j = i
  · subst hj
    generalize hold : s.plan j = old at hplan
    generalize hnow : s'.plan j = new at hplan
    rw [hnow] at hcols
    cases hplan with
    | drop => cases hcols
    | keep hprocess => exact hkept (hold.trans hcols) fun _ => hprocess
    | make hnew hreturned =>
        -- the summary it is made with is cached, so its own invalidation is pending
        cases hcols
        obtain ⟨b, sent, hb, -, hbackend⟩ := hcluster
        have hself : s'.cluster.backend j = b.receive sent := by simp [hbackend]
        rw [hself] at hreturned
        have hcached : (s'.cluster.backend j).cache leaf.indexoid = some cols := by
          rw [hself]
          exact hb.cached hnew hreturned
        have hpending : s'.cluster.Pending leaf.indexoid j row :=
          hcoherent.kept j cols (Or.inl hcached) row hno
        exact hpending.paired hpaired
  · exact hkept ((hothers j hj).symm.trans hcols) fun heq => absurd heq hj

/-! ## Runs -/

variable (ord eord leaf) in
/-- A step in which an insert that registers nothing is forewarned. -/
def PlannedNext (s s' : PlannedState ι D) : Prop :=
  ∃ i ev, PlannedStep pg leaf s i ev s' ∧ ∀ row, ev = .insert (.returned row false) →
    Forewarned ord eord leaf s.cluster i row ∧ PlansForewarned ord eord leaf s i row

theorem PlansOk.run {s s' : PlannedState ι D} (h : PlansOk ord eord leaf io hdistinct s)
    (hrun : Relation.ReflTransGen (PlannedNext ord eord leaf) s s') :
    PlansOk ord eord leaf io hdistinct s' := by
  induction hrun with
  | refl => exact h
  | tail _ hnext ih =>
      obtain ⟨i, ev, hstep, hcond⟩ := hnext
      exact ih.step hstep hcond

omit [DecidableEq ι] in
theorem ClusterInit.plansOk (io : pg.TextRoundTrip) (hdistinct : DistinctColumns leaf.attrs)
    {s : PlannedState ι D} (h : ClusterInit pg leaf s.cluster) (hplan : ∀ j, s.plan j = none) :
    PlansOk ord eord leaf io hdistinct s := by
  refine ⟨h.coherent io hdistinct, fun j => ?_, fun j cols hcols => ?_⟩
  · rw [h.backend]
    exact ⟨nofun, nofun⟩
  · cases (hplan j).symm.trans hcols

/-- A plan that is run again misses nothing: unless an invalidation of the heap waits to be
processed, a plan that leaves the leaf out does so because of a clause that is true on no row
that has been committed or that an earlier command of the transaction has inserted. -/
theorem kept_plan_coherent (io : pg.TextRoundTrip) (ord : pg.BtreeOrder) (eord : pg.ExtentOrder)
    {ex : Executor D} (laws : ex.BtreeLaws ord) {leaf : IndexedLeaf D}
    (hdistinct : DistinctColumns leaf.attrs) {init s : PlannedState ι D}
    (hinit : ClusterInit pg leaf init.cluster) (hnone : ∀ j, init.plan j = none)
    (hrun : Relation.ReflTransGen (PlannedNext ord eord leaf) init s) (i : ι)
    {cols : List ColSummary} (hplan : s.plan i = some cols)
    (hinbox : leaf.heapoid ∉ (s.cluster.backend i).inbox) (session : Session)
    {clauses : List (Node D)}
    (hscope : ∀ clause ∈ clauses, ∀ node, Leaf node clause →
      ∀ row ∈ s.cluster.committed ∪ (s.cluster.backend i).ownRows,
        LeafScope ord eord ex leaf.attrs row node)
    (hprune : prunes pg session cols clauses = true) :
    ∃ clause ∈ clauses, ∀ row ∈ s.cluster.committed ∪ (s.cluster.backend i).ownRows,
      ex.truth pg row clause ≠ some true := by
  have hok : PlansOk ord eord leaf io hdistinct s := (hinit.plansOk io hdistinct hnone).run hrun
  obtain ⟨hne, clause, hclause, hproves⟩ := prunes_cases hprune
  refine ⟨clause, hclause, fun row hrow => ?_⟩
  have hadmits : Admits ord eord leaf cols row := by
    by_contra hno
    obtain ⟨hcommitted, -, hdeferred⟩ := (hok.plans i cols hplan row hno).resolve_left hinbox
    rcases hrow with hrow | ⟨l, hl, hmem⟩
    · exact hcommitted hrow
    · exact hdeferred.notMem_items hl hmem
  exact clause_sound_of_covers io laws session.guc.pin_stable (hadmits.resolve_left hne) rfl
    (fun node hnode => hscope clause hclause node hnode row hrow) hproves

section Mini

/-- A step of the cluster while no plan is kept. -/
theorem ClusterStep.plannedNext {s s' : ClusterState ι D} {i : ι} {ev : BackendEvent D}
    (h : ClusterStep pg leaf s i ev s') (hev : ∀ row, ev ≠ .insert (.returned row false)) :
    PlannedNext ord eord leaf ⟨s, fun _ => none⟩ ⟨s', fun _ => none⟩ :=
  ⟨i, ev, ⟨h, .drop none, fun _ _ => rfl⟩, fun row he => absurd he (hev row)⟩

/-- The backend plans `c > 7` on the table `{3}` and keeps the plan. -/
theorem kept_plan_coherent_int4 :
    let pg := Mini.pg fun _ _ n => n
    let clause := Mini.compareNode 5 7
    ∃ (init s : PlannedState Unit Int), ClusterInit pg miniLeaf init.cluster ∧
      Relation.ReflTransGen (PlannedNext (Mini.order fun _ _ n => n) pg.noExtents miniLeaf)
        init s ∧
      s.plan () = some [Mini.entry 3 3] ∧
      prunes pg Mini.session [Mini.entry 3 3] [clause] = true ∧
      ∃ c ∈ [clause], ∀ row ∈ s.cluster.committed ∪ (s.cluster.backend ()).ownRows,
        (Mini.executor fun _ _ n => n).truth pg row c ≠ some true := by
  intro pg clause
  obtain ⟨file, -, hbuild, hs, -⟩ := Mini.exists_inserts
  let init : PlannedState Unit Int :=
    ⟨⟨file, {Mini.row 3}, fun _ => freshBackend⟩, fun _ => none⟩
  let snapshot : Set (Row Int) := {Mini.row 3} ∪ freshBackend.ownRows
  let reading : Backend Int := { freshBackend with planning := .read snapshot [Mini.entry 3 3] }
  let planned : Backend Int :=
    { freshBackend with
      cache := freshBackend.cache.put miniLeaf.indexoid [Mini.entry 3 3]
      planning := .returned snapshot [Mini.entry 3 3] }
  let P (ev : BackendEvent Int) : Prop := ∀ row, ev ≠ .insert (.returned row false)
  have hread : Solo pg miniLeaf P file {Mini.row 3} freshBackend file {Mini.row 3} reading := by
    have hpage : BackendStep pg miniLeaf file {Mini.row 3}
        { freshBackend with planning := .missed snapshot } .other file {Mini.row 3} _ [] :=
      .planRead rfl
    have hcols : summaryCols (readSummary file) = [Mini.entry 3 3] := congrArg summaryCols hs
    rw [hcols] at hpage
    have hother : P .other := by simp [P]
    exact .tail (.tail (.tail .refl (.planBegin rfl) hother fun h => absurd h Bool.false_ne_true)
      (.planGet rfl) hother fun h => absurd h Bool.false_ne_true)
      hpage hother fun h => absurd h Bool.false_ne_true
  have hinit : ClusterInit pg miniLeaf init.cluster :=
    ⟨Or.inl ⟨Mini.session, none, [Mini.row 3], hbuild, by simp [init]⟩, fun _ => rfl⟩
  let unplanned (s : ClusterState Unit Int) : PlannedState Unit Int := ⟨s, fun _ => none⟩
  have hfirst := (Solo.run (s := init.cluster) (i := ()) hread).lift
    (p := PlannedNext (Mini.order fun _ _ n => n) pg.noExtents miniLeaf) unplanned
    fun _ _ hnext => by
      obtain ⟨_, _, hstep, hev⟩ := hnext
      exact hstep.plannedNext hev
  have hmake : PlannedNext (Mini.order fun _ _ n => n) pg.noExtents miniLeaf
      ⟨⟨file, {Mini.row 3}, Function.update (fun _ => freshBackend) () reading⟩, fun _ => none⟩
      ⟨⟨file, {Mini.row 3}, fun _ => planned⟩, fun _ => some [Mini.entry 3 3]⟩ := by
    refine ⟨(), .put, ⟨⟨planned, [], .planPut rfl, fun _ => rfl, ?_⟩,
      .make none ?_ rfl, ?_⟩, by simp⟩
    · funext j
      simp [Backend.receive]
    · simp [reading]
    · intro j hj
      exact absurd rfl hj
  have hrun := hfirst.tail hmake
  have hprune : prunes pg Mini.session [Mini.entry 3 3] [clause] = true := by decide +kernel
  refine ⟨init, _, hinit, hrun, rfl, hprune, ?_⟩
  have hclause : ClauseScope (Mini.order fun _ _ n => n) miniLeaf.attrs clause := by
    refine Mini.clauseScope _ fun arg nulltesttype argisrow hleaf => ?_
    simp [clause, Mini.compareNode, leaf_iff] at hleaf
  refine kept_plan_coherent (Mini.textRoundTrip _) (Mini.order _) pg.noExtents (Mini.btreeLaws _)
    Mini.index_distinct hinit (fun _ => rfl) hrun () rfl List.not_mem_nil Mini.session ?_ hprune
  intro clause' hmem node hnode row _
  obtain rfl := List.mem_singleton.mp hmem
  exact hclause.leafScope row hnode

end Mini

end TableRange
