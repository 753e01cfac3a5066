import TableRange.NoFalseNegatives
import TableRange.NoLostWidening
import TableRange.SummaryCache

/-!
# When cached summaries are wide enough

A backend may keep a summary that is narrower than the page as long as an
invalidation is on its way to it that arrives no later than the rows.  An insert
that widens the page sees to that itself.  An insert that finds its row covered
relies on the invalidation of the earlier widening, which may belong to another
transaction, to an earlier command or to a savepoint that has been rolled back.

`Forewarned` is the condition on such an insert, and `Coherent` the invariant that
every step keeps under it.
-/

namespace TableRange

open Lib.Levels

variable {D ι : Type} {pg : Pg D} {ord : pg.BtreeOrder} {eord : pg.ExtentOrder}
  {leaf : IndexedLeaf D}

variable (ord eord leaf) in
/-- The entries cover the row, or there are none to prune with. -/
def Admits (cols : List ColSummary) (row : Row D) : Prop :=
  cols = [] ∨ SummaryCovers ord eord leaf.attrs ⟨cols⟩ (rowValues {row})

variable (ord eord leaf) in
/-- Every backend that keeps entries that do not cover the row has an invalidation
of the index in its inbox, or will get one with the row: another backend when the
inserting transaction commits, the inserting one when its command ends. -/
def Forewarned (s : ClusterState ι D) (i : ι) (row : Row D) : Prop :=
  ∀ j cols, (s.backend j).Keeps leaf.indexoid cols → ¬Admits ord eord leaf cols row →
    leaf.indexoid ∈ (s.backend j).inbox ∨
      (j ≠ i ∧ Registered leaf.indexoid (s.backend i).levels) ∨
      (j = i ∧ CmdRegistered leaf.indexoid (s.backend i).levels)

/-! ## The invariant -/

section Coherent

/-- The row has been inserted and not been rolled back. -/
def ClusterState.Stored (s : ClusterState ι D) (row : Row D) : Prop :=
  row ∈ s.committed ∨ ∃ i, ∃ l ∈ (s.backend i).levels, l.Holds row

/-- The page and its inserters. -/
def ClusterState.leafState (s : ClusterState ι D) (returned : Set (Row D)) : LeafState ι D where
  file := s.file
  phase i := (s.backend i).phase
  returned := returned

variable (ord eord leaf) in
/-- What a backend plans with covers what its query sees. -/
def PlanOk (file : IndexFile) (b : Backend D) : Prop :=
  match b.planning with
  | .idle => True
  | .begun snapshot =>
      (∀ row ∈ snapshot, BlobCovers ord eord leaf.attrs (readBlob file) (rowValues {row})) ∧
        ∀ cols, b.cache leaf.indexoid = some cols → ∀ row ∈ snapshot, Admits ord eord leaf cols row
  | .missed snapshot =>
      ∀ row ∈ snapshot, BlobCovers ord eord leaf.attrs (readBlob file) (rowValues {row})
  | .read snapshot cols | .returned snapshot cols => ∀ row ∈ snapshot, Admits ord eord leaf cols row

/-- Entries read from the page admit the rows that the page covers. -/
theorem admits_summaryCols {file : IndexFile} {row : Row D}
    (h : BlobCovers ord eord leaf.attrs (readBlob file) (rowValues {row})) :
    Admits ord eord leaf (summaryCols (readSummary file)) row := by
  cases hs : readSummary file with
  | none => exact Or.inl rfl
  | some s => exact Or.inr (h s hs)

theorem PlanOk.mono {file file' : IndexFile} {b b' : Backend D} (h : PlanOk ord eord leaf file b)
    (hle : BlobLe ord eord leaf.attrs (readBlob file) (readBlob file'))
    (hplan : b'.planning = b.planning)
    (hcache : ∀ cols, b'.cache leaf.indexoid = some cols → b.cache leaf.indexoid = some cols) :
    PlanOk ord eord leaf file' b' := by
  unfold PlanOk at h ⊢
  rw [hplan]
  cases hb : b.planning with
  | idle => trivial
  | begun snapshot =>
      rw [hb] at h
      exact ⟨fun row hrow => hle.covers _ (h.1 row hrow), fun cols hcols =>
        h.2 cols (hcache cols hcols)⟩
  | missed snapshot =>
      rw [hb] at h
      exact fun row hrow => hle.covers _ (h row hrow)
  | read snapshot cols =>
      rw [hb] at h
      exact h
  | returned snapshot cols =>
      rw [hb] at h
      exact h

/-- The step of the backend that plans. -/
theorem BackendStep.planOk {file file' : IndexFile} {committed committed' : Set (Row D)}
    {b b' : Backend D} {ev : BackendEvent D} {sent : List Oid}
    (h : BackendStep pg leaf file committed b ev file' committed' b' sent)
    (hok : PlanOk ord eord leaf file b)
    (hle : BlobLe ord eord leaf.attrs (readBlob file) (readBlob file'))
    (hstored : ∀ row, (row ∈ committed ∨ ∃ l ∈ b.levels, l.Holds row) →
      BlobCovers ord eord leaf.attrs (readBlob file) (rowValues {row}))
    (hkept : ∀ cols, b.cache leaf.indexoid = some cols → ∀ row, ¬Admits ord eord leaf cols row →
      leaf.indexoid ∈ b.inbox ∨ (row ∉ committed ∧ Deferred leaf.indexoid row b.levels)) :
    PlanOk ord eord leaf file' b' := by
  cases h with
  | planBegin hplan =>
      refine ⟨fun row hrow => hstored row (hrow.imp_right ?_), fun cols hcols row hrow => ?_⟩
      · rintro ⟨l, hl, hmem⟩
        exact ⟨l, hl, Or.inl hmem⟩
      · obtain ⟨hcols, hinbox⟩ := processMessages_eq_some hcols
        by_contra hno
        obtain ⟨hcommitted, hdeferred⟩ := (hkept cols hcols row hno).resolve_left hinbox
        rcases hrow with hrow | ⟨l, hl, hmem⟩
        · exact hcommitted hrow
        · exact hdeferred.notMem_items hl hmem
  | planGet hplan =>
      unfold PlanOk at hok ⊢
      rw [hplan] at hok
      cases hget : b.cache.get leaf.indexoid with
      | none => exact hok.1
      | some cols => exact hok.2 cols hget
  | planRead hplan =>
      unfold PlanOk at hok
      rw [hplan] at hok
      exact fun row hrow => admits_summaryCols (hok row hrow)
  | planPut hplan =>
      unfold PlanOk at hok
      rw [hplan] at hok
      exact hok
  | planEnd => trivial
  | insert _ _ => exact hok.mono hle rfl fun _ => id
  | inserted _ _ => exact hok.mono hle rfl fun _ => id
  | beginTransaction _ => exact hok.mono hle rfl fun _ => id
  | savepoint _ => exact hok.mono hle rfl fun _ => id
  | release _ => exact hok.mono hle rfl fun _ => id
  | commit _ => exact hok.mono hle rfl fun _ => id
  | rollbackTo _ => exact hok.mono hle rfl fun _ h => (processMessages_eq_some h).1
  | abort => exact hok.mono hle rfl fun _ h => (processMessages_eq_some h).1
  | endCommand => exact hok.mono hle rfl fun _ h => (processMessages_eq_some h).1
  | processInvalidations => exact hok.mono hle rfl fun _ h => (processMessages_eq_some h).1

variable (ord eord leaf) in
/-- The invariant of the cluster. -/
structure Coherent (io : pg.TextRoundTrip) (hdistinct : DistinctColumns leaf.attrs)
    (s : ClusterState ι D) : Prop where
  page : ∃ returned, LeafInv ord eord io hdistinct (s.leafState returned)
  stored : ∀ row, s.Stored row → BlobCovers ord eord leaf.attrs (readBlob s.file) (rowValues {row})
  kept : ∀ j cols, (s.backend j).Keeps leaf.indexoid cols → ∀ row, ¬Admits ord eord leaf cols row →
    leaf.indexoid ∈ (s.backend j).inbox ∨
      (row ∉ s.committed ∧ (∀ i, i ≠ j → Announced leaf.indexoid row (s.backend i).levels) ∧
        Deferred leaf.indexoid row (s.backend j).levels)
  planning : ∀ j, PlanOk ord eord leaf s.file (s.backend j)

variable {io : pg.TextRoundTrip} {hdistinct : DistinctColumns leaf.attrs} [DecidableEq ι]

/-- The page after a step. -/
theorem Coherent.step_page {s s' : ClusterState ι D} {i : ι} {ev : BackendEvent D}
    (h : Coherent ord eord leaf io hdistinct s) (hstep : ClusterStep pg leaf s i ev s') :
    BlobLe ord eord leaf.attrs (readBlob s.file) (readBlob s'.file) ∧
      ∃ returned, LeafInv ord eord io hdistinct (s'.leafState returned) ∧
        ∀ row widened, ev = .insert (.returned row widened) → row ∈ returned := by
  obtain ⟨b, sent, hb, -, hbackend⟩ := hstep
  obtain ⟨returned, hinv⟩ := h.page
  have hother : ∀ j, j ≠ i → (s'.backend j).phase = (s.backend j).phase := fun j hj => by
    rw [hbackend]
    simp [Backend.receive, hj]
  have hself : (s'.backend i).phase = b.phase := by
    rw [hbackend]
    simp [Backend.receive]
  rcases hb.page with ⟨e, rfl, hwiden⟩ | ⟨hfile, hphase, hno⟩
  · have hnext : LeafNext pg leaf.attrs (s.leafState returned)
        (s'.leafState ({row | e.row = some row} ∪ returned)) := by
      refine ⟨i, e, ?_, hother, rfl⟩
      rw [← hself] at hwiden
      exact hwiden
    obtain ⟨hinv', hle⟩ := hinv.step hnext
    refine ⟨hle, _, hinv', ?_⟩
    rintro row widened ⟨⟩
    exact Or.inl rfl
  · have hsame : s'.leafState returned = s.leafState returned := by
      simp only [ClusterState.leafState, hfile, LeafState.mk.injEq, true_and, and_true]
      funext j
      by_cases hj : j = i
      · rw [hj, hself, hphase]
      · exact hother j hj
    rw [hfile]
    exact ⟨BlobLe.refl _, returned, hsame ▸ hinv, fun row widened he => absurd he (hno _)⟩

omit [DecidableEq ι] in
/-- A message that the backend will process no later than it sees the row. -/
def ClusterState.Pending (s : ClusterState ι D) (m : Oid) (j : ι) (row : Row D) : Prop :=
  m ∈ (s.backend j).inbox ∨
    (row ∉ s.committed ∧ (∀ i, i ≠ j → Announced m row (s.backend i).levels) ∧
      Deferred m row (s.backend j).levels)

/-- A message of a widening stays pending until it is processed. -/
theorem ClusterStep.pending {s s' : ClusterState ι D} {i : ι} {ev : BackendEvent D}
    (hstep : ClusterStep pg leaf s i ev s') {m : Oid}
    (hm : m ∈ noteWidened leaf.indexoid leaf.heapoid) {j : ι} {row : Row D}
    (h : s.Pending m j row) (hno : j = i → ¬(s.backend i).Processes (s'.backend i) m)
    (hcond : ev = .insert (.returned row false) → m ∈ (s.backend j).inbox ∨
      (j ≠ i ∧ Registered m (s.backend i).levels) ∨
      (j = i ∧ CmdRegistered m (s.backend i).levels)) : s'.Pending m j row := by
  obtain ⟨b, sent, hb, -, hbackend⟩ := hstep
  have hinbox : ∀ k, (s'.backend k).inbox = (Function.update s.backend i b k).inbox ++ sent :=
    fun k => by
    rw [hbackend]
    rfl
  have hlevels : ∀ k, (s'.backend k).levels = (Function.update s.backend i b k).levels :=
    fun k => by
    rw [hbackend]
    rfl
  have hother : ∀ k, k ≠ i → (s'.backend k).levels = (s.backend k).levels := fun k hk => by
    rw [hlevels, Function.update_of_ne hk]
  have hself : (s'.backend i).levels = b.levels := by
    rw [hlevels, Function.update_self]
  by_cases hj : j = i
  · subst hj
    by_cases hpending : m ∈ (s.backend j).inbox
    · exact Or.inl (by_contra fun hout => hno rfl (Or.inl ⟨hpending, hout⟩))
    obtain ⟨hrow, hannounced, hdeferred⟩ := h.resolve_left hpending
    have hprocess : ¬(s.backend j).Processes b m := by
      refine fun hprocessed => hno rfl (hprocessed.imp (fun hin => absurd hin.1 hpending) ?_)
      rw [hself]
      exact id
    have hcmd : ev = .insert (.returned row false) → CmdRegistered m (s.backend j).levels :=
      fun hev => (((hcond hev).resolve_left hpending).resolve_left fun hne => hne.1 rfl).2
    rcases hb.deferred hm hrow hdeferred hprocess hcmd with hsent | ⟨hrow', hdeferred'⟩
    · exact Or.inl (by rw [hinbox]; exact List.mem_append_right _ hsent)
    · refine Or.inr ⟨hrow', fun k hk => ?_, hself ▸ hdeferred'⟩
      rw [hother k hk]
      exact hannounced k hk
  · by_cases hpending : m ∈ (s.backend j).inbox
    · refine Or.inl ?_
      rw [hinbox, Function.update_of_ne hj]
      exact List.mem_append_left _ hpending
    obtain ⟨hrow, hannounced, hdeferred⟩ := h.resolve_left hpending
    have hreg : ev = .insert (.returned row false) → Registered m (s.backend i).levels :=
      fun hev => (((hcond hev).resolve_left hpending).resolve_right fun heq => hj heq.1).2
    rcases hb.announced hm hrow (hannounced i (Ne.symm hj)) hreg with hsent | ⟨hrow', hannounced'⟩
    · exact Or.inl (by rw [hinbox]; exact List.mem_append_right _ hsent)
    · refine Or.inr ⟨hrow', fun k hk => ?_, hother j hj ▸ hdeferred⟩
      by_cases hki : k = i
      · rw [hki, hself]
        exact hannounced'
      · rw [hother k hki]
        exact hannounced k hk

/-- What the backends keep after a step. -/
theorem Coherent.step_kept {s s' : ClusterState ι D} {i : ι} {ev : BackendEvent D}
    (h : Coherent ord eord leaf io hdistinct s) (hstep : ClusterStep pg leaf s i ev s')
    (hcond : ∀ row, ev = .insert (.returned row false) → Forewarned ord eord leaf s i row) {j : ι}
    {cols : List ColSummary} (hkeeps : (s'.backend j).Keeps leaf.indexoid cols) {row : Row D}
    (hno : ¬Admits ord eord leaf cols row) : s'.Pending leaf.indexoid j row := by
  obtain ⟨b, sent, hb, hreading, hbackend⟩ := id hstep
  have hkeeps : (Function.update s.backend i b j).Keeps leaf.indexoid cols := by
    rw [hbackend] at hkeeps
    exact hkeeps
  by_cases hj : j = i
  · subst hj
    rw [Function.update_self] at hkeeps
    rcases hb.keeps hreading hkeeps with ⟨rfl, hcommitted, hsame⟩ | ⟨hkept, hprocess⟩
    · -- the entries come from the page, so the row is not stored
      have hnot : ¬s.Stored row := fun hrow => hno (admits_summaryCols (h.stored row hrow))
      have hfree : ∀ k, ∀ l ∈ (s'.backend k).levels, ¬l.Holds row := by
        intro k l hl hheld
        refine hnot (Or.inr ⟨k, l, ?_, hheld⟩)
        rw [hbackend] at hl
        by_cases hk : k = j
        · subst hk
          simpa [Backend.receive, hsame] using hl
        · simpa [Backend.receive, hk] using hl
      exact Or.inr ⟨hcommitted ▸ fun hrow => hnot (Or.inl hrow),
        fun k _ => announced_of_not_holds (hfree k), deferred_of_not_holds (hfree j)⟩
    · have hself : s'.backend j = b.receive sent := by
        simp [hbackend]
      refine hstep.pending List.mem_cons_self (h.kept j cols hkept row hno) (fun _ hprocessed => ?_)
        fun hev => hcond row hev j cols hkept hno
      rw [hself] at hprocessed
      exact hprocess hprocessed.of_receive
  · rw [Function.update_of_ne hj] at hkeeps
    exact hstep.pending List.mem_cons_self (h.kept j cols hkeeps row hno) (fun heq => absurd heq hj)
      fun hev => hcond row hev j cols hkeeps hno

/-- Every step keeps the invariant, if the inserts that register nothing are
forewarned. -/
theorem Coherent.step {s s' : ClusterState ι D} {i : ι} {ev : BackendEvent D}
    (h : Coherent ord eord leaf io hdistinct s) (hstep : ClusterStep pg leaf s i ev s')
    (hcond : ∀ row, ev = .insert (.returned row false) → Forewarned ord eord leaf s i row) :
    Coherent ord eord leaf io hdistinct s' := by
  obtain ⟨hle, returned, hinv, hreturned⟩ := h.step_page hstep
  refine ⟨⟨returned, hinv⟩, fun row hrow => ?_, fun j cols hkeeps row hno =>
    h.step_kept hstep hcond hkeeps hno, fun j => ?_⟩
  · obtain ⟨b, sent, hb, -, hbackend⟩ := hstep
    have hold : s.Stored row ∨ ∃ widened, ev = .insert (.returned row widened) := by
      rcases hrow with hrow | ⟨j, l, hl, hheld⟩
      · exact (hb.stored (Or.inl hrow)).imp_left fun hrow => hrow.imp_right fun hlevels =>
          ⟨i, hlevels⟩
      · by_cases hj : j = i
        · have hl : l ∈ b.levels := by
            rw [hbackend, hj] at hl
            simpa [Backend.receive] using hl
          exact (hb.stored (Or.inr ⟨l, hl, hheld⟩)).imp_left fun hrow =>
            hrow.imp_right fun hlevels => ⟨i, hlevels⟩
        · have hl : l ∈ (s.backend j).levels := by
            rw [hbackend] at hl
            simpa [Backend.receive, hj] using hl
          exact Or.inl (Or.inr ⟨j, l, hl, hheld⟩)
    rcases hold with hrow | ⟨widened, hev⟩
    · exact hle.covers _ (h.stored row hrow)
    · exact hinv.cas.has row (hreturned row widened hev)
  · obtain ⟨b, sent, hb, -, hbackend⟩ := hstep
    have hok : PlanOk ord eord leaf s'.file (Function.update s.backend i b j) := by
      by_cases hj : j = i
      · subst hj
        rw [Function.update_self]
        refine hb.planOk (h.planning j) hle (fun row hrow => h.stored row ?_)
          fun cols hcols row hno => ?_
        · exact hrow.imp_right fun hlevels => ⟨j, hlevels⟩
        · exact (h.kept j cols (Or.inl hcols) row hno).imp_right fun hrow => ⟨hrow.1, hrow.2.2⟩
      · rw [Function.update_of_ne hj]
        exact (h.planning j).mono hle rfl fun _ => id
    rw [hbackend]
    exact hok.mono (BlobLe.refl _) rfl fun _ => id

end Coherent

/-! ## Runs -/

/-- The page is the result of a build that has scanned the committed rows, or does
not decode, and no backend has done anything. -/
structure ClusterInit (pg : Pg D) (leaf : IndexedLeaf D) (s : ClusterState ι D) : Prop where
  file : (∃ session file₀ scanned, amBuild pg session leaf.toIndexDef file₀ scanned = .ok s.file ∧
    s.committed ⊆ {row | row ∈ scanned}) ∨ readSummary s.file = none
  backend : ∀ i, s.backend i = ⟨.idle, fun _ => none, [], [], .idle⟩

theorem ClusterInit.coherent (io : pg.TextRoundTrip) (hdistinct : DistinctColumns leaf.attrs)
    {s : ClusterState ι D} (h : ClusterInit pg leaf s) : Coherent ord eord leaf io hdistinct s := by
  have hcovers : BlobCovers ord eord leaf.attrs (readBlob s.file) (rowValues s.committed) := by
    rcases h.file with ⟨session, file₀, scanned, hbuild, hscanned⟩ | hnone
    · exact (amBuild_blobCovers hbuild).mono (rowValues_mono hscanned)
    · intro s' hs'
      cases hnone.symm.trans hs'
  refine ⟨⟨∅, fun i => ?_, ⟨hcovers.mono fun _ => Set.empty_subset _, fun i => ?_, nofun⟩⟩,
    ?_, ?_, ?_⟩
  · rw [show (s.leafState ∅).phase i = (s.backend i).phase from rfl, h.backend]
    trivial
  · rw [show (s.leafState ∅).abs.phase i = (s.backend i).phase.abs from rfl, h.backend]
    trivial
  · rintro row (hrow | ⟨i, l, hl, -⟩)
    · exact hcovers.mono (rowValues_mono (Set.singleton_subset_iff.mpr hrow))
    · rw [h.backend] at hl
      cases hl
  · rintro j cols (hcols | ⟨snapshot, hread⟩) row -
    · rw [h.backend] at hcols
      cases hcols
    · rw [h.backend] at hread
      cases hread
  · intro j
    rw [h.backend]
    trivial

variable [DecidableEq ι]

variable (ord eord leaf) in
/-- A step in which an insert that registers nothing is forewarned. -/
def ForewarnedNext (s s' : ClusterState ι D) : Prop :=
  ∃ i ev, ClusterStep pg leaf s i ev s' ∧
    ∀ row, ev = .insert (.returned row false) → Forewarned ord eord leaf s i row

theorem Coherent.run {io : pg.TextRoundTrip} {hdistinct : DistinctColumns leaf.attrs}
    {s s' : ClusterState ι D} (h : Coherent ord eord leaf io hdistinct s)
    (hrun : Relation.ReflTransGen (ForewarnedNext ord eord leaf) s s') :
    Coherent ord eord leaf io hdistinct s' := by
  induction hrun with
  | refl => exact h
  | tail _ hnext ih =>
      obtain ⟨i, ev, hstep, hcond⟩ := hnext
      exact ih.step hstep hcond

/-- What the hook prunes with. -/
theorem prunes_cases {session : Session} {cols : List ColSummary} {clauses : List (Node D)}
    (h : prunes pg session cols clauses = true) :
    cols ≠ [] ∧ ∃ clause ∈ clauses,
      clauseProvesPrune pg session.guc.pin cols clause 0 = .ok true := by
  have hne : cols ≠ [] := by
    rintro rfl
    rw [prunes_nil] at h
    cases h
  refine ⟨hne, ?_⟩
  unfold prunes evaluateRelation at h
  rw [withStableIo_eq] at h
  split at h
  · rename_i prune hprune
    subst h
    split at hprune
    · rw [Option.getD_some, evaluateRelationInner, if_neg (by simpa using hne)] at hprune
      exact Lib.Fallible.anyM_eq_true hprune
    · cases hprune
  · cases h

/-- No backend prunes with a summary that is narrower than the rows its query sees:
whenever `read_index_summary` has returned and the evaluator prunes the leaf, one of
the clauses is true on no row that was committed before the query's snapshot or
inserted by an earlier command of the backend's own transaction. -/
theorem cache_coherent (io : pg.TextRoundTrip) (ord : pg.BtreeOrder) (eord : pg.ExtentOrder)
    {ex : Executor D} (laws : ex.BtreeLaws ord) {leaf : IndexedLeaf D}
    (hdistinct : DistinctColumns leaf.attrs) {init s : ClusterState ι D}
    (hinit : ClusterInit pg leaf init)
    (hrun : Relation.ReflTransGen (ForewarnedNext ord eord leaf) init s) (i : ι)
    {snapshot : Set (Row D)} {cols : List ColSummary}
    (hplan : (s.backend i).planning = .returned snapshot cols) (session : Session)
    {clauses : List (Node D)}
    (hscope : ∀ clause ∈ clauses, ∀ node, Leaf node clause → ∀ row ∈ snapshot,
      LeafScope ord eord ex leaf.attrs row node)
    (hprune : prunes pg session cols clauses = true) :
    ∃ clause ∈ clauses, ∀ row ∈ snapshot, ex.truth pg row clause ≠ some true := by
  have hok := ((hinit.coherent io hdistinct).run hrun).planning i
  unfold PlanOk at hok
  rw [hplan] at hok
  obtain ⟨hne, clause, hclause, hproves⟩ := prunes_cases hprune
  refine ⟨clause, hclause, fun row hrow => ?_⟩
  exact clause_sound_of_covers io laws session.guc.pin_stable ((hok row hrow).resolve_left hne) rfl
    (fun node hnode => hscope clause hclause node hnode row hrow) hproves

section Mini

/-- A run of one backend in which it sends nothing and the others do nothing: the
file, the committed rows and the backend before and after. -/
inductive Solo (pg : Pg D) (leaf : IndexedLeaf D) (P : BackendEvent D → Prop) (file : IndexFile)
    (committed : Set (Row D)) (b : Backend D) : IndexFile → Set (Row D) → Backend D → Prop
  | refl : Solo pg leaf P file committed b file committed b
  | tail {file₁ file₂ : IndexFile} {committed₁ committed₂ : Set (Row D)} {b₁ b₂ : Backend D}
      {ev : BackendEvent D} (h : Solo pg leaf P file committed b file₁ committed₁ b₁)
      (hstep : BackendStep pg leaf file₁ committed₁ b₁ ev file₂ committed₂ b₂ []) (hev : P ev)
      (hreading : b₁.planning.reading = true → ev = .put) :
      Solo pg leaf P file committed b file₂ committed₂ b₂

theorem Solo.trans {P : BackendEvent D → Prop} {file file₁ file₂ : IndexFile}
    {committed committed₁ committed₂ : Set (Row D)} {b b₁ b₂ : Backend D}
    (h : Solo pg leaf P file committed b file₁ committed₁ b₁)
    (h' : Solo pg leaf P file₁ committed₁ b₁ file₂ committed₂ b₂) :
    Solo pg leaf P file committed b file₂ committed₂ b₂ := by
  induction h' with
  | refl => exact h
  | tail _ hstep hev hreading ih => exact ih.tail hstep hev hreading

theorem Solo.run {P : BackendEvent D → Prop} {s : ClusterState ι D} {i : ι} {file : IndexFile}
    {committed : Set (Row D)} {b : Backend D}
    (h : Solo pg leaf P s.file s.committed (s.backend i) file committed b) :
    Relation.ReflTransGen (fun s s' => ∃ i ev, ClusterStep pg leaf s i ev s' ∧ P ev) s
      ⟨file, committed, Function.update s.backend i b⟩ := by
  induction h with
  | refl =>
      rw [Function.update_eq_self]
  | tail hsolo hstep hev hreading ih =>
      rename_i file₁ file₂ committed₁ committed₂ b₁ b₂ ev
      refine ih.tail ⟨i, ev, ⟨b₂, [], ?_, ?_, ?_⟩, hev⟩
      · simpa using hstep
      · simpa using hreading
      · simp [Backend.receive, Function.update_idem]

/-- The leaf of the small table. -/
def miniLeaf : IndexedLeaf Int :=
  { Mini.index with indexoid := 16385, heapoid := 16384 }

/-- A backend that has done nothing. -/
def freshBackend : Backend Int := ⟨.idle, fun _ => none, [], [], .idle⟩

/-- A backend without a cached summary plans with that of the page, and caches it. -/
theorem Solo.planMiss {P : BackendEvent D → Prop} (hother : P .other) (hput : P .put)
    (file : IndexFile) (committed : Set (Row D)) {b : Backend D}
    (hreading : b.planning.reading = false)
    (hmiss : processMessages b.cache b.inbox leaf.indexoid = none) :
    ∃ b', Solo pg leaf P file committed b file committed b' ∧
      b'.cache leaf.indexoid = some (summaryCols (readSummary file)) ∧ b'.inbox = [] ∧
      b'.planning = .returned (committed ∪ b.ownRows) (summaryCols (readSummary file)) := by
  let begun : Backend D :=
    { b with
      cache := processMessages b.cache b.inbox, inbox := [],
      planning := .begun (committed ∪ b.ownRows) }
  have hget : BackendStep pg leaf file committed begun .other file committed
      { begun with planning := .missed (committed ∪ b.ownRows) } [] := by
    have h : BackendStep pg leaf file committed begun .other file committed _ [] := .planGet rfl
    rwa [SummaryCache.get, show begun.cache leaf.indexoid = none from hmiss] at h
  refine ⟨_, .tail (.tail (.tail (.tail (.tail .refl .planEnd hother ?_) (.planBegin rfl)
    hother nofun)
    hget hother nofun) (.planRead rfl) hother nofun) (.planPut rfl) hput fun _ => rfl, ?_, rfl, rfl⟩
  · rw [hreading]
    nofun
  · exact Function.update_self _ _ _

/-- A backend with a cached summary, and no message for it, plans with that. -/
theorem Solo.planHit {P : BackendEvent D → Prop} (hother : P .other) (file : IndexFile)
    (committed : Set (Row D)) {b : Backend D} (hreading : b.planning.reading = false)
    (hinbox : b.inbox = []) {cols : List ColSummary} (hcache : b.cache leaf.indexoid = some cols) :
    ∃ b', Solo pg leaf P file committed b file committed b' ∧
      b'.planning = .returned (committed ∪ b.ownRows) cols := by
  refine ⟨_, .tail (.tail (.tail .refl .planEnd hother ?_) (.planBegin rfl) hother nofun)
    (.planGet rfl) hother nofun, ?_⟩
  · rw [hreading]
    nofun
  · simp only [SummaryCache.get, hinbox, processMessages, List.foldl_nil, hcache]
    rfl

/-- The steps of an insert that has not returned, with nothing in between. -/
inductive SilentRun (pg : Pg D) (attrs : List (IndexAttr D)) (file : IndexFile) :
    IndexFile → Phase D → Prop
  | idle : SilentRun pg attrs file file .idle
  | next {file₁ file₂ : IndexFile} {φ₁ φ₂ : Phase D} {ev : Event D}
      (h : SilentRun pg attrs file file₁ φ₁) (hstep : WidenStep pg attrs file₁ φ₁ ev file₂ φ₂)
      (hrow : ev.row = none) : SilentRun pg attrs file file₂ φ₂

/-- A backend comes to the phase, with nothing in between. -/
theorem Solo.silent {P : BackendEvent D → Prop}
    (hsilent : ∀ ev : Event D, ev.row = none → P (.insert ev)) {file file₁ : IndexFile}
    {φ : Phase D} (hsteps : SilentRun pg leaf.attrs file file₁ φ) (committed : Set (Row D))
    {b : Backend D} (hphase : b.phase = .idle) (hreading : b.planning.reading = false) :
    Solo pg leaf P file committed b file₁ committed { b with phase := φ } := by
  induction hsteps with
  | idle =>
      rw [← hphase]
      exact .refl
  | next _ hstep hrow ih =>
      refine ih.tail (.insert hrow hstep) (hsilent _ hrow) fun hbusy => ?_
      cases hreading.symm.trans hbusy

/-- A backend inserts a row, with nothing in between. -/
theorem Solo.insert {P : BackendEvent D → Prop}
    (hsilent : ∀ ev : Event D, ev.row = none → P (.insert ev))
    {file file₁ file₂ : IndexFile} {φ : Phase D} {row : Row D} {widened : Bool}
    (hreturned : P (.insert (.returned row widened)))
    (hsteps : SilentRun pg leaf.attrs file file₁ φ)
    (hreturn : WidenStep pg leaf.attrs file₁ φ (.returned row widened) file₂ .idle)
    (committed : Set (Row D)) {b : Backend D} (hphase : b.phase = .idle)
    (hreading : b.planning.reading = false) {l : Level (Row D) Oid} {ls : List (Level (Row D) Oid)}
    (hlevels : b.levels = l :: ls) :
    Solo pg leaf P file committed b file₂ committed
      { b with
        levels := l.record row
          (if widened then noteWidened leaf.indexoid leaf.heapoid else []) :: ls } := by
  have h := (Solo.silent hsilent hsteps committed hphase hreading).tail
    (.inserted hlevels hreturn) hreturned fun hbusy => by cases hreading.symm.trans hbusy
  rwa [← hphase] at h

/-- The table `{3}`: the first insert of 5 widens the page, and the next one finds
it covered. -/
theorem Mini.exists_inserts :
    let pg := Mini.pg fun _ _ n => n
    ∃ file file', amBuild pg Mini.session Mini.index none [Mini.row 3] = .ok file ∧
      readSummary file = some ⟨[Mini.entry 3 3]⟩ ∧ readSummary file' = some ⟨[Mini.entry 3 5]⟩ ∧
      (∃ φ, SilentRun pg miniLeaf.attrs file file φ ∧
        WidenStep pg miniLeaf.attrs file φ (.returned (Mini.row 5) true) file' .idle) ∧
      ∃ φ, SilentRun pg miniLeaf.attrs file' file' φ ∧
        WidenStep pg miniLeaf.attrs file' φ (.returned (Mini.row 5) false) file' .idle := by
  intro pg
  obtain ⟨file, before, page, hbuild, hs, hbefore, hdecode, hswap, hwritten⟩ := Mini.exists_pages
  have hblob : readBlob (some page) = some (serialize ⟨[Mini.entry 3 5]⟩) := hwritten
  have hs' : deserialize (serialize ⟨[Mini.entry 3 5]⟩) = some ⟨[Mini.entry 3 5]⟩ :=
    deserialize_of_fits Mini.serialize_fits
  have hwiden : WidenStep pg miniLeaf.attrs file (.read Mini.session (Mini.row 5) (readBlob file))
      .silent file (.widened Mini.session (Mini.row 5) before ⟨[Mini.entry 3 5]⟩) := by
    rw [hbefore]
    exact .widen hdecode Mini.widenStable_five
  have hencode : WidenStep pg miniLeaf.attrs file
      (.widened Mini.session (Mini.row 5) before ⟨[Mini.entry 3 5]⟩) .silent file
      (.encoded Mini.session (Mini.row 5) before (serialize ⟨[Mini.entry 3 5]⟩)) := by
    rw [← Mini.encodeFitting_five]
    exact .encode file Mini.session (Mini.row 5) before ⟨[Mini.entry 3 5]⟩
  have hcovered : WidenStep pg miniLeaf.attrs (some page)
      (.read Mini.session (Mini.row 5) (readBlob (some page))) (.returned (Mini.row 5) false)
      (some page) .idle := by
    rw [hblob]
    exact .unchanged hs' rfl
  have hencoded : SilentRun pg miniLeaf.attrs file file
      (.encoded Mini.session (Mini.row 5) before (serialize ⟨[Mini.entry 3 5]⟩)) :=
    .next (.next (.next (.next .idle (.start file Mini.session (Mini.row 5)) rfl)
      (.read file Mini.session (Mini.row 5)) rfl) hwiden rfl) hencode rfl
  exact ⟨file, some page, hbuild, hs, Option.bind_eq_some_iff.mpr ⟨_, hblob, hs'⟩,
    ⟨_, hencoded, .swap hswap⟩, ⟨_, .next (.next .idle
      (.start (some page) Mini.session (Mini.row 5)) rfl)
      (.read (some page) Mini.session (Mini.row 5)) rfl, hcovered⟩⟩

/-- The first backend caches the summary of the table `{3}`, and the second one inserts 5 twice
and commits.  The page covers the second row, and the message of the first one is registered.
The first backend gets it, reads the page again, and prunes `c > 7` with what it finds. -/
theorem cache_coherent_int4 :
    let pg := Mini.pg fun _ _ n => n
    let clause := Mini.compareNode 5 7
    ∃ (init s : ClusterState Bool Int) (snapshot : Set (Row Int)), ClusterInit pg miniLeaf init ∧
      Relation.ReflTransGen (ForewarnedNext (Mini.order fun _ _ n => n) pg.noExtents miniLeaf)
        init s ∧
      (s.backend true).planning = .returned snapshot [Mini.entry 3 5] ∧
      prunes pg Mini.session [Mini.entry 3 5] [clause] = true ∧ Mini.row 5 ∈ snapshot ∧
      ∃ c ∈ [clause], ∀ row ∈ snapshot,
        (Mini.executor fun _ _ n => n).truth pg row c ≠ some true := by
  intro pg clause
  obtain ⟨file, file', hbuild, -, hs', ⟨_, hwiden, hwidened⟩, ⟨φ, hread, hcovered⟩⟩ :=
    Mini.exists_inserts
  let P (ev : BackendEvent Int) : Prop := ∀ row, ev ≠ .insert (.returned row false)
  have hsilent (ev : Event Int) (hrow : ev.row = none) : P (.insert ev) := by
    rintro row ⟨⟩
    cases hrow
  have hforewarned {s s' : ClusterState Bool Int} (h : Relation.ReflTransGen
      (fun s s' => ∃ i ev, ClusterStep pg miniLeaf s i ev s' ∧ P ev) s s') :
      Relation.ReflTransGen (ForewarnedNext (Mini.order fun _ _ n => n) pg.noExtents miniLeaf)
        s s' :=
    Relation.ReflTransGen.mono (fun s s' ⟨i, ev, hstep, hev⟩ =>
      ⟨i, ev, hstep, fun row h => absurd h (hev row)⟩) _ _ h
  let init : ClusterState Bool Int := ⟨file, {Mini.row 3}, fun _ => freshBackend⟩
  have hinit : ClusterInit pg miniLeaf init :=
    ⟨Or.inl ⟨Mini.session, none, [Mini.row 3], hbuild, by simp [init]⟩, fun _ => rfl⟩
  obtain ⟨watcher, hwatch, -, -, hreturned⟩ : ∃ b, Solo pg miniLeaf P file
      {Mini.row 3} freshBackend file {Mini.row 3} b ∧ _ :=
    Solo.planMiss nofun nofun file {Mini.row 3} rfl rfl
  obtain ⟨b, l, hwidening, hphase, hidle, hlevels, hmsgs⟩ : ∃ b l, Solo pg miniLeaf P file
      {Mini.row 3} freshBackend file' {Mini.row 3} b ∧ b.phase = .idle ∧ b.planning = .idle ∧
      b.levels = [l] ∧ miniLeaf.indexoid ∈ l.cmdMsgs := by
    have hbegin : Solo pg miniLeaf P file {Mini.row 3} freshBackend file {Mini.row 3}
        { freshBackend with levels := [.empty] } := .tail .refl (.beginTransaction rfl) nofun nofun
    have hreturn : P (.insert (.returned (Mini.row 5) true)) := nofun
    exact ⟨_, _, hbegin.trans (.insert hsilent hreturn hwiden hwidened {Mini.row 3} rfl rfl rfl),
      rfl, rfl, rfl, by decide⟩
  have hnoread : b.planning.reading = false := by
    rw [hidle]
    rfl
  have hbusy : b.planning.reading = true → BackendEvent.other = (.put : BackendEvent Int) := by
    rw [hnoread]
    nofun
  have hfirst := Solo.run (s := init) (i := true) hwatch
  have hsecond := hfirst.trans (Solo.run (i := false) (hwidening.trans
    (.silent hsilent hread {Mini.row 3} hphase hnoread)))
  -- the insert that finds its row covered, and registers nothing
  let inserting : ClusterState Bool Int :=
    ⟨file', {Mini.row 3}, Function.update (Function.update init.backend true watcher) false
      { b with phase := φ }⟩
  let l' := l.record (Mini.row 5) []
  let inserted : ClusterState Bool Int :=
    ⟨file', {Mini.row 3}, fun j =>
      (Function.update inserting.backend false { b with phase := .idle, levels := [l'] } j).receive
        []⟩
  have hinserted : ForewarnedNext (Mini.order fun _ _ n => n) pg.noExtents miniLeaf
      inserting inserted := by
    refine ⟨false, _, ⟨_, [], .inserted hlevels hcovered, ?_, rfl⟩, fun row _ j cols _ _ => ?_⟩
    · show b.planning.reading = true → _
      rw [hnoread]
      nofun
    · have hlevel : l ∈ (inserting.backend false).levels := by
        rw [show (inserting.backend false).levels = [l] from hlevels]
        exact List.mem_singleton_self l
      cases j with
      | true => exact Or.inr (Or.inl ⟨by decide, l, hlevel, Or.inr hmsgs⟩)
      | false => exact Or.inr (Or.inr ⟨rfl, l, hlevel, hmsgs⟩)
  -- the commit sends the messages to both
  let after : ClusterState Bool Int :=
    ⟨file', {row | l'.Holds row} ∪ {Mini.row 3}, fun j =>
      (Function.update inserted.backend false { inserted.backend false with levels := [] }
        j).receive (l'.msgs ++ l'.cmdMsgs)⟩
  have hcommit : ForewarnedNext (Mini.order fun _ _ n => n) pg.noExtents miniLeaf
      inserted after :=
    ⟨false, .other, ⟨_, _, .commit rfl, hbusy, rfl⟩, nofun⟩
  obtain ⟨planned, hplan, -, -, hplanned⟩ : ∃ b', Solo pg miniLeaf P file' after.committed
      (after.backend true) file' after.committed b' ∧ _ :=
    Solo.planMiss nofun nofun file' after.committed (by
      show watcher.planning.reading = false
      rw [hreturned]
      rfl) (Option.eq_none_iff_forall_ne_some.mpr fun cols hcols =>
        (processMessages_eq_some hcols).2 (List.mem_append_right _
          (List.mem_append_right _ (List.mem_append_left _ hmsgs))))
  rw [hs'] at hplanned
  have hrun := (((hforewarned hsecond).tail hinserted).tail hcommit).trans
    (hforewarned (Solo.run (i := true) hplan))
  have hprune : prunes pg Mini.session [Mini.entry 3 5] [clause] = true := by decide +kernel
  refine ⟨init, _, after.committed ∪ (after.backend true).ownRows, hinit, hrun, hplanned, hprune,
    Or.inl (Or.inl (Or.inr (Set.mem_insert _ _))), ?_⟩
  have hclause : ClauseScope (Mini.order fun _ _ n => n) miniLeaf.attrs clause := by
    refine Mini.clauseScope _ fun arg nulltesttype argisrow hleaf => ?_
    simp [clause, Mini.compareNode, leaf_iff] at hleaf
  refine cache_coherent (Mini.textRoundTrip _) (Mini.order _) pg.noExtents (Mini.btreeLaws _)
    Mini.index_distinct hinit hrun true hplanned Mini.session ?_ hprune
  rintro clause' hmem node hnode row -
  obtain rfl := List.mem_singleton.mp hmem
  exact hclause.leafScope row hnode

/-- The first backend caches the summary of the table `{3}`.  The second one inserts
5 under a savepoint, rolls back to it, inserts 5 again, which the page covers by now,
and commits.  No message is sent, and the first backend prunes the row. -/
theorem not_coherent_savepoint :
    let pg := Mini.pg fun _ _ n => n
    let clause := Mini.compareNode 3 5
    ∃ (init s : ClusterState Bool Int) (snapshot : Set (Row Int)), ClusterInit pg miniLeaf init ∧
      Relation.ReflTransGen (ClusterNext pg miniLeaf) init s ∧
      (s.backend true).planning = .returned snapshot [Mini.entry 3 3] ∧
      prunes pg Mini.session [Mini.entry 3 3] [clause] = true ∧
      Mini.row 5 ∈ snapshot ∧
        (Mini.executor fun _ _ n => n).truth pg (Mini.row 5) clause = some true := by
  intro pg clause
  obtain ⟨file, file', hbuild, hs, -, ⟨_, hwiden, hwidened⟩, ⟨_, hread, hcovered⟩⟩ :=
    Mini.exists_inserts
  let init : ClusterState Bool Int := ⟨file, {Mini.row 3}, fun _ => freshBackend⟩
  have hinit : ClusterInit pg miniLeaf init :=
    ⟨Or.inl ⟨Mini.session, none, [Mini.row 3], hbuild, by simp [init]⟩, fun _ => rfl⟩
  obtain ⟨watcher, hwatch, hcache, hinbox, hreturned⟩ : ∃ b, Solo pg miniLeaf (fun _ => True) file
      {Mini.row 3} freshBackend file {Mini.row 3} b ∧ _ :=
    Solo.planMiss trivial trivial file {Mini.row 3} rfl rfl
  rw [hs] at hcache
  have hbegin : Solo pg miniLeaf (fun _ => True) file {Mini.row 3} freshBackend file {Mini.row 3}
      { freshBackend with levels := [.empty, .empty] } :=
    .tail (.tail .refl (.beginTransaction rfl) trivial nofun) (.savepoint nofun) trivial nofun
  -- the message of the first insert goes with the savepoint, and the second one registers none
  obtain ⟨b, l, hstored, hidle, hlevels, hsilent, hheld⟩ :
    ∃ b l, Solo pg miniLeaf (fun _ => True) file
      {Mini.row 3} freshBackend file' {Mini.row 3} b ∧ b.planning = .idle ∧ b.levels = [l] ∧
      l.msgs ++ l.cmdMsgs = [] ∧ l.Holds (Mini.row 5) := by
    have hinsert := hbegin.trans
      (.insert (fun _ _ => trivial) trivial hwiden hwidened {Mini.row 3} rfl rfl rfl)
    have hundone := (hinsert.tail .endCommand trivial nofun).tail (.rollbackTo rfl) trivial nofun
    have hagain := hundone.trans
      (.insert (fun _ _ => trivial) trivial hread hcovered {Mini.row 3} rfl rfl rfl)
    exact ⟨_, _, hagain.tail .endCommand trivial nofun, rfl, rfl, rfl,
      Or.inl (Or.inr (Set.mem_insert _ _))⟩
  have hcommit : BackendStep pg miniLeaf file' {Mini.row 3} b .other file'
      ({row | l.Holds row} ∪ {Mini.row 3}) { b with levels := [] } [] := by
    rw [← hsilent]
    exact .commit hlevels
  obtain ⟨planned, hplan, hplanned⟩ : ∃ b', Solo pg miniLeaf (fun _ => True) file'
      ({row | l.Holds row} ∪ {Mini.row 3}) watcher file' ({row | l.Holds row} ∪ {Mini.row 3})
      b' ∧ _ :=
    Solo.planHit trivial file' _ (by rw [hreturned]; rfl) hinbox hcache
  have hfirst := Solo.run (s := init) (i := true) hwatch
  have hsecond := hfirst.trans (Solo.run (i := false)
    (hstored.tail hcommit trivial (by rw [hidle]; nofun)))
  have hthird := hsecond.trans (Solo.run (i := true) hplan)
  refine ⟨init, _, {row | l.Holds row} ∪ {Mini.row 3} ∪ watcher.ownRows, hinit,
    Relation.ReflTransGen.mono ?_ _ _ hthird, ?_, by decide +kernel,
      Or.inl (Or.inl hheld), by decide⟩
  · rintro s s' ⟨i, ev, hstep, -⟩
    exact ⟨i, ev, hstep⟩
  · exact hplanned

end Mini

end TableRange
