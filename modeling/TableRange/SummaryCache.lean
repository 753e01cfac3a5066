import TableRange.Leaf
import TableRange.Lib.Levels
import TableRange.Prune

/-!
# The backends of a cluster

`src/summary_cache.rs`, and the backends that use it.  Each backend keeps the
summaries it has decoded, and drops one when a relcache message for its index
arrives.  An insert that widens the page registers such messages in its
transaction; an insert that finds its row covered registers nothing.

`BackendStep` is what one backend can do: the steps of `widen_on_insert`, the
operations on its transaction, and the planning of a query, which takes the
summary from the cache or from the page.  `ClusterStep` lets any number of
backends take these steps in any order.  What PostgreSQL does is in the steps: a
commit makes rows visible and sends the messages of the transaction at once, a
rollback drops both, a backend processes its own messages when the command ends,
and those that have been sent to it before it takes the snapshot of a query.
-/

namespace TableRange

open Lib.Levels

variable {D ι : Type}

/-! ## The cache -/

/-- Index OID to the entries of its decoded summary. -/
abbrev SummaryCache := Oid → Option (List ColSummary)

def SummaryCache.get (cache : SummaryCache) (indexoid : Oid) : Option (List ColSummary) :=
  cache indexoid

def SummaryCache.put (cache : SummaryCache) (indexoid : Oid) (cols : List ColSummary) :
    SummaryCache :=
  Function.update cache indexoid (some cols)

/-- The relations that `note_widened` registers messages for. -/
def noteWidened (indexoid heapoid : Oid) : List Oid := [indexoid, heapoid]

def relcacheCallback (cache : SummaryCache) (relid : Oid) : SummaryCache :=
  if relid = invalidOid then fun _ => none else Function.update cache relid none

/-- The callback runs for one message after the other. -/
def processMessages (cache : SummaryCache) (msgs : List Oid) : SummaryCache :=
  msgs.foldl relcacheCallback cache

/-- What is still cached was cached before, and no message was for it. -/
theorem processMessages_eq_some {cache : SummaryCache} {msgs : List Oid} {indexoid : Oid}
    {cols : List ColSummary} (h : processMessages cache msgs indexoid = some cols) :
    cache indexoid = some cols ∧ indexoid ∉ msgs := by
  induction msgs generalizing cache with
  | nil => exact ⟨h, List.not_mem_nil⟩
  | cons relid msgs ih =>
      obtain ⟨hcached, hno⟩ := ih h
      unfold relcacheCallback at hcached
      split at hcached
      · cases hcached
      · by_cases hrelid : indexoid = relid
        · rw [hrelid, Function.update_self] at hcached
          cases hcached
        · rw [Function.update_of_ne hrelid] at hcached
          exact ⟨hcached, List.not_mem_cons_of_ne_of_not_mem hrelid hno⟩

/-! ## One backend -/

/-- Where a backend is in the planning of a query.  The snapshot is the rows that
the query sees. -/
inductive Planning (D : Type)
  | idle
  | begun (snapshot : Set (Row D))
  /-- `summary_cache::get` has returned `None`. -/
  | missed (snapshot : Set (Row D))
  /-- `read_summary` has returned. -/
  | read (snapshot : Set (Row D)) (cols : List ColSummary)
  /-- `read_index_summary` has returned. -/
  | returned (snapshot : Set (Row D)) (cols : List ColSummary)

def Planning.reading : Planning D → Bool
  | .read _ _ => true
  | .idle | .begun _ | .missed _ | .returned _ _ => false

structure Backend (D : Type) where
  /-- Where it is in `widen_on_insert`. -/
  phase : Phase D
  cache : SummaryCache
  /-- The relcache messages sent to it that it has not processed. -/
  inbox : List Oid
  /-- The levels of its transaction, the innermost first; none outside of one. -/
  levels : List (Level (Row D) Oid)
  planning : Planning D

/-- The rows of its own transaction that the next command sees. -/
def Backend.ownRows (b : Backend D) : Set (Row D) := {row | ∃ l ∈ b.levels, row ∈ l.items}

def Backend.receive (b : Backend D) (sent : List Oid) : Backend D :=
  { b with inbox := b.inbox ++ sent }

/-- A leaf partition with its index. -/
structure IndexedLeaf (D : Type) extends IndexDef D where
  indexoid : Oid
  heapoid : Oid

inductive BackendEvent (D : Type)
  | insert (ev : Event D)
  /-- `summary_cache::put`. -/
  | put
  | other

/-- One step of a backend: the event, the file and the committed rows afterwards,
the backend, and the messages that it sends to all. -/
inductive BackendStep (pg : Pg D) (leaf : IndexedLeaf D) (file : IndexFile)
    (committed : Set (Row D))
    (b : Backend D) :
    BackendEvent D → IndexFile → Set (Row D) → Backend D → List Oid → Prop
  | insert {ev : Event D} {file' : IndexFile} {φ : Phase D} (hrow : ev.row = none)
      (h : WidenStep pg leaf.attrs file b.phase ev file' φ) :
      BackendStep pg leaf file committed b (.insert ev) file' committed { b with phase := φ } []
  /-- `am_insert` returns. -/
  | inserted {row : Row D} {widened : Bool} {file' : IndexFile} {φ : Phase D}
      {l : Level (Row D) Oid} {ls : List (Level (Row D) Oid)} (hlevels : b.levels = l :: ls)
      (h : WidenStep pg leaf.attrs file b.phase (.returned row widened) file' φ) :
      BackendStep pg leaf file committed b (.insert (.returned row widened)) file' committed
        { b with
          phase := φ
          levels := l.record row
            (if widened then noteWidened leaf.indexoid leaf.heapoid else []) :: ls }
        []
  | beginTransaction (hlevels : b.levels = []) :
      BackendStep pg leaf file committed b .other file committed { b with levels := [.empty] } []
  | savepoint (hlevels : b.levels ≠ []) :
      BackendStep pg leaf file committed b .other file committed
        { b with levels := .empty :: b.levels } []
  | release {inner outer : Level (Row D) Oid} {ls : List (Level (Row D) Oid)}
      (hlevels : b.levels = inner :: outer :: ls) :
      BackendStep pg leaf file committed b .other file committed
        { b with levels := inner.merge outer :: ls } []
  /-- The messages of the earlier commands are processed once more. -/
  | rollbackTo {inner outer : Level (Row D) Oid} {ls : List (Level (Row D) Oid)}
      (hlevels : b.levels = inner :: outer :: ls) :
      BackendStep pg leaf file committed b .other file committed
        { b with levels := outer :: ls, cache := processMessages b.cache inner.msgs } []
  | abort :
      BackendStep pg leaf file committed b .other file committed
        { b with levels := [], cache := processMessages b.cache (b.levels.flatMap Level.msgs) } []
  | endCommand :
      BackendStep pg leaf file committed b .other file committed
        { b with
          levels := b.levels.map Level.endCommand
          cache := processMessages b.cache (b.levels.flatMap Level.cmdMsgs) } []
  | commit {l : Level (Row D) Oid} (hlevels : b.levels = [l]) :
      BackendStep pg leaf file committed b .other file ({row | l.Holds row} ∪ committed)
        { b with levels := [] } (l.msgs ++ l.cmdMsgs)
  | processInvalidations :
      BackendStep pg leaf file committed b .other file committed
        { b with cache := processMessages b.cache b.inbox, inbox := [] } []
  | planBegin (hplan : b.planning = .idle) :
      BackendStep pg leaf file committed b .other file committed
        { b with
          cache := processMessages b.cache b.inbox
          inbox := []
          planning := .begun (committed ∪ b.ownRows) } []
  | planGet {snapshot : Set (Row D)} (hplan : b.planning = .begun snapshot) :
      BackendStep pg leaf file committed b .other file committed
        { b with
          planning := match b.cache.get leaf.indexoid with
            | some cols => .returned snapshot cols
            | none => .missed snapshot } []
  | planRead {snapshot : Set (Row D)} (hplan : b.planning = .missed snapshot) :
      BackendStep pg leaf file committed b .other file committed
        { b with planning := .read snapshot (summaryCols (readSummary file)) } []
  | planPut {snapshot : Set (Row D)} {cols : List ColSummary}
      (hplan : b.planning = .read snapshot cols) :
      BackendStep pg leaf file committed b .put file committed
        { b with cache := b.cache.put leaf.indexoid cols, planning := .returned snapshot cols } []
  | planEnd :
      BackendStep pg leaf file committed b .other file committed { b with planning := .idle } []

/-! ## The cluster -/

structure ClusterState (ι D : Type) where
  file : IndexFile
  /-- The rows of the transactions that have committed. -/
  committed : Set (Row D)
  backend : ι → Backend D

variable [DecidableEq ι]

/-- The backend `i` takes a step.  Between `read_summary` and `put` it does nothing
else. -/
def ClusterStep (pg : Pg D) (leaf : IndexedLeaf D) (s : ClusterState ι D) (i : ι)
    (ev : BackendEvent D) (s' : ClusterState ι D) : Prop :=
  ∃ b sent, BackendStep pg leaf s.file s.committed (s.backend i) ev s'.file s'.committed b sent ∧
    ((s.backend i).planning.reading = true → ev = .put) ∧
    s'.backend = fun j => (Function.update s.backend i b j).receive sent

/-- Some backend takes a step. -/
def ClusterNext (pg : Pg D) (leaf : IndexedLeaf D) (s s' : ClusterState ι D) : Prop :=
  ∃ i ev, ClusterStep pg leaf s i ev s'

/-! ## What a step does -/

/-- The backend has the entries in its cache, or is about to put them there. -/
def Backend.Keeps (b : Backend D) (indexoid : Oid) (cols : List ColSummary) : Prop :=
  b.cache indexoid = some cols ∨ ∃ snapshot, b.planning = .read snapshot cols

/-- The backend has processed the message: it is gone from the inbox, or the command that
has registered it has ended. -/
def Backend.Processes (b b' : Backend D) (m : Oid) : Prop :=
  (m ∈ b.inbox ∧ m ∉ b'.inbox) ∨
    (CmdRegistered m b.levels ∧ b'.levels = b.levels.map Level.endCommand)

section Step

variable {pg : Pg D} {leaf : IndexedLeaf D} {file file' : IndexFile}
  {committed committed' : Set (Row D)} {b b' : Backend D}
  {ev : BackendEvent D} {sent : List Oid} {m : Oid}

/-- A row that another backend keeps no cover for: it stays uncommitted and
announced, or the step sends the invalidation. -/
theorem BackendStep.announced (h : BackendStep pg leaf file committed b ev file' committed' b' sent)
    (hm : m ∈ noteWidened leaf.indexoid leaf.heapoid) {row : Row D} (hrow : row ∉ committed)
    (hannounced : Announced m row b.levels)
    (hcond : ev = .insert (.returned row false) → Registered m b.levels) :
    m ∈ sent ∨ (row ∉ committed' ∧ Announced m row b'.levels) := by
  cases h with
  | inserted hlevels hwiden =>
      rename_i row' widened φ l ls
      refine Or.inr ⟨hrow, ?_⟩
      rw [hlevels] at hannounced hcond
      refine hannounced.record fun hsame => ?_
      cases widened with
      | true => exact Or.inl hm
      | false => exact Or.inr (hcond (by rw [hsame]))
  | beginTransaction hlevels => exact Or.inr ⟨hrow, .push (hlevels ▸ hannounced)⟩
  | savepoint _ => exact Or.inr ⟨hrow, .push hannounced⟩
  | release hlevels => exact Or.inr ⟨hrow, .merge (hlevels ▸ hannounced)⟩
  | rollbackTo hlevels =>
      rw [hlevels] at hannounced
      exact Or.inr ⟨hrow, hannounced.2⟩
  | abort => exact Or.inr ⟨hrow, trivial⟩
  | endCommand => exact Or.inr ⟨hrow, .endCommand hannounced⟩
  | commit hlevels =>
      rename_i l
      rw [hlevels] at hannounced
      by_cases hheld : l.Holds row
      · obtain ⟨l', hl', hreg⟩ := hannounced.1 hheld
        obtain rfl := List.mem_singleton.mp hl'
        exact Or.inl (List.mem_append.mpr hreg)
      · exact Or.inr ⟨fun hno => hno.elim hheld hrow, trivial⟩
  | insert _ _ => exact Or.inr ⟨hrow, hannounced⟩
  | processInvalidations => exact Or.inr ⟨hrow, hannounced⟩
  | planBegin _ => exact Or.inr ⟨hrow, hannounced⟩
  | planGet _ => exact Or.inr ⟨hrow, hannounced⟩
  | planRead _ => exact Or.inr ⟨hrow, hannounced⟩
  | planPut _ => exact Or.inr ⟨hrow, hannounced⟩
  | planEnd => exact Or.inr ⟨hrow, hannounced⟩

/-- A row that the backend itself keeps no cover for: its deferral goes on until the
message is processed, or the step sends it. -/
theorem BackendStep.deferred (h : BackendStep pg leaf file committed b ev file' committed' b' sent)
    (hm : m ∈ noteWidened leaf.indexoid leaf.heapoid) {row : Row D} (hrow : row ∉ committed)
    (hdeferred : Deferred m row b.levels) (hno : ¬b.Processes b' m)
    (hcond : ev = .insert (.returned row false) → CmdRegistered m b.levels) :
    m ∈ sent ∨ (row ∉ committed' ∧ Deferred m row b'.levels) := by
  cases h with
  | inserted hlevels hwiden =>
      rename_i row' widened φ l ls
      refine Or.inr ⟨hrow, ?_⟩
      rw [hlevels] at hdeferred hcond
      refine hdeferred.record fun hsame => ?_
      cases widened with
      | true => exact Or.inl hm
      | false => exact Or.inr (hcond (by rw [hsame]))
  | beginTransaction hlevels => exact Or.inr ⟨hrow, .push (hlevels ▸ hdeferred)⟩
  | savepoint _ => exact Or.inr ⟨hrow, .push hdeferred⟩
  | release hlevels => exact Or.inr ⟨hrow, .merge (hlevels ▸ hdeferred)⟩
  | rollbackTo hlevels =>
      rw [hlevels] at hdeferred
      exact Or.inr ⟨hrow, hdeferred.2.2⟩
  | abort => exact Or.inr ⟨hrow, trivial⟩
  | endCommand => exact Or.inr ⟨hrow, hdeferred.endCommand fun hreg => hno (Or.inr ⟨hreg, rfl⟩)⟩
  | commit hlevels =>
      rename_i l
      rw [hlevels] at hdeferred
      by_cases hheld : l.Holds row
      · obtain ⟨l', hl', hreg⟩ := hdeferred.2.1 (hheld.resolve_left hdeferred.1)
        obtain rfl := List.mem_singleton.mp hl'
        exact Or.inl (List.mem_append_right _ hreg)
      · exact Or.inr ⟨fun hstored => hstored.elim hheld hrow, trivial⟩
  | insert _ _ => exact Or.inr ⟨hrow, hdeferred⟩
  | processInvalidations => exact Or.inr ⟨hrow, hdeferred⟩
  | planBegin _ => exact Or.inr ⟨hrow, hdeferred⟩
  | planGet _ => exact Or.inr ⟨hrow, hdeferred⟩
  | planRead _ => exact Or.inr ⟨hrow, hdeferred⟩
  | planPut _ => exact Or.inr ⟨hrow, hdeferred⟩
  | planEnd => exact Or.inr ⟨hrow, hdeferred⟩

theorem mem_flatMap_cmdMsgs {m : Oid} {ls : List (Level (Row D) Oid)} :
    m ∈ ls.flatMap Level.cmdMsgs ↔ CmdRegistered m ls := by
  simp [CmdRegistered]

/-- With the inbox and what the command has registered as they were, nothing is
processed. -/
theorem Backend.not_processes (hinbox : b'.inbox = b.inbox)
    (hlevels : CmdRegistered m b.levels → CmdRegistered m b'.levels) : ¬b.Processes b' m := by
  rintro (⟨hin, hout⟩ | ⟨hreg, hend⟩)
  · exact hout (hinbox ▸ hin)
  · have hreg' := hlevels hreg
    rw [hend] at hreg'
    exact not_cmdRegistered_endCommand hreg'

/-- Nothing is processed either when levels come or go. -/
theorem Backend.not_processes_of_length (hinbox : b'.inbox = b.inbox)
    (hlevels : CmdRegistered m b.levels → b'.levels.length ≠ b.levels.length) :
    ¬b.Processes b' m := by
  rintro (⟨hin, hout⟩ | ⟨hreg, hend⟩)
  · exact hout (hinbox ▸ hin)
  · exact hlevels hreg (by rw [hend, List.length_map])

/-- What is sent in the step is not processed in it. -/
theorem Backend.Processes.of_receive (h : b.Processes (b'.receive sent) m) : b.Processes b' m :=
  h.imp_left fun hin => ⟨hin.1, fun hout => hin.2 (List.mem_append_left sent hout)⟩

/-- Entries that the backend keeps after the step: it has read them from the page just
now, or it kept them before and has processed no message for them. -/
theorem BackendStep.keeps (h : BackendStep pg leaf file committed b ev file' committed' b' sent)
    (hreading : b.planning.reading = true → ev = .put) {cols : List ColSummary}
    (hkeeps : b'.Keeps leaf.indexoid cols) :
    (cols = summaryCols (readSummary file) ∧ committed' = committed ∧ b'.levels = b.levels) ∨
      (b.Keeps leaf.indexoid cols ∧ ¬b.Processes b' leaf.indexoid) := by
  -- what is kept after messages have been processed is in the cache
  have hcached : ev ≠ .put → ∀ msgs, b'.cache = processMessages b.cache msgs →
      (b'.planning = b.planning ∨ b'.planning.reading = false) →
      b.Keeps leaf.indexoid cols ∧ leaf.indexoid ∉ msgs := by
    intro hput msgs hcache hplan
    rcases hkeeps with hkept | ⟨snapshot, hread⟩
    · obtain ⟨hkept, hno⟩ := processMessages_eq_some (hcache ▸ hkept)
      exact ⟨Or.inl hkept, hno⟩
    · rcases hplan with hplan | hplan
      · exact absurd (hreading (by rw [← hplan, hread]; rfl)) hput
      · rw [hread] at hplan
        cases hplan
  cases h with
  | insert _ _ => exact Or.inr ⟨hkeeps, Backend.not_processes rfl id⟩
  | inserted hlevels hwiden =>
      refine Or.inr ⟨hkeeps, Backend.not_processes rfl ?_⟩
      rw [hlevels]
      exact .record
  | beginTransaction hlevels =>
      exact Or.inr ⟨hkeeps, Backend.not_processes_of_length rfl fun _ => by simp [hlevels]⟩
  | savepoint _ =>
      exact Or.inr ⟨hkeeps, Backend.not_processes_of_length rfl fun _ => by simp⟩
  | release hlevels =>
      exact Or.inr ⟨hkeeps, Backend.not_processes_of_length rfl fun _ => by simp [hlevels]⟩
  | rollbackTo hlevels =>
      exact Or.inr ⟨(hcached nofun _ rfl (Or.inl rfl)).1,
        Backend.not_processes_of_length rfl fun _ => by simp [hlevels]⟩
  | abort =>
      refine Or.inr ⟨(hcached nofun _ rfl (Or.inl rfl)).1,
        Backend.not_processes_of_length rfl fun hreg hlength => ?_⟩
      obtain ⟨l, hl, -⟩ := hreg
      rw [List.length_nil, eq_comm, List.length_eq_zero_iff] at hlength
      exact List.ne_nil_of_mem hl hlength
  | endCommand =>
      obtain ⟨hkept, hno⟩ := hcached nofun _ rfl (Or.inl rfl)
      rw [mem_flatMap_cmdMsgs] at hno
      exact Or.inr ⟨hkept, Backend.not_processes rfl fun hreg => absurd hreg hno⟩
  | commit hlevels =>
      exact Or.inr ⟨hkeeps, Backend.not_processes_of_length rfl fun _ => by simp [hlevels]⟩
  | processInvalidations =>
      obtain ⟨hkept, hno⟩ := hcached nofun _ rfl (Or.inl rfl)
      refine Or.inr ⟨hkept, fun hprocessed => ?_⟩
      rcases hprocessed with ⟨hin, -⟩ | ⟨hreg, hend⟩
      · exact hno hin
      · exact not_cmdRegistered_endCommand (hend ▸ hreg)
  | planBegin _ =>
      obtain ⟨hkept, hno⟩ := hcached nofun _ rfl (Or.inr rfl)
      refine Or.inr ⟨hkept, fun hprocessed => ?_⟩
      rcases hprocessed with ⟨hin, -⟩ | ⟨hreg, hend⟩
      · exact hno hin
      · exact not_cmdRegistered_endCommand (hend ▸ hreg)
  | planGet _ =>
      refine Or.inr ⟨(hcached nofun [] rfl (Or.inr ?_)).1, Backend.not_processes rfl id⟩
      simp only
      split <;> rfl
  | planRead _ =>
      rcases hkeeps with hkept | ⟨snapshot, hread⟩
      · exact Or.inr ⟨Or.inl hkept, Backend.not_processes rfl id⟩
      · cases hread
        exact Or.inl ⟨rfl, rfl, rfl⟩
  | planPut hplan =>
      rename_i snapshot cols'
      refine Or.inr ⟨Or.inr ⟨snapshot, ?_⟩, Backend.not_processes rfl id⟩
      rcases hkeeps with hkept | ⟨snapshot', hread⟩
      · simp only [SummaryCache.put, Function.update_self, Option.some.injEq] at hkept
        rw [hplan, hkept]
      · cases hread
  | planEnd =>
      exact Or.inr ⟨(hcached nofun [] rfl (Or.inr rfl)).1, Backend.not_processes rfl id⟩

/-- A row that is stored after the step was stored before it, or is the row of an
insert that has returned. -/
theorem BackendStep.stored (h : BackendStep pg leaf file committed b ev file' committed' b' sent)
    {row : Row D} (hrow : row ∈ committed' ∨ ∃ l ∈ b'.levels, l.Holds row) :
    (row ∈ committed ∨ ∃ l ∈ b.levels, l.Holds row) ∨
      ∃ widened, ev = .insert (.returned row widened) := by
  cases h with
  | inserted hlevels hwiden =>
      rename_i row' widened φ l ls
      rw [hlevels]
      rcases hrow with hrow | ⟨l', hl', hheld⟩
      · exact Or.inl (Or.inl hrow)
      · rcases List.mem_cons.mp hl' with rfl | hl'
        · rcases Level.holds_record.mp hheld with rfl | hheld
          · exact Or.inr ⟨widened, rfl⟩
          · exact Or.inl (Or.inr ⟨l, List.mem_cons_self, hheld⟩)
        · exact Or.inl (Or.inr ⟨l', List.mem_cons_of_mem _ hl', hheld⟩)
  | beginTransaction hlevels => exact Or.inl (hrow.imp_right fun ⟨l', hl', hheld⟩ => by
      obtain rfl := List.mem_singleton.mp hl'
      exact absurd hheld Level.not_holds_empty)
  | savepoint _ =>
      refine Or.inl (hrow.imp_right fun ⟨l', hl', hheld⟩ => ?_)
      rcases List.mem_cons.mp hl' with rfl | hl'
      · exact absurd hheld Level.not_holds_empty
      · exact ⟨l', hl', hheld⟩
  | release hlevels =>
      rename_i inner outer ls
      rw [hlevels]
      refine Or.inl (hrow.imp_right fun ⟨l', hl', hheld⟩ => ?_)
      rcases List.mem_cons.mp hl' with rfl | hl'
      · rcases Level.holds_merge.mp hheld with hheld | hheld
        · exact ⟨outer, by simp, hheld⟩
        · exact ⟨inner, by simp, hheld⟩
      · exact ⟨l', by simp [hl'], hheld⟩
  | rollbackTo hlevels =>
      rw [hlevels]
      exact Or.inl (hrow.imp_right fun ⟨l', hl', hheld⟩ => ⟨l', List.mem_cons_of_mem _ hl', hheld⟩)
  | abort => exact Or.inl (hrow.imp_right fun ⟨_, hl', _⟩ => absurd hl' List.not_mem_nil)
  | endCommand =>
      refine Or.inl (hrow.imp_right fun ⟨l', hl', hheld⟩ => ?_)
      obtain ⟨l, hl, rfl⟩ := List.mem_map.mp hl'
      exact ⟨l, hl, Level.holds_endCommand.mp hheld⟩
  | commit hlevels =>
      rename_i l
      rw [hlevels]
      rcases hrow with (hheld | hrow) | ⟨_, hl', _⟩
      · exact Or.inl (Or.inr ⟨l, List.mem_cons_self, hheld⟩)
      · exact Or.inl (Or.inl hrow)
      · cases hl'
  | insert _ _ => exact Or.inl hrow
  | processInvalidations => exact Or.inl hrow
  | planBegin _ => exact Or.inl hrow
  | planGet _ => exact Or.inl hrow
  | planRead _ => exact Or.inl hrow
  | planPut _ => exact Or.inl hrow
  | planEnd => exact Or.inl hrow

/-- Only an insert touches the page. -/
theorem BackendStep.page (h : BackendStep pg leaf file committed b ev file' committed' b' sent) :
    (∃ e, ev = .insert e ∧ WidenStep pg leaf.attrs file b.phase e file' b'.phase) ∨
      (file' = file ∧ b'.phase = b.phase ∧ ∀ e, ev ≠ .insert e) := by
  cases h with
  | insert hrow hwiden => exact Or.inl ⟨_, rfl, hwiden⟩
  | inserted hlevels hwiden => exact Or.inl ⟨_, rfl, hwiden⟩
  | beginTransaction _ => exact Or.inr ⟨rfl, rfl, nofun⟩
  | savepoint _ => exact Or.inr ⟨rfl, rfl, nofun⟩
  | release _ => exact Or.inr ⟨rfl, rfl, nofun⟩
  | rollbackTo _ => exact Or.inr ⟨rfl, rfl, nofun⟩
  | abort => exact Or.inr ⟨rfl, rfl, nofun⟩
  | endCommand => exact Or.inr ⟨rfl, rfl, nofun⟩
  | commit _ => exact Or.inr ⟨rfl, rfl, nofun⟩
  | processInvalidations => exact Or.inr ⟨rfl, rfl, nofun⟩
  | planBegin _ => exact Or.inr ⟨rfl, rfl, nofun⟩
  | planGet _ => exact Or.inr ⟨rfl, rfl, nofun⟩
  | planRead _ => exact Or.inr ⟨rfl, rfl, nofun⟩
  | planPut _ => exact Or.inr ⟨rfl, rfl, nofun⟩
  | planEnd => exact Or.inr ⟨rfl, rfl, nofun⟩

end Step

end TableRange
