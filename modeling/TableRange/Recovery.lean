import TableRange.CacheCoherence
import TableRange.Lib.Wal
import TableRange.Storage.Logged

/-!
# Crashes and standbys

The summary has no transactions of its own: a widening is logged when it is made, and stays
whatever becomes of the transaction.  What has to hold is an order.  A row counts from the
record of its commit on, and the image of the page that took it in is earlier in the log; so
wherever the log ends, after a crash or on a standby that replays it, the page covers the
rows that count.

`LoggedNext` is the leaf with its log: inserters that interleave as in `Leaf.lean`, commits,
and crashes that keep a prefix of the log.  An unlogged leaf is reset instead.  It is empty
then, and its index is the init fork, in which `am_buildempty` has written nothing.
-/

namespace TableRange

open Lib.Fallible Lib.Wal

variable {D ι Image : Type} {pg : Pg D} {attrs : List (IndexAttr D)} {xlog : GenericXLog Image}
  {needsWal : Bool}

/-! ## The machine -/

/-- A step of an inserter, with the image that it logs.  Only `replace_blob_if` writes. -/
inductive LoggedStep (pg : Pg D) (attrs : List (IndexAttr D)) (xlog : GenericXLog Image)
    (needsWal : Bool) :
    BufferFile → Phase D → Event D → BufferFile → Phase D → Option Image → Prop
  | replace {buffer buffer' : BufferFile} {session : Session} {row : Row D} {before after : Bytes}
      {r : Except String Bool} {image : Option Image} {ev : Event D} {φ : Phase D}
      (hreplace : buffer.replaceBlobIf xlog needsWal before after = (r, buffer', image))
      (h : WidenStep pg attrs buffer.file (.encoded session row before after) ev buffer'.file φ) :
      LoggedStep pg attrs xlog needsWal buffer (.encoded session row before after) ev buffer' φ
        image
  | other {buffer : BufferFile} {φ φ' : Phase D} {ev : Event D}
      (hφ : ∀ session row before after, φ ≠ .encoded session row before after)
      (h : WidenStep pg attrs buffer.file φ ev buffer.file φ') :
      LoggedStep pg attrs xlog needsWal buffer φ ev buffer φ' none

/-- The leaf and its log. -/
structure LoggedLeaf (ι D Image : Type) where
  /-- The file before the log, and the rows committed by then. -/
  base : BufferFile
  kept : Set (Row D)
  log : List (Record Image (Row D))
  buffer : BufferFile
  phase : ι → Phase D
  /-- The rows whose inserts have returned since the last crash. -/
  returned : Set (Row D)

/-- `am_buildempty` writes nothing. -/
def initFork : BufferFile := none

/-- The leaf as its inserters see it. -/
def LoggedLeaf.leaf (s : LoggedLeaf ι D Image) : LeafState ι D where
  file := s.buffer.file
  phase := s.phase
  returned := s.returned

/-- The rows that count. -/
def LoggedLeaf.rows (s : LoggedLeaf ι D Image) : Set (Row D) :=
  s.kept ∪ committed s.log ∪ s.returned

inductive LoggedNext [DecidableEq ι] (pg : Pg D) (attrs : List (IndexAttr D))
    (xlog : GenericXLog Image) (needsWal : Bool) (s : LoggedLeaf ι D Image) :
    LoggedLeaf ι D Image → Prop
  | insert {i : ι} {ev : Event D} {buffer : BufferFile} {φ : Phase D} {image : Option Image}
      (h : LoggedStep pg attrs xlog needsWal s.buffer (s.phase i) ev buffer φ image) :
      LoggedNext pg attrs xlog needsWal s
        { s with
          buffer := buffer
          phase := Function.update s.phase i φ
          returned := {row | ev.row = some row} ∪ s.returned
          log := s.log ++ image.toList.map .image }
  /-- A transaction commits what it has inserted. -/
  | commit {rows : Set (Row D)} (h : rows ⊆ s.returned) :
      LoggedNext pg attrs xlog needsWal s { s with log := s.log ++ [.commit rows] }
  | crash (hwal : needsWal = true) {log : List (Record Image (Row D))} (h : log <+: s.log) :
      LoggedNext pg attrs xlog needsWal s
        { s with
          log := log
          buffer := replay (BufferFile.redo xlog) s.base log
          phase := fun _ => .idle
          returned := ∅ }
  /-- A crash empties an unlogged leaf. -/
  | reset (hwal : needsWal = false) :
      LoggedNext pg attrs xlog needsWal s
        { base := initFork
          kept := ∅
          log := []
          buffer := initFork
          phase := fun _ => .idle
          returned := ∅ }

/-- The leaf after its index has been built. -/
structure LoggedInit (pg : Pg D) (index : IndexDef D) (scanned : List (Row D))
    (s : LoggedLeaf ι D Image) : Prop where
  leaf : LeafInit pg index scanned s.leaf
  base : s.base = s.buffer
  kept : s.kept = {row | row ∈ scanned}
  log : s.log = []

/-- The file that a build writes. -/
theorem exists_amBuild_buffer (wal : xlog.Laws) (needsWal : Bool) {session : Session}
    {index : IndexDef D} {rows : List (Row D)} {buffer : BufferFile} {file : IndexFile}
    (h : amBuild pg session index buffer.file rows = .ok file) :
    ∃ data buffer' image, buffer.writeBlob xlog needsWal data = (.ok (), buffer', image) ∧
      buffer'.file = file := by
  unfold amBuild at h
  split at h
  · cases h
  · obtain ⟨built, -, h⟩ := bind_eq_ok.mp h
    split at h
    · rename_i hwrite
      cases h
      rcases hbuffer : buffer.writeBlob xlog needsWal (encodeFitting built).2 with
        ⟨r, buffer', image⟩
      have hfile := BufferFile.writeBlob_file wal hbuffer
      rw [← writeSummary, hwrite] at hfile
      obtain ⟨rfl, rfl⟩ := Prod.mk.inj hfile
      exact ⟨_, buffer', image, hbuffer, rfl⟩
    · cases h

/-! ## What every reachable state keeps -/

variable (ord : pg.BtreeOrder) (eord : pg.ExtentOrder)

/-- The page covers the rows, if it decodes. -/
def BufferFile.Has (attrs : List (IndexAttr D)) (buffer : BufferFile) (rows : Set (Row D)) :
    Prop :=
  BlobCovers ord eord attrs (readBlob buffer.file) (rowValues rows)

structure LoggedInv (io : pg.TextRoundTrip) (hdistinct : DistinctColumns attrs)
    (xlog : GenericXLog Image) (needsWal : Bool) (s : LoggedLeaf ι D Image) : Prop where
  leaf : LeafInv ord eord io hdistinct s.leaf
  has : s.buffer.Has ord eord attrs (s.kept ∪ committed s.log)
  replayed : needsWal = true → replay (BufferFile.redo xlog) s.base s.log = s.buffer
  safe : needsWal = true →
    Safe (BufferFile.redo xlog) (BufferFile.Has ord eord attrs) s.base s.kept s.log

variable {ord eord} {io : pg.TextRoundTrip} {hdistinct : DistinctColumns attrs}

theorem LoggedStep.widenStep {buffer buffer' : BufferFile} {φ φ' : Phase D} {ev : Event D}
    {image : Option Image} (h : LoggedStep pg attrs xlog needsWal buffer φ ev buffer' φ' image) :
    WidenStep pg attrs buffer.file φ ev buffer'.file φ' := by
  cases h with
  | replace _ h => exact h
  | other _ h => exact h

theorem LoggedStep.logged (wal : xlog.Laws) {buffer buffer' : BufferFile} {φ φ' : Phase D}
    {ev : Event D} {image : Option Image}
    (h : LoggedStep pg attrs xlog true buffer φ ev buffer' φ' image) :
    image = none ∧ buffer' = buffer ∨ ∃ im, image = some im ∧ buffer' = .redo xlog im := by
  cases h with
  | replace hreplace _ => exact BufferFile.replaceBlobIf_logged wal hreplace
  | other _ _ => exact Or.inl ⟨rfl, rfl⟩

/-- Nobody is inserting. -/
theorem LeafInv.of_idle {s : LeafState ι D} {vals : IndexAttr D → Set (Option D)}
    (hcovers : BlobCovers ord eord attrs (readBlob s.file) vals) (hidle : ∀ i, s.phase i = .idle)
    (hreturned : s.returned = ∅) : LeafInv ord eord io hdistinct s := by
  refine ⟨fun i => ?_, ⟨hcovers.mono fun _ => Set.empty_subset _, fun i => ?_, fun row hrow => ?_⟩⟩
  · rw [hidle i]
    trivial
  · rw [show s.abs.phase i = (s.phase i).abs from rfl, hidle i]
    trivial
  · rw [show s.abs.returned = s.returned from rfl, hreturned] at hrow
    cases hrow

theorem LoggedInv.rows {s : LoggedLeaf ι D Image}
    (h : LoggedInv ord eord io hdistinct xlog needsWal s) :
    s.buffer.Has ord eord attrs s.rows :=
  h.has.addRows h.leaf.cas.has

theorem LoggedInv.step [DecidableEq ι] (wal : xlog.Laws) {s s' : LoggedLeaf ι D Image}
    (hinv : LoggedInv ord eord io hdistinct xlog needsWal s)
    (h : LoggedNext pg attrs xlog needsWal s s') :
    LoggedInv ord eord io hdistinct xlog needsWal s' := by
  cases h with
  | insert h =>
      rename_i i ev buffer φ image
      obtain ⟨hleaf, hle⟩ := hinv.leaf.step (LeafState.next_after h.widenStep)
      have hcommitted : committed (s.log ++ image.toList.map .image) = committed s.log := by
        cases image <;> simp
      refine ⟨hleaf, ?_, fun hwal => ?_, fun hwal => ?_⟩
      · rw [hcommitted]
        exact hle.covers _ hinv.has
      · subst hwal
        rcases h.logged wal with ⟨rfl, rfl⟩ | ⟨im, rfl, rfl⟩
        · simpa using hinv.replayed rfl
        · exact replay_image im
      · subst hwal
        rcases h.logged wal with ⟨rfl, rfl⟩ | ⟨im, rfl, rfl⟩
        · simpa using hinv.safe rfl
        · refine (hinv.safe rfl).image fun rows hrows => ?_
          rw [hinv.replayed rfl] at hrows
          exact hle.covers _ hrows
  | commit hrows =>
      rename_i rows
      have hhas : s.buffer.Has ord eord attrs (s.kept ∪ committed s.log ∪ rows) :=
        hinv.rows.mono (rowValues_mono (Set.union_subset_union_right _ hrows))
      refine ⟨hinv.leaf, ?_, fun hwal => ?_, fun hwal => ?_⟩
      · rw [committed_commit, ← Set.union_assoc]
        exact hhas
      · rw [replay_commit]
        exact hinv.replayed hwal
      · refine (hinv.safe hwal).commit ?_
        rw [hinv.replayed hwal]
        exact hhas
  | crash hwal hcut =>
      have hsafe := (hinv.safe hwal).cut hcut
      exact ⟨.of_idle hsafe.whole (fun _ => rfl) rfl, hsafe.whole, fun _ => rfl, fun _ => hsafe⟩
  | reset hwal =>
      have hnone : initFork.Has ord eord attrs (∅ ∪ ∅) := by
        intro summary hsummary
        cases hsummary
      refine ⟨.of_idle hnone (fun _ => rfl) rfl, hnone, ?_, ?_⟩
      · simp [hwal]
      · simp [hwal]

theorem LoggedInv.run [DecidableEq ι] (wal : xlog.Laws) {s s' : LoggedLeaf ι D Image}
    (hinv : LoggedInv ord eord io hdistinct xlog needsWal s)
    (hrun : Relation.ReflTransGen (LoggedNext pg attrs xlog needsWal) s s') :
    LoggedInv ord eord io hdistinct xlog needsWal s' := by
  induction hrun with
  | refl => exact hinv
  | tail _ hnext ih => exact ih.step wal hnext

theorem LoggedInit.inv {index : IndexDef D} {hdistinct : DistinctColumns index.attrs}
    {scanned : List (Row D)} {s : LoggedLeaf ι D Image} (h : LoggedInit pg index scanned s) :
    LoggedInv ord eord io hdistinct xlog needsWal s := by
  obtain ⟨hleaf, hcovers⟩ := h.leaf.inv ord eord io hdistinct
  have hhas : s.buffer.Has ord eord index.attrs s.kept := by
    rw [h.kept]
    exact hcovers
  refine ⟨hleaf, ?_, fun _ => ?_, fun _ => ?_⟩
  · rw [h.log]
    simpa [committed] using hhas
  · rw [h.log, h.base]
    rfl
  · rw [h.log, h.base]
    exact .nil hhas

/-! ## Decisions after a crash and on a standby -/

/-- If the page prunes, one of the clauses is true on none of the rows. -/
def BufferFile.PrunesSafely (pg : Pg D) (ex : Executor D) (session : Session)
    (clauses : List (Node D)) (buffer : BufferFile) (rows : Set (Row D)) : Prop :=
  prunes pg session (summaryCols (readSummary buffer.file)) clauses = true →
    ∃ clause ∈ clauses, ∀ row ∈ rows, ex.truth pg row clause ≠ some true

theorem BufferFile.Has.prunesSafely {ex : Executor D} (io : pg.TextRoundTrip)
    (laws : ex.BtreeLaws ord) {buffer : BufferFile} {rows : Set (Row D)}
    (hhas : buffer.Has ord eord attrs rows) (session : Session) {clauses : List (Node D)}
    (hscope : ∀ clause ∈ clauses, ∀ node, Leaf node clause → ∀ row ∈ rows,
      LeafScope ord eord ex attrs row node) :
    buffer.PrunesSafely pg ex session clauses rows := by
  intro hprune
  obtain ⟨hne, clause, hclause, hproves⟩ := prunes_cases hprune
  refine ⟨clause, hclause, fun row hrow => ?_⟩
  cases hs : readSummary buffer.file with
  | none =>
      rw [hs] at hne
      exact absurd rfl hne
  | some summary =>
      rw [hs] at hproves
      exact clause_sound_of_covers io laws session.guc.pin_stable (hhas summary hs) hrow
        (fun node hnode => hscope clause hclause node hnode row hrow) hproves

/-- Whatever has been inserted, committed and lost in crashes, the page prunes no row that
counts.  On a logged leaf the same holds wherever a standby has stopped in the log.  The columns
of the index are distinct, and the clauses are those that `Coverage.lean` is about. -/
theorem recovery_sound [DecidableEq ι] (wal : xlog.Laws) (io : pg.TextRoundTrip)
    (ord : pg.BtreeOrder) (eord : pg.ExtentOrder) {ex : Executor D} (laws : ex.BtreeLaws ord)
    {index : IndexDef D} (hdistinct : DistinctColumns index.attrs) {scanned : List (Row D)}
    {init s : LoggedLeaf ι D Image} (hinit : LoggedInit pg index scanned init)
    (hrun : Relation.ReflTransGen (LoggedNext pg index.attrs xlog needsWal) init s)
    (session : Session) {clauses : List (Node D)}
    (hscope : ∀ clause ∈ clauses, ∀ node, Leaf node clause → ∀ row ∈ s.rows,
      LeafScope ord eord ex index.attrs row node) :
    s.buffer.PrunesSafely pg ex session clauses s.rows ∧
      (needsWal = true → ∀ log, log <+: s.log →
        BufferFile.PrunesSafely pg ex session clauses (replay (BufferFile.redo xlog) s.base log)
          (s.kept ∪ committed log)) := by
  have hinv : LoggedInv ord eord io hdistinct xlog needsWal s := hinit.inv.run wal hrun
  refine ⟨hinv.rows.prunesSafely io laws session hscope, fun hwal log hcut => ?_⟩
  have hrows : s.kept ∪ committed log ⊆ s.rows :=
    (Set.union_subset_union_right _ (committed_subset hcut)).trans Set.subset_union_left
  exact BufferFile.Has.prunesSafely io laws (hinv.safe hwal log hcut) session
    fun clause hclause node hnode row hrow => hscope clause hclause node hnode row (hrows hrow)

section Mini

/-- A leaf with one inserter. -/
abbrev Mini.Logged := LoggedLeaf Unit Int PageImage

/-- The only inserter is in the phase. -/
def Mini.inPhase (s : Mini.Logged) (φ : Phase Int) : Mini.Logged :=
  { s with phase := fun _ => φ }

/-- A step that neither writes nor returns. -/
theorem Mini.silentStep {pg : Pg Int} {attrs : List (IndexAttr Int)} (s : Mini.Logged)
    {φ φ' : Phase Int} (hφ : ∀ session row before after, φ ≠ .encoded session row before after)
    (h : WidenStep pg attrs s.buffer.file φ .silent s.buffer.file φ') :
    LoggedNext pg attrs zeroHole true (Mini.inPhase s φ) (Mini.inPhase s φ') := by
  have hnext : LoggedNext pg attrs zeroHole true (Mini.inPhase s φ) _ :=
    .insert (i := ()) (.other hφ h)
  have hphase : (fun _ => φ') = Function.update (fun _ : Unit => φ) () φ' := by
    funext i
    simp
  convert hnext using 1
  simp [Mini.inPhase, Event.row, ← hphase]

/-- The table `{3}` after 5 has been inserted and committed, and a crash has kept both records. -/
theorem recovery_sound_int4 :
    let pg := Mini.pg fun _ _ n => n
    let ex := Mini.executor fun _ _ n => n
    let clause := Mini.compareNode 5 7
    ∃ s : Mini.Logged, s.rows = {Mini.row 3, Mini.row 5} ∧
      readSummary s.buffer.file = some ⟨[Mini.entry 3 5]⟩ ∧
      prunes pg Mini.session [Mini.entry 3 5] [clause] = true ∧
      s.buffer.PrunesSafely pg ex Mini.session [clause] s.rows ∧
      (true = true → ∀ log, log <+: s.log →
        BufferFile.PrunesSafely pg ex Mini.session [clause]
          (replay (BufferFile.redo zeroHole) s.base log) (s.kept ∪ committed log)) := by
  intro pg ex clause
  obtain ⟨file, before, page, hbuild, -, hbefore, hdecode, hswap, hwritten⟩ := Mini.exists_pages
  have hempty : amBuild pg Mini.session Mini.index (BufferFile.file none) [Mini.row 3] =
      .ok file := hbuild
  obtain ⟨-, buffer, -, -, rfl⟩ := exists_amBuild_buffer zeroHole_laws true hempty
  let after := serialize ⟨[Mini.entry 3 5]⟩
  rcases hreplace : buffer.replaceBlobIf zeroHole true before after with ⟨r, buffer', image⟩
  have hfile := BufferFile.replaceBlobIf_file zeroHole_laws hreplace
  rw [hswap] at hfile
  obtain ⟨hr, hbuffer⟩ := Prod.mk.inj hfile
  subst hr
  let log : List (Record PageImage (Row Int)) := image.toList.map .image
  let kept : Set (Row Int) := {row | row ∈ [Mini.row 3]}
  let s₀ : Mini.Logged := ⟨buffer, kept, [], buffer, fun _ => .idle, ∅⟩
  let written : Mini.Logged := ⟨buffer, kept, log, buffer', fun _ => .idle, {Mini.row 5}⟩
  let crashed : Mini.Logged :=
    ⟨buffer, kept, log ++ [.commit {Mini.row 5}], buffer', fun _ => .idle, ∅⟩
  have hinit : LoggedInit pg Mini.index [Mini.row 3] s₀ :=
    ⟨⟨fun _ => rfl, rfl, Or.inl ⟨Mini.session, none, hbuild⟩⟩, rfl, rfl, rfl⟩
  let attrs := Mini.index.attrs
  have hstart : LoggedNext pg attrs zeroHole true s₀ _ :=
    Mini.silentStep s₀ (by simp) (.start _ Mini.session (Mini.row 5))
  have hread : LoggedNext pg attrs zeroHole true _ _ :=
    Mini.silentStep s₀ (by simp) (.read _ Mini.session (Mini.row 5))
  rw [show readBlob s₀.buffer.file = some before from hbefore] at hread
  have hwiden : LoggedNext pg attrs zeroHole true _ _ :=
    Mini.silentStep s₀ (by simp) (.widen hdecode Mini.widenStable_five)
  have hencode : LoggedNext pg attrs zeroHole true _ _ :=
    Mini.silentStep s₀ (by simp) (.encode _ Mini.session (Mini.row 5) before ⟨[Mini.entry 3 5]⟩)
  rw [Mini.encodeFitting_five] at hencode
  have hwrite : LoggedNext pg attrs zeroHole true
      (Mini.inPhase s₀ (.encoded Mini.session (Mini.row 5) before after)) written := by
    have hnext : LoggedNext pg attrs zeroHole true
        (Mini.inPhase s₀ (.encoded Mini.session (Mini.row 5) before after)) _ :=
      .insert (i := ()) (.replace hreplace (.swap (hbuffer ▸ hswap)))
    have hphase : Function.update
        (fun _ : Unit => Phase.encoded Mini.session (Mini.row 5) before after) () .idle =
          fun _ => .idle := by
      funext i
      simp
    simpa [Mini.inPhase, Event.row, s₀, written, log, hphase] using hnext
  have hreplay :
      replay (BufferFile.redo zeroHole) buffer (log ++ [.commit {Mini.row 5}]) = buffer' := by
    rw [replay_commit]
    rcases BufferFile.replaceBlobIf_logged zeroHole_laws hreplace with ⟨rfl, rfl⟩ | ⟨im, rfl, rfl⟩
    · rfl
    · rfl
  have hcrash : LoggedNext pg attrs zeroHole true
      { written with log := log ++ [.commit {Mini.row 5}] } crashed := by
    have hnext : LoggedNext pg attrs zeroHole true
        { written with log := log ++ [.commit {Mini.row 5}] } _ := .crash rfl (List.prefix_refl _)
    rwa [hreplay] at hnext
  have hrun : Relation.ReflTransGen (LoggedNext pg attrs zeroHole true) s₀ crashed :=
    ((((((Relation.ReflTransGen.single hstart).tail hread).tail hwiden).tail hencode).tail
      hwrite).tail (.commit (Set.Subset.refl _))).tail hcrash
  have hrows : crashed.rows = {Mini.row 3, Mini.row 5} := by
    have hlog : committed (log ++ [.commit {Mini.row 5}]) = {Mini.row 5} := by
      cases image <;> simp [log, committed]
    simp only [LoggedLeaf.rows, crashed, hlog]
    ext row
    simp [kept, or_comm]
  have hsummary : readSummary buffer'.file = some ⟨[Mini.entry 3 5]⟩ := by
    rw [← hbuffer, readSummary, readBlob, Option.bind_some, hwritten, Option.bind_some]
    exact deserialize_of_fits Mini.serialize_fits
  have hclause : ClauseScope (Mini.order fun _ _ n => n) Mini.index.attrs clause := by
    refine Mini.clauseScope _ fun arg nulltesttype argisrow hleaf => ?_
    simp [clause, Mini.compareNode, leaf_iff] at hleaf
  refine ⟨crashed, hrows, hsummary, by decide +kernel, recovery_sound zeroHole_laws
    (Mini.textRoundTrip _) (Mini.order _) pg.noExtents (Mini.btreeLaws _) Mini.index_distinct hinit
    hrun Mini.session ?_⟩
  intro clause' hmem node hnode row _
  obtain rfl := List.mem_singleton.mp hmem
  exact hclause.leafScope row hnode

end Mini

end TableRange
