import TableRange.Leaf
import TableRange.Lib.Atomic
import TableRange.Lib.History
import TableRange.NoLostWidening
import TableRange.WellFormed

/-!
# Concurrent inserts are inserts one after the other

The inserters of `Leaf.lean` read the page, compute and swap, and other inserters run
in between.  What their callers see is what they would see if each `am_insert` ran
alone at one moment between its call and its return: at the swap if it widens the
page, and at the read otherwise, since what a pass has read decides whether it will
return, fail or try to swap.

The consequence for the page is that every history of concurrent inserters leaves a
summary that some history of single inserts leaves, so whatever holds of the
summaries of `Reachable` holds of the page at any moment.
-/

namespace TableRange

open Lib.Fallible Lib.History

variable {D ι : Type} {pg : Pg D} {attrs : List (IndexAttr D)}

/-! ## The histories of a leaf -/

/-- A step of one inserter, as the history records it. -/
structure LeafMove (ι D : Type) where
  inserter : ι
  before : Phase D
  event : Event D
  after : Phase D

/-- The step that a move records. -/
structure LeafMoves (pg : Pg D) (attrs : List (IndexAttr D)) (s : LeafState ι D)
    (m : LeafMove ι D) (s' : LeafState ι D) : Prop where
  step : LeafStep pg attrs s s' m.inserter m.event
  before : s.phase m.inserter = m.before
  after : s'.phase m.inserter = m.after

/-- A history of the inserters, the latest move first, and the state it leads to. -/
abbrev LeafRun (pg : Pg D) (attrs : List (IndexAttr D)) (init : LeafState ι D) :
    List (LeafMove ι D) → LeafState ι D → Prop :=
  Run (LeafMoves pg attrs) init

theorem LeafState.step_after [DecidableEq ι] {s : LeafState ι D} {i : ι} {ev : Event D}
    {file : IndexFile} {φ : Phase D} (h : WidenStep pg attrs s.file (s.phase i) ev file φ) :
    LeafStep pg attrs s (s.after i ev file φ) i ev :=
  ⟨by simpa [after] using h, fun _ hj => Function.update_of_ne hj _ _, rfl⟩

theorem LeafRun.after [DecidableEq ι] {init s : LeafState ι D} {ms : List (LeafMove ι D)}
    (hrun : LeafRun pg attrs init ms s) {i : ι} {ev : Event D} {file : IndexFile} {φ φ' : Phase D}
    (hφ : s.phase i = φ) (h : WidenStep pg attrs s.file φ ev file φ') :
    LeafRun pg attrs init (⟨i, φ, ev, φ'⟩ :: ms) (s.after i ev file φ') :=
  hrun.cons ⟨LeafState.step_after (hφ ▸ h), hφ, Function.update_self _ _ _⟩

/-- The runs of `LeafNext` are those that have a history. -/
theorem leafRun_of_reach {init s : LeafState ι D}
    (h : Relation.ReflTransGen (LeafNext pg attrs) init s) : ∃ ms, LeafRun pg attrs init ms s := by
  induction h with
  | refl => exact ⟨[], .nil⟩
  | @tail s s' _ hnext ih =>
      obtain ⟨ms, hrun⟩ := ih
      obtain ⟨i, ev, hstep⟩ := hnext
      exact ⟨⟨i, s.phase i, ev, s'.phase i⟩ :: ms, hrun.cons ⟨hstep, rfl, rfl⟩⟩

/-! ## One insert alone -/

/-- A call of `am_insert`: the session and the row. -/
abbrev InsertOp (D : Type) := Session × Row D

/-- `am_insert` when nobody else writes the page, and whether it has widened the page;
`none` when it fails. -/
inductive InsertAlone (pg : Pg D) (attrs : List (IndexAttr D)) :
    Lib.Atomic.Object IndexFile (InsertOp D) (Option Bool)
  | covered {file : IndexFile} {op : InsertOp D}
      (h : widenAttempt pg op.1 attrs op.2 (readBlob file) = .ok .done) :
      InsertAlone pg attrs file op (some false) file
  | widened {file file' : IndexFile} {op : InsertOp D} {before after : Bytes}
      (h : widenAttempt pg op.1 attrs op.2 (readBlob file) = .ok (.swap before after))
      (hswap : replaceBlobIf file before after = (.ok true, file')) :
      InsertAlone pg attrs file op (some true) file'
  | failed {file : IndexFile} {op : InsertOp D} {e : String}
      (h : widenPass pg op.1 attrs op.2 file = (.error e, file)) :
      InsertAlone pg attrs file op none file

/-- Alone, one pass decides: it is the whole of `AmInsert`. -/
theorem InsertAlone.amInsert {file file' : IndexFile} {op : InsertOp D} {r : Option Bool}
    (h : InsertAlone pg attrs file op r file') :
    ∃ result, AmInsert pg op.1 attrs op.2 file result file' ∧ (result = .ok () ↔ r.isSome) := by
  cases h with
  | covered h => exact ⟨.ok (), .done (by rw [widenPass, h]), by simp⟩
  | widened h hswap => exact ⟨.ok (), .done (by rw [widenPass, h]; exact hswap), by simp⟩
  | failed h => exact ⟨_, .error h, by simp⟩

theorem AmInsert.alone {session : Session} {row : Row D} {file file' : IndexFile}
    {result : PgResult Unit} (h : AmInsert pg session attrs row file result file') :
    ∃ r, InsertAlone pg attrs file (session, row) r file' ∧ (result = .ok () ↔ r.isSome) := by
  -- the blob that a pass expects is the one on the page
  have hpass {file file' : IndexFile} {r : PgResult Bool}
      (h : widenPass pg session attrs row file = (r, file')) :
      r ≠ .ok false ∧ ∃ res, InsertAlone pg attrs file (session, row) res file' ∧
        (r = .ok true ↔ res.isSome) := by
    cases hattempt : widenAttempt pg session attrs row (readBlob file) with
    | error e =>
        have h' := h
        rw [widenPass, hattempt] at h
        cases h
        exact ⟨by simp, none, .failed h', by simp⟩
    | ok attempt =>
        cases attempt with
        | done =>
            rw [widenPass, hattempt] at h
            cases h
            exact ⟨by simp, some false, .covered hattempt, by simp⟩
        | swap before after =>
            have hread := (widenAttempt_swap_bytes hattempt).1
            have h' := h
            rw [widenPass, hattempt] at h
            rcases replaceBlobIf_cases file before after with ⟨-, he⟩ | ⟨-, hno, -⟩ |
              ⟨-, -, page, he, -⟩
            · cases he.symm.trans h
              exact ⟨by simp, none, .failed h', by simp⟩
            · exact absurd hread hno
            · cases he.symm.trans h
              exact ⟨by simp, some true, .widened hattempt he, by simp⟩
  cases h with
  | done h =>
      obtain ⟨-, res, halone, hres⟩ := hpass h
      exact ⟨res, halone, by simpa using hres⟩
  | error h =>
      obtain ⟨-, res, halone, hres⟩ := hpass h
      exact ⟨res, halone, by simpa using hres⟩
  | retry h _ => exact absurd rfl (hpass h).1

/-! ## What the callers see -/

/-- The call that an inserter is working on. -/
def Phase.op : Phase D → Option (InsertOp D)
  | .idle => none
  | .started session row | .read session row _ | .widened session row _ _
  | .encoded session row _ _ => some (session, row)

/-- The call, the return or the cancellation that a step shows. -/
def LeafMove.visible (m : LeafMove ι D) : List (Lib.Atomic.Action (InsertOp D) (Option Bool)) :=
  match m.before, m.event with
  | .idle, _ => m.after.op.toList.map .call
  | .started session row, .failed => [.abort (session, row)]
  | φ, .returned _ widened => φ.op.toList.map (.ret · (some widened))
  | φ, .failed => φ.op.toList.map (.ret · none)
  | _, .silent => []

def visibleHistory (ms : List (LeafMove ι D)) :
    List (ι × Lib.Atomic.Action (InsertOp D) (Option Bool)) :=
  ms.flatMap fun m => m.visible.map (m.inserter, ·)

variable (pg attrs) in
/-- What the blob that an inserter has read decides: it will return without a swap,
or fail, or try to swap, and then the call has not taken effect yet. -/
def decided (op : InsertOp D) (blob : Option Bytes) :
    Lib.Atomic.Party (InsertOp D) (Option Bool) :=
  match widenAttempt pg op.1 attrs op.2 blob with
  | .error _ => .done op none
  | .ok .done => .done op (some false)
  | .ok (.swap _ after) => if after.length ≤ maxBlobLen then .pending op else .done op none

variable (pg attrs) in
def Phase.party : Phase D → Lib.Atomic.Party (InsertOp D) (Option Bool)
  | .idle => .idle
  | .started session row => .pending (session, row)
  | .read session row blob => decided pg attrs (session, row) blob
  | .widened session row before _ => decided pg attrs (session, row) (some before)
  | .encoded session row before _ => decided pg attrs (session, row) (some before)

/-! ## The simulation -/

theorem WidenStep.phaseOk {file file' : IndexFile} {φ φ' : Phase D} {ev : Event D}
    (hok : PhaseOk pg attrs φ) (h : WidenStep pg attrs file φ ev file' φ') :
    PhaseOk pg attrs φ' := by
  cases h with
  | widen hs hwiden => simp [PhaseOk, widenAttempt, hs, hwiden, bind, Except.bind]
  | encode session row before s => exact ⟨hok, encodeFitting_ne_nil s⟩
  | start _ _ => trivial
  | interrupt _ _ => trivial
  | read _ _ => trivial
  | noSummary _ => trivial
  | unchanged _ _ => trivial
  | widenError _ _ => trivial
  | swap _ => trivial
  | retry _ => trivial
  | swapError _ => trivial

/-- The read is the moment of a call that will not swap. -/
theorem decided_moves (op : InsertOp D) (file : IndexFile) :
    ∃ effs, Lib.Atomic.Moves (InsertAlone pg attrs) file (.pending op) [] effs file
      (decided pg attrs op (readBlob file)) := by
  unfold decided
  cases hattempt : widenAttempt pg op.1 attrs op.2 (readBlob file) with
  | error e =>
      have hfailed : InsertAlone pg attrs file op none file :=
        .failed (e := e) (by rw [widenPass, hattempt])
      exact ⟨_, .single (.effect hfailed)⟩
  | ok attempt =>
      cases attempt with
      | done => exact ⟨_, .single (.effect (.covered hattempt))⟩
      | swap before after =>
          by_cases hfits : after.length ≤ maxBlobLen
          · simp only [if_pos hfits]
            exact ⟨_, .refl⟩
          · have hfailed : InsertAlone pg attrs file op none file := by
              refine .failed (e := blobTooLong) ?_
              rw [widenPass, hattempt]
              exact dif_neg hfits
            simp only [if_neg hfits]
            exact ⟨_, .single (.effect hfailed)⟩

/-- A step of an inserter is what the callers see of it, with the effect of the call
if this is its moment. -/
theorem WidenStep.moves {file file' : IndexFile} {φ φ' : Phase D} {ev : Event D}
    (hok : PhaseOk pg attrs φ) (h : WidenStep pg attrs file φ ev file' φ') (i : ι) :
    ∃ effs, Lib.Atomic.Moves (InsertAlone pg attrs) file (φ.party pg attrs)
      (LeafMove.visible ⟨i, φ, ev, φ'⟩) effs file' (φ'.party pg attrs) := by
  cases h with
  | start session row => exact ⟨_, .single (.call (session, row))⟩
  | interrupt session row => exact ⟨_, .single (.abort (session, row))⟩
  | read session row => exact decided_moves (session, row) file
  | noSummary hnone =>
      rename_i session row blob
      have hattempt : widenAttempt pg session attrs row blob = .ok .done := by
        cases blob with
        | none => rfl
        | some before =>
            have hnone : deserialize before = none := hnone
            simp [widenAttempt, hnone]
      simp only [Phase.party, decided, hattempt]
      exact ⟨_, .single (.ret _ _)⟩
  | unchanged hs hwiden =>
      rename_i session row before s s'
      have hattempt : widenAttempt pg session attrs row (some before) = .ok .done := by
        simp [widenAttempt, hs, hwiden, bind, Except.bind]
      simp only [Phase.party, decided, hattempt]
      exact ⟨_, .single (.ret _ _)⟩
  | widen hs hwiden => exact ⟨_, .refl⟩
  | widenError hs hwiden =>
      rename_i session row before s e
      have hattempt : widenAttempt pg session attrs row (some before) = .error e := by
        simp [widenAttempt, hs, hwiden, bind, Except.bind]
      simp only [Phase.party, decided, hattempt]
      exact ⟨_, .single (.ret _ _)⟩
  | encode session row before s => exact ⟨_, .refl⟩
  | swap hswap =>
      rename_i session row before after
      rcases replaceBlobIf_cases file before after with ⟨-, he⟩ | ⟨-, -, he⟩ |
        ⟨hfits, hread, -, -, -⟩
      · cases he.symm.trans hswap
      · cases he.symm.trans hswap
      · have hattempt : widenAttempt pg session attrs row (readBlob file) =
            .ok (.swap before after) := hread ▸ hok.1
        have halone : InsertAlone pg attrs file (session, row) (some true) file' :=
          .widened hattempt hswap
        simp only [Phase.party, decided, hok.1, if_pos hfits]
        exact ⟨_, .tail (.single (.effect halone)) (.ret _ _)⟩
  | retry hswap =>
      rename_i session row before after
      rcases replaceBlobIf_cases file before after with ⟨-, he⟩ | ⟨hfits, -, he⟩ |
        ⟨-, -, page, he, -⟩
      · cases he.symm.trans hswap
      · cases he.symm.trans hswap
        simp only [Phase.party, decided, hok.1, if_pos hfits]
        exact ⟨_, .refl⟩
      · cases he.symm.trans hswap
  | swapError hswap =>
      rename_i session row before after e
      rcases replaceBlobIf_cases file before after with ⟨hlong, he⟩ | ⟨-, -, he⟩ |
        ⟨-, -, page, he, -⟩
      · cases he.symm.trans hswap
        simp only [Phase.party, decided, hok.1, if_neg (Nat.not_le_of_lt hlong)]
        exact ⟨_, .single (.ret _ _)⟩
      · cases he.symm.trans hswap
      · cases he.symm.trans hswap

theorem LeafRun.phaseOk {init s : LeafState ι D} {ms : List (LeafMove ι D)}
    (h : LeafRun pg attrs init ms s) (hidle : ∀ i, init.phase i = .idle) (i : ι) :
    PhaseOk pg attrs (s.phase i) := by
  induction h with
  | nil =>
      rw [hidle i]
      trivial
  | cons hrun hmove ih =>
      rename_i ms m s s'
      by_cases hi : i = m.inserter
      · subst hi
        exact hmove.step.step.phaseOk ih
      · rw [hmove.step.frame i hi]
        exact ih

/-- The inserters together: what is seen of them is a history of atomic inserts. -/
theorem LeafRun.atomic [DecidableEq ι] {init s : LeafState ι D} {ms : List (LeafMove ι D)}
    (h : LeafRun pg attrs init ms s) (hidle : ∀ i, init.phase i = .idle) :
    ∃ ops, Lib.Atomic.Run (InsertAlone pg attrs) ⟨init.file, fun _ => .idle⟩ (visibleHistory ms)
      ops ⟨s.file, fun i => (s.phase i).party pg attrs⟩ := by
  induction h with
  | nil =>
      have hparty : (fun i => (init.phase i).party pg attrs) = fun _ => .idle :=
        funext fun i => by rw [hidle i]; rfl
      exact ⟨[], hparty ▸ .nil⟩
  | cons hrun hmove ih =>
      rename_i ms m s s'
      obtain ⟨ops, hatomic⟩ := ih
      obtain ⟨i, φ, ev, φ'⟩ := m
      have hstep : LeafStep pg attrs s s' i ev := hmove.step
      obtain rfl : s.phase i = φ := hmove.before
      obtain rfl : s'.phase i = φ' := hmove.after
      obtain ⟨effs, hmoves⟩ := hstep.step.moves (LeafRun.phaseOk hrun hidle i) i
      refine ⟨effs.map (i, ·) ++ ops, ?_⟩
      have hframe : ∀ j, j ≠ i → (s'.phase j).party pg attrs = (s.phase j).party pg attrs :=
        fun j hj => by rw [hstep.frame j hj]
      exact hatomic.moves hmoves hframe

/-! ## Two inserters -/

section Mini

theorem Mini.widenStable_four :
    widenStable (Mini.pg fun _ _ n => n) Mini.session Mini.index.attrs (Mini.row 4)
      ⟨[Mini.entry 3 3]⟩ = .ok (⟨[Mini.entry 3 4]⟩, true) := rfl

theorem Mini.widenStable_covered :
    widenStable (Mini.pg fun _ _ n => n) Mini.session Mini.index.attrs (Mini.row 4)
      ⟨[Mini.entry 3 5]⟩ = .ok (⟨[Mini.entry 3 5]⟩, false) := rfl

/-- Two inserters on the table `{3}`: both read the page, the first one takes in 5, and
the second one, which is late with 4, reads again and finds it covered. -/
theorem Mini.exists_leafRun : ∃ (init s : LeafState Bool Int) (ms : List (LeafMove Bool Int)),
    amBuild (Mini.pg fun _ _ n => n) Mini.session Mini.index none [Mini.row 3] = .ok init.file ∧
      (∀ i, init.phase i = .idle) ∧
      LeafRun (Mini.pg fun _ _ n => n) Mini.index.attrs init ms s ∧
      visibleHistory ms = [(false, .ret (Mini.session, Mini.row 4) (some false)),
        (true, .ret (Mini.session, Mini.row 5) (some true)),
        (false, .call (Mini.session, Mini.row 4)), (true, .call (Mini.session, Mini.row 5))] ∧
      ∃ before after, ⟨false, .encoded Mini.session (Mini.row 4) before after, .silent,
        .started Mini.session (Mini.row 4)⟩ ∈ ms := by
  obtain ⟨file, before, page, hbuild, -, hbefore, hdecode, hswap, hwritten⟩ := Mini.exists_pages
  have hdecode' := deserialize_of_fits Mini.serialize_fits
  have hfits : (serialize ⟨[Mini.entry 3 4]⟩).length ≤ maxBlobLen := by decide
  have hlate : replaceBlobIf (some page) before (encodeFitting ⟨[Mini.entry 3 4]⟩).2 =
      (.ok false, some page) := by
    rw [encodeFitting_of_fits hfits]
    rcases replaceBlobIf_cases (some page) before (serialize ⟨[Mini.entry 3 4]⟩) with
      ⟨hbig, -⟩ | ⟨-, -, he⟩ | ⟨-, hsame, -⟩
    · exact absurd hfits (Nat.not_le_of_lt hbig)
    · exact he
    · rw [show readBlob (some page) = _ from hwritten] at hsame
      rw [← Option.some.inj hsame, hdecode'] at hdecode
      exact absurd hdecode (by decide)
  have hinit : LeafRun (Mini.pg fun _ _ n => n) Mini.index.attrs
      (⟨file, fun _ => .idle, ∅⟩ : LeafState Bool Int) [] _ := .nil
  have h₁ := hinit.after (i := true) rfl (.start _ Mini.session (Mini.row 5))
  have h₂ := h₁.after (i := false) rfl (.start _ Mini.session (Mini.row 4))
  have h₃ := h₂.after (i := true) rfl (.read _ Mini.session (Mini.row 5))
  have h₄ := h₃.after (i := false) rfl (.read _ Mini.session (Mini.row 4))
  have h₅ := h₄.after (i := true) (congrArg (Phase.read Mini.session (Mini.row 5)) hbefore)
    (.widen hdecode Mini.widenStable_five)
  have h₆ := h₅.after (i := false) (congrArg (Phase.read Mini.session (Mini.row 4)) hbefore)
    (.widen hdecode Mini.widenStable_four)
  have h₇ := h₆.after (i := true) rfl (.encode _ Mini.session (Mini.row 5) before _)
  have h₈ := h₇.after (i := false) rfl (.encode _ Mini.session (Mini.row 4) before _)
  have h₉ := h₈.after (i := true) rfl (.swap (by rw [Mini.encodeFitting_five]; exact hswap))
  have h₁₀ := h₉.after (i := false) rfl (.retry hlate)
  have h₁₁ := h₁₀.after (i := false) rfl (.read _ Mini.session (Mini.row 4))
  have h₁₂ := h₁₁.after (i := false)
    (congrArg (Phase.read Mini.session (Mini.row 4)) (show readBlob (some page) = _ from hwritten))
    (.unchanged hdecode' Mini.widenStable_covered)
  refine ⟨_, _, _, hbuild, fun _ => rfl, h₁₂, rfl, before,
    (encodeFitting ⟨[Mini.entry 3 4]⟩).2, ?_⟩
  exact List.mem_cons_of_mem _ (List.mem_cons_of_mem _ List.mem_cons_self)

end Mini

/-! ## Linearizability -/

/-- What the callers see of concurrent inserters is a history of atomic inserts: each
takes effect at one moment between its call and its return, the page is what these
inserts leave one after the other, and each party gets the results of its own.  An
earlier moment has fewer effects in the same order, so the order never contradicts
that of the calls and returns. -/
theorem leaf_linearizable [DecidableEq ι] {init s : LeafState ι D} {ms : List (LeafMove ι D)}
    (hidle : ∀ i, init.phase i = .idle) (hrun : LeafRun pg attrs init ms s) :
    ∃ ops, Lib.Atomic.Run (InsertAlone pg attrs) ⟨init.file, fun _ => .idle⟩ (visibleHistory ms)
        ops ⟨s.file, fun i => (s.phase i).party pg attrs⟩ ∧
      Lib.Atomic.Sequential (InsertAlone pg attrs) init.file ops s.file ∧
      (∀ i, Lib.Atomic.effectsOf i ops = ((s.phase i).party pg attrs).unreturned ++
        Lib.Atomic.returnsOf i (visibleHistory ms)) ∧
      ∀ past, past <:+ visibleHistory ms → ∃ ops' s', ops' <:+ ops ∧
        Lib.Atomic.Run (InsertAlone pg attrs) ⟨init.file, fun _ => .idle⟩ past ops' s' := by
  obtain ⟨ops, hatomic⟩ := LeafRun.atomic hrun hidle
  exact ⟨ops, hatomic, hatomic.sequential, hatomic.effects_of fun _ => rfl,
    fun _ hpast => hatomic.past hpast⟩

/-- The insert of 4 is late and takes effect after that of 5, which was called first. -/
theorem leaf_linearizable_int4 : ∃ (init s : LeafState Bool Int) (ms : List (LeafMove Bool Int)),
    (false, .ret (Mini.session, Mini.row 4) (some false)) ∈ visibleHistory ms ∧
      ∃ ops, Lib.Atomic.Run (InsertAlone (Mini.pg fun _ _ n => n) Mini.index.attrs)
          ⟨init.file, fun _ => .idle⟩ (visibleHistory ms) ops
          ⟨s.file, fun i => (s.phase i).party (Mini.pg fun _ _ n => n) Mini.index.attrs⟩ ∧
        Lib.Atomic.Sequential (InsertAlone (Mini.pg fun _ _ n => n) Mini.index.attrs) init.file ops
          s.file := by
  obtain ⟨init, s, ms, -, hidle, hrun, hseen, -⟩ := Mini.exists_leafRun
  obtain ⟨ops, hatomic, hsequential, -⟩ := leaf_linearizable hidle hrun
  exact ⟨init, s, ms, by simp [hseen], ops, hatomic, hsequential⟩

/-! ## The page of concurrent inserters -/

/-- The rows of the inserts that have not failed. -/
def insertedRows (ops : List (ι × InsertOp D × Option Bool)) : List (Row D) :=
  ops.filterMap fun op => op.2.2.map fun _ => op.2.1.2

/-- An insert alone is a step of `Reachable`. -/
theorem InsertAlone.reachable {file file' : IndexFile} {op : InsertOp D} {r : Option Bool}
    (h : InsertAlone pg attrs file op r file') {s : IndexSummary} {rows : List (Row D)}
    (hs : readSummary file = some s) (hreach : Reachable pg attrs s rows) :
    ∃ s', readSummary file' = some s' ∧
      Reachable pg attrs s' ((r.map fun _ => op.2).toList ++ rows) := by
  -- the summary that a pass widens is the one on the page
  have hwiden {attempt : Attempt}
      (h : widenAttempt pg op.1 attrs op.2 (readBlob file) = .ok attempt) :
      ∃ before s' changed, widenStable pg op.1 attrs op.2 s = .ok (s', changed) ∧
        attempt = if changed then .swap before (encodeFitting s').2 else .done := by
    rcases widenAttempt_cases h with ⟨-, hnone⟩ |
      ⟨before, s₀, s', changed, hbefore, hs₀, hwiden, hattempt⟩
    · cases hnone.symm.trans hs
    · have hsame : readSummary file = some s₀ := by
        rw [readSummary, hbefore]
        exact hs₀
      obtain rfl : s₀ = s := Option.some.inj (hsame.symm.trans hs)
      exact ⟨before, s', changed, hwiden, hattempt⟩
  cases h with
  | covered h =>
      obtain ⟨before, s', changed, hwiden, hattempt⟩ := hwiden h
      cases changed with
      | true => cases hattempt
      | false =>
          obtain rfl : s' = s := widenSummary_unchanged (widenStable_eq_ok hwiden)
          exact ⟨s', hs, hreach.insert hwiden⟩
  | widened h hswap =>
      obtain ⟨before, s', changed, hwiden, hattempt⟩ := hwiden h
      cases changed with
      | false => cases hattempt
      | true =>
          cases hattempt
          have hread := readSummary_replaceBlobIf hswap
          exact ⟨_, hread, (hreach.insert hwiden).replace hswap hread⟩
  | failed h => exact ⟨s, hs, hreach⟩

theorem reachable_of_sequential {file file' : IndexFile}
    {ops : List (ι × InsertOp D × Option Bool)}
    (h : Lib.Atomic.Sequential (InsertAlone pg attrs) file ops file') {s : IndexSummary}
    {rows : List (Row D)} (hs : readSummary file = some s) (hreach : Reachable pg attrs s rows) :
    ∃ s', readSummary file' = some s' ∧ Reachable pg attrs s' (insertedRows ops ++ rows) := by
  induction h with
  | nil => exact ⟨s, hs, hreach⟩
  | @cons ops i op r _ _ _ hstep ih =>
      obtain ⟨s', hs', hreach'⟩ := ih
      obtain ⟨s'', hs'', hreach''⟩ := hstep.reachable hs' hreach'
      refine ⟨s'', hs'', ?_⟩
      cases r <;> simpa [insertedRows] using hreach''

/-- At any moment of any interleaving the page decodes to a summary that single
inserts, one after the other, can leave; their rows include those of the inserts that
have returned, and are rows that have been called with.  So its entries are well
formed with respect to these rows. -/
theorem leaf_reachable [DecidableEq ι] {index : IndexDef D}
    (hdistinct : DistinctColumns index.attrs) {init s : LeafState ι D} {ms : List (LeafMove ι D)}
    {session : Session} {file₀ : IndexFile} {scanned : List (Row D)}
    (hbuild : amBuild pg session index file₀ scanned = .ok init.file)
    (hidle : ∀ i, init.phase i = .idle) (hrun : LeafRun pg index.attrs init ms s) :
    ∃ summary rows, readSummary s.file = some summary ∧
      Reachable pg index.attrs summary (rows ++ scanned) ∧
      (∀ i op widened, (i, .ret op (some widened)) ∈ visibleHistory ms → op.2 ∈ rows) ∧
      (∀ row ∈ rows, ∃ i session, (i, .call (session, row)) ∈ visibleHistory ms) ∧
      List.Forall₂ (fun a c => WellFormed pg a ((rows ++ scanned).map a.value) c ∧ ¬c.OneBound)
        (summarized index.attrs) summary.cols := by
  obtain ⟨ops, hatomic⟩ := LeafRun.atomic hrun hidle
  obtain ⟨built, hread, hbuilt⟩ : ∃ built, readSummary init.file = some built ∧
      Reachable pg index.attrs built scanned := by
    unfold amBuild at hbuild
    split at hbuild
    · cases hbuild
    · obtain ⟨built, hbuilt, h⟩ := bind_eq_ok.mp hbuild
      split at h
      · rename_i file hwrite
        cases h
        exact ⟨_, readSummary_writeSummary hwrite, .fit (.build hbuilt)⟩
      · cases h
  obtain ⟨summary, hsummary, hreach⟩ := reachable_of_sequential hatomic.sequential hread hbuilt
  refine ⟨summary, insertedRows ops, hsummary, hreach, fun i op widened hret => ?_,
    fun row hrow => ?_, ?_⟩
  · have heffect : (op, some widened) ∈ Lib.Atomic.effectsOf i ops := by
      rw [hatomic.effects_of fun _ => rfl]
      refine List.mem_append_right _ (List.mem_flatMap.mpr ⟨_, List.mem_filter.mpr ⟨hret, ?_⟩, ?_⟩)
      · simp
      · simp [Lib.Atomic.Action.returned]
    obtain ⟨⟨j, op'⟩, hop, heq⟩ := List.mem_map.mp heffect
    cases heq
    exact List.mem_filterMap.mpr ⟨_, (List.mem_filter.mp hop).1, rfl⟩
  · obtain ⟨⟨i, ⟨session, row'⟩, r⟩, hop, hr⟩ := List.mem_filterMap.mp hrow
    obtain ⟨_, -, rfl⟩ := Option.map_eq_some_iff.mp hr
    exact ⟨i, session, (hatomic.called fun _ => rfl).2 _ _ _ hop⟩
  · exact (hreach.maintained.wellFormed hdistinct).imp fun a c hac => ⟨hac.2, hac.2.not_oneBound⟩

/-- The rows of both inserters are among those of the summary. -/
theorem leaf_reachable_int4 : ∃ (s : LeafState Bool Int) (summary : IndexSummary)
    (rows : List (Row Int)), readSummary s.file = some summary ∧
      Reachable (Mini.pg fun _ _ n => n) Mini.index.attrs summary (rows ++ [Mini.row 3]) ∧
      Mini.row 4 ∈ rows ∧ Mini.row 5 ∈ rows := by
  obtain ⟨init, s, ms, hbuild, hidle, hrun, hseen, -⟩ := Mini.exists_leafRun
  obtain ⟨summary, rows, hread, hreach, hreturned, -⟩ :=
    leaf_reachable Mini.index_distinct hbuild hidle hrun
  refine ⟨s, summary, rows, hread, hreach, ?_, ?_⟩
  · exact hreturned false (Mini.session, Mini.row 4) false (by simp [hseen])
  · exact hreturned true (Mini.session, Mini.row 5) true (by simp [hseen])

end TableRange
