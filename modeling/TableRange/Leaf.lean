import TableRange.Coverage.Page
import TableRange.Lib.Cas

/-!
# Concurrent inserters on one metapage

`WidenStep` is `widen_on_insert` taken apart into the steps between which other
backends may run: `read_blob`, `widen_summary`, `encode_fitting` and
`replace_blob_if`.  Reading the page and swapping it are atomic under the buffer
lock; the two steps between them touch nothing shared.  `LeafNext` lets any
number of inserters take these steps in any order.

The machine is an instance of `Lib.Cas`: the cell is the blob, an item is a row,
and a blob has a row when its summary covers the row.  `WidenStep.simulates`
maps every step to a step of the library's machine, or to none.
-/

namespace TableRange

open Lib.Fallible

variable {D ι : Type}

/-- Where an inserter is in the loop of `widen_on_insert`. -/
inductive Phase (D : Type)
  | idle
  | started (session : Session) (row : Row D)
  /-- `read_blob` has returned. -/
  | read (session : Session) (row : Row D) (blob : Option Bytes)
  /-- `widen_summary` has returned `true`. -/
  | widened (session : Session) (row : Row D) (before : Bytes) (summary : IndexSummary)
  /-- `encode_fitting` has returned. -/
  | encoded (session : Session) (row : Row D) (before after : Bytes)

/-- What a step tells the outside. -/
inductive Event (D : Type)
  | silent
  /-- `am_insert` returns; `widened` says whether it has swapped the page. -/
  | returned (row : Row D) (widened : Bool)
  | failed

/-- One step of one inserter: the file and its phase before and after. -/
inductive WidenStep (pg : Pg D) (attrs : List (IndexAttr D)) :
    IndexFile → Phase D → Event D → IndexFile → Phase D → Prop
  | start (file : IndexFile) (session : Session) (row : Row D) :
      WidenStep pg attrs file .idle .silent file (.started session row)
  /-- `check_for_interrupts`. -/
  | interrupt (file : IndexFile) (session : Session) (row : Row D) :
      WidenStep pg attrs file (.started session row) .failed file .idle
  | read (file : IndexFile) (session : Session) (row : Row D) :
      WidenStep pg attrs file (.started session row) .silent file
        (.read session row (readBlob file))
  | noSummary {file : IndexFile} {session : Session} {row : Row D} {blob : Option Bytes}
      (h : blob.bind deserialize = none) :
      WidenStep pg attrs file (.read session row blob) (.returned row false) file .idle
  | unchanged {file : IndexFile} {session : Session} {row : Row D} {before : Bytes}
      {s s' : IndexSummary} (hs : deserialize before = some s)
      (h : widenStable pg session attrs row s = .ok (s', false)) :
      WidenStep pg attrs file (.read session row (some before)) (.returned row false) file .idle
  | widen {file : IndexFile} {session : Session} {row : Row D} {before : Bytes}
      {s s' : IndexSummary} (hs : deserialize before = some s)
      (h : widenStable pg session attrs row s = .ok (s', true)) :
      WidenStep pg attrs file (.read session row (some before)) .silent file
        (.widened session row before s')
  | widenError {file : IndexFile} {session : Session} {row : Row D} {before : Bytes}
      {s : IndexSummary} {e : String} (hs : deserialize before = some s)
      (h : widenStable pg session attrs row s = .error e) :
      WidenStep pg attrs file (.read session row (some before)) .failed file .idle
  | encode (file : IndexFile) (session : Session) (row : Row D) (before : Bytes)
      (s : IndexSummary) :
      WidenStep pg attrs file (.widened session row before s) .silent file
        (.encoded session row before (encodeFitting s).2)
  | swap {file file' : IndexFile} {session : Session} {row : Row D} {before after : Bytes}
      (h : replaceBlobIf file before after = (.ok true, file')) :
      WidenStep pg attrs file (.encoded session row before after) (.returned row true) file' .idle
  /-- Changed by another backend since it was read. -/
  | retry {file file' : IndexFile} {session : Session} {row : Row D} {before after : Bytes}
      (h : replaceBlobIf file before after = (.ok false, file')) :
      WidenStep pg attrs file (.encoded session row before after) .silent file'
        (.started session row)
  | swapError {file file' : IndexFile} {session : Session} {row : Row D} {before after : Bytes}
      {e : String} (h : replaceBlobIf file before after = (.error e, file')) :
      WidenStep pg attrs file (.encoded session row before after) .failed file' .idle

/-- The row whose insert returns with the event. -/
def Event.row : Event D → Option (Row D)
  | .returned row _ => some row
  | .silent | .failed => none

/-- The page, the inserters, and the rows whose inserts have returned. -/
structure LeafState (ι D : Type) where
  file : IndexFile
  phase : ι → Phase D
  returned : Set (Row D)

structure LeafStep (pg : Pg D) (attrs : List (IndexAttr D)) (s s' : LeafState ι D) (i : ι)
    (ev : Event D) : Prop where
  step : WidenStep pg attrs s.file (s.phase i) ev s'.file (s'.phase i)
  frame : ∀ j, j ≠ i → s'.phase j = s.phase j
  returned : s'.returned = {row | ev.row = some row} ∪ s.returned

/-- Some inserter takes a step. -/
def LeafNext (pg : Pg D) (attrs : List (IndexAttr D)) (s s' : LeafState ι D) : Prop :=
  ∃ i ev, LeafStep pg attrs s s' i ev

/-- The state after a step of the inserter `i`. -/
def LeafState.after [DecidableEq ι] (s : LeafState ι D) (i : ι) (ev : Event D) (file : IndexFile)
    (φ : Phase D) : LeafState ι D where
  file := file
  phase := Function.update s.phase i φ
  returned := {row | ev.row = some row} ∪ s.returned

theorem LeafState.next_after [DecidableEq ι] {pg : Pg D} {attrs : List (IndexAttr D)}
    {s : LeafState ι D} {i : ι} {ev : Event D} {file : IndexFile} {φ : Phase D}
    (h : WidenStep pg attrs s.file (s.phase i) ev file φ) :
    LeafNext pg attrs s (s.after i ev file φ) :=
  ⟨i, ev, by simpa [after] using h, fun _ hj => Function.update_of_ne hj _ _, rfl⟩

variable {pg : Pg D} {attrs : List (IndexAttr D)}

/-! ## The blob as an optimistically updated cell -/

section Protocol

variable (ord : pg.BtreeOrder) (eord : pg.ExtentOrder)

/-- Whatever the first blob covers, the second one does, and a blob that decodes
is followed by one that does. -/
structure BlobLe (attrs : List (IndexAttr D)) (b b' : Option Bytes) : Prop where
  covers : ∀ vals, BlobCovers ord eord attrs b vals → BlobCovers ord eord attrs b' vals
  decodes : (b.bind deserialize).isSome → (b'.bind deserialize).isSome

variable {ord eord}

theorem BlobLe.refl (b : Option Bytes) : BlobLe ord eord attrs b b :=
  ⟨fun _ h => h, id⟩

theorem BlobLe.trans {a b c : Option Bytes} (hab : BlobLe ord eord attrs a b)
    (hbc : BlobLe ord eord attrs b c) : BlobLe ord eord attrs a c :=
  ⟨fun vals h => hbc.covers vals (hab.covers vals h), fun h => hbc.decodes (hab.decodes h)⟩

theorem addRow_empty (row : Row D) : addRow row (fun _ => ∅) = rowValues {row} :=
  funext fun a => by simp [addRow, rowValues]

variable (ord eord)

/-- The page as a cell of `Lib.Cas`. -/
def leafProtocol (io : pg.TextRoundTrip) (hdistinct : DistinctColumns attrs) :
    Lib.Cas.Protocol (Row D) (Option Bytes) where
  valid b := BlobCovers ord eord attrs b fun _ => ∅
  le := BlobLe ord eord attrs
  refl := BlobLe.refl
  trans := BlobLe.trans
  has row b := BlobCovers ord eord attrs b (rowValues {row})
  has_mono hle h := hle.covers _ h
  update row b b' := ∃ session before after, b' = some after ∧ after.length ≤ maxBlobLen ∧
    widenAttempt pg session attrs row b = .ok (.swap before after)
  update_spec := by
    rintro row b b' hvalid ⟨session, before, after, rfl, hfits, hattempt⟩
    have hnew := fun vals (h : BlobCovers ord eord attrs b vals) =>
      widenAttempt_swap io hdistinct h hfits hattempt
    refine ⟨(hnew _ hvalid).mono fun _ => Set.empty_subset _, ⟨fun vals h => ?_, fun _ => ?_⟩, ?_⟩
    · exact (hnew vals h).mono fun _ => Set.subset_insert _ _
    · obtain ⟨-, _, s', -, -, rfl⟩ := widenAttempt_swap_bytes hattempt
      simp [deserialize_encodeFitting hfits]
    · rw [← addRow_empty]
      exact hnew _ hvalid
  skip row b := ∃ session, widenAttempt pg session attrs row b = .ok .done
  skip_spec := by
    rintro row b hvalid ⟨session, hattempt⟩
    rw [← addRow_empty]
    exact widenAttempt_done io hdistinct hvalid hattempt

end Protocol

/-! ## The simulation -/

/-- What an inserter holds was computed from what it has read. -/
def PhaseOk (pg : Pg D) (attrs : List (IndexAttr D)) : Phase D → Prop
  | .idle | .started _ _ | .read _ _ _ => True
  | .widened session row before s =>
      widenAttempt pg session attrs row (some before) = .ok (.swap before (encodeFitting s).2)
  | .encoded session row before after =>
      widenAttempt pg session attrs row (some before) = .ok (.swap before after) ∧ after ≠ []

/-- The phase of the library's machine.  An encoding that does not fit the page
is never stored, so it does not count as computed. -/
def Phase.abs : Phase D → Lib.Cas.Phase (Row D) (Option Bytes)
  | .idle => .idle
  | .started _ row => .begun row
  | .read _ row blob => .loaded row blob
  | .widened _ row before _ => .loaded row (some before)
  | .encoded _ row before after =>
      if after.length ≤ maxBlobLen then .computed row (some before) (some after)
      else .loaded row (some before)

theorem Phase.abs_encoded {session : Session} {row : Row D} {before after : Bytes}
    (hfits : after.length ≤ maxBlobLen) :
    (Phase.encoded session row before after).abs = .computed row (some before) (some after) :=
  if_pos hfits

section Simulation

variable {ord : pg.BtreeOrder} {eord : pg.ExtentOrder} {io : pg.TextRoundTrip}
  {hdistinct : DistinctColumns attrs}

variable (ord eord io hdistinct) in
/-- A step of an inserter is a step of the library's machine, or changes nothing
there. -/
theorem WidenStep.simulates {file file' : IndexFile} {φ φ' : Phase D} {ev : Event D}
    (hok : PhaseOk pg attrs φ) (h : WidenStep pg attrs file φ ev file' φ') :
    PhaseOk pg attrs φ' ∧
      (Lib.Cas.Step (leafProtocol ord eord io hdistinct) (readBlob file) φ.abs ev.row
          (readBlob file') φ'.abs ∨
        (readBlob file' = readBlob file ∧ φ'.abs = φ.abs ∧ ev.row = none)) := by
  cases h with
  | start session row => exact ⟨trivial, Or.inl (.begin _ row)⟩
  | interrupt session row => exact ⟨trivial, Or.inl (.fail _ _)⟩
  | read session row => exact ⟨trivial, Or.inl (.load _ row)⟩
  | noSummary hnone =>
      rename_i session row blob
      refine ⟨trivial, Or.inl (.skip ⟨session, ?_⟩)⟩
      cases blob with
      | none => rfl
      | some before =>
          have hnone : deserialize before = none := hnone
          simp [widenAttempt, hnone]
  | unchanged hs hwiden =>
      rename_i session row before s s'
      exact ⟨trivial, Or.inl (.skip ⟨session, by
        simp [widenAttempt, hs, hwiden, bind, Except.bind]⟩)⟩
  | widen hs hwiden =>
      exact ⟨by simp [PhaseOk, widenAttempt, hs, hwiden, bind, Except.bind],
        Or.inr ⟨rfl, rfl, rfl⟩⟩
  | widenError _ _ => exact ⟨trivial, Or.inl (.fail _ _)⟩
  | encode session row before s =>
      refine ⟨⟨hok, encodeFitting_ne_nil s⟩, ?_⟩
      by_cases hfits : (encodeFitting s).2.length ≤ maxBlobLen
      · refine Or.inl ?_
        rw [Phase.abs_encoded hfits]
        exact .compute ⟨session, before, _, rfl, hfits, hok⟩
      · refine Or.inr ⟨rfl, ?_, rfl⟩
        rw [Phase.abs, Phase.abs, if_neg hfits]
  | swap hswap =>
      rename_i session row before after
      rcases replaceBlobIf_cases file before after with ⟨_, he⟩ | ⟨_, _, he⟩ |
        ⟨hfits, hread, page, he, hwrite⟩
      · cases he.symm.trans hswap
      · cases he.symm.trans hswap
      · cases he.symm.trans hswap
        refine ⟨trivial, Or.inl ?_⟩
        rw [Phase.abs_encoded hfits, hread,
          show readBlob (some page) = some after from hwrite hok.2]
        exact .swap _ _ row
  | retry hswap =>
      rename_i session row before after
      rcases replaceBlobIf_cases file before after with ⟨_, he⟩ | ⟨hfits, hread, he⟩ |
        ⟨_, _, page, he, _⟩
      · cases he.symm.trans hswap
      · cases he.symm.trans hswap
        refine ⟨trivial, Or.inl ?_⟩
        rw [Phase.abs_encoded hfits]
        exact .retry hread
      · cases he.symm.trans hswap
  | swapError hswap =>
      rename_i session row before after e
      obtain rfl : file' = file := by
        have hfailed : (replaceBlobIf file before after).1 ≠ .ok true := by
          rw [hswap]
          simp
        have hsame := replaceBlobIf_unchanged hfailed
        rwa [hswap] at hsame
      exact ⟨trivial, Or.inl (.fail _ _)⟩

/-- The state of the library's machine. -/
def LeafState.abs (s : LeafState ι D) : Lib.Cas.State ι (Row D) (Option Bytes) where
  cell := readBlob s.file
  phase i := (s.phase i).abs
  returned := s.returned

/-- What holds of every reachable state: the inserters hold what they have
computed, and the library's invariant. -/
structure LeafInv (ord : pg.BtreeOrder) (eord : pg.ExtentOrder) (io : pg.TextRoundTrip)
    (hdistinct : DistinctColumns attrs) (s : LeafState ι D) : Prop where
  phases : ∀ i, PhaseOk pg attrs (s.phase i)
  cas : Lib.Cas.Inv (leafProtocol ord eord io hdistinct) s.abs

theorem LeafInv.step {s s' : LeafState ι D} (hinv : LeafInv ord eord io hdistinct s)
    (h : LeafNext pg attrs s s') :
    LeafInv ord eord io hdistinct s' ∧ BlobLe ord eord attrs (readBlob s.file)
      (readBlob s'.file) := by
  obtain ⟨i, ev, hstep, hframe, hreturned⟩ := h
  obtain ⟨hok, hsim⟩ := hstep.simulates ord eord io hdistinct (hinv.phases i)
  have hphases : ∀ j, PhaseOk pg attrs (s'.phase j) := fun j => by
    by_cases hj : j = i
    · rw [hj]
      exact hok
    · rw [hframe j hj]
      exact hinv.phases j
  rcases hsim with hsim | ⟨hblob, hphase, hrow⟩
  · have hnext : Lib.Cas.Next (leafProtocol ord eord io hdistinct) s.abs s'.abs :=
      ⟨i, ev.row, hsim, fun j hj => congrArg Phase.abs (hframe j hj), hreturned⟩
    obtain ⟨hcas, hle⟩ := hinv.cas.step hnext
    exact ⟨⟨hphases, hcas⟩, hle⟩
  · have habs : s'.abs = s.abs := by
      have hret : s'.returned = s.returned := by simp [hreturned, hrow]
      have hphase' : (fun j => (s'.phase j).abs) = fun j => (s.phase j).abs := by
        funext j
        by_cases hj : j = i
        · rw [hj]
          exact hphase
        · rw [hframe j hj]
      simp only [LeafState.abs, hblob, hphase', hret]
    refine ⟨⟨hphases, habs ▸ hinv.cas⟩, ?_⟩
    rw [hblob]
    exact BlobLe.refl _

theorem LeafInv.run {s s' : LeafState ι D} (hinv : LeafInv ord eord io hdistinct s)
    (h : Relation.ReflTransGen (LeafNext pg attrs) s s') :
    LeafInv ord eord io hdistinct s' ∧
      BlobLe ord eord attrs (readBlob s.file) (readBlob s'.file) := by
  induction h with
  | refl => exact ⟨hinv, BlobLe.refl _⟩
  | tail _ hnext ih =>
      obtain ⟨hinv', hle⟩ := ih.1.step hnext
      exact ⟨hinv', ih.2.trans hle⟩

end Simulation

end TableRange
