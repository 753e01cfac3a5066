import TableRange.Linearizable

/-!
# Concurrent inserters make progress

The loop of `widen_on_insert` has no bound of its own: it starts over whenever the
page has changed since it was read.  A retry is paid for by the swap of another
inserter, which returns with that swap; so among any number of inserters somebody is
always getting done, and an inserter is kept waiting only by rows that widen the
page.  No step waits for another inserter.
-/

namespace TableRange

open Lib.Fallible Lib.History

variable {D ι : Type} {pg : Pg D} {attrs : List (IndexAttr D)}

/-! ## What is counted -/

/-- The move begins a call of `am_insert`. -/
def LeafMove.calls (m : LeafMove ι D) : Bool :=
  match m.before with
  | .idle => true
  | _ => false

/-- The move is `replace_blob_if` returning `true`. -/
def LeafMove.swaps (m : LeafMove ι D) : Bool :=
  match m.event with
  | .returned _ widened => widened
  | _ => false

/-- The move is `replace_blob_if` returning `false`. -/
def LeafMove.retries (m : LeafMove ι D) : Bool :=
  match m.before, m.after with
  | .encoded .., .started .. => true
  | _, _ => false

variable [DecidableEq ι]

/-- How many moves of the inserter are of the kind. -/
def movesOf (kind : LeafMove ι D → Bool) (i : ι) (ms : List (LeafMove ι D)) : ℕ :=
  ms.countP fun m => m.inserter = i && kind m

/-- How many swaps of the others there are. -/
def swapsOfOthers (i : ι) (ms : List (LeafMove ι D)) : ℕ :=
  ms.countP fun m => m.inserter ≠ i && m.swaps

/-! ## Amortisation -/

/-- The inserter has read a page that is not there any more. -/
def Phase.stale (file : IndexFile) : Phase D → Bool
  | .idle | .started .. => false
  | .read _ _ blob => blob ≠ readBlob file
  | .widened _ _ before _ | .encoded _ _ before _ => some before ≠ readBlob file

/-- The steps that are left until the call returns or starts over. -/
def Phase.left : Phase D → ℕ
  | .idle => 0
  | .started .. => 4
  | .read .. => 3
  | .widened .. => 2
  | .encoded .. => 1

def Phase.busy : Phase D → ℕ
  | .idle => 0
  | _ => 1

/-- A `replace_blob_if` that does not return `true` has written nothing. -/
theorem replaceBlobIf_file {file file' : IndexFile} {before after : Bytes}
    {r : Except String Bool} (h : replaceBlobIf file before after = (r, file'))
    (hr : r ≠ .ok true) : file' = file := by
  have hunchanged := replaceBlobIf_unchanged (show (replaceBlobIf file before after).1 ≠ .ok true by
    rw [h]
    exact hr)
  rw [h] at hunchanged
  exact hunchanged

omit [DecidableEq ι] in
/-- What one step uses up, and that only a swap writes the page. -/
theorem WidenStep.pays {file file' : IndexFile} {φ φ' : Phase D} {ev : Event D}
    (h : WidenStep pg attrs file φ ev file' φ') {i : ι} {m : LeafMove ι D}
    (hm : m = ⟨i, φ, ev, φ'⟩) :
    φ'.left + 1 ≤ φ.left + 5 * m.calls.toNat + 4 * m.retries.toNat ∧
      (φ'.stale file').toNat + m.retries.toNat ≤ (φ.stale file).toNat ∧
      φ'.busy + m.swaps.toNat ≤ φ.busy + m.calls.toNat ∧
      (m.swaps = false → file' = file) := by
  subst hm
  cases h with
  | swap h => simp [LeafMove.calls, LeafMove.retries, LeafMove.swaps, Phase.left, Phase.busy,
      Phase.stale]
  | retry h =>
      rename_i session row before after
      have hfile : file' = file := replaceBlobIf_file h (by simp)
      have hstale : some before ≠ readBlob file := by
        rcases replaceBlobIf_cases file before after with
          ⟨-, he⟩ | ⟨-, hno, -⟩ | ⟨-, -, page, he, -⟩
        · cases he.symm.trans h
        · exact fun hsame => hno hsame.symm
        · cases he.symm.trans h
      simp [LeafMove.calls, LeafMove.retries, LeafMove.swaps, Phase.left, Phase.busy,
        Phase.stale, hfile, hstale]
  | swapError h =>
      rename_i session row before after e
      have hfile : file' = file := replaceBlobIf_file h (by simp)
      simp [LeafMove.calls, LeafMove.retries, LeafMove.swaps, Phase.left, Phase.busy,
        Phase.stale, hfile]
  | _ => simp [LeafMove.calls, LeafMove.retries, LeafMove.swaps, Phase.left, Phase.busy,
      Phase.stale]

/-- What a move of anybody uses up of the inserter `i`. -/
theorem LeafMoves.pays {s s' : LeafState ι D} {m : LeafMove ι D} (h : LeafMoves pg attrs s m s')
    (i : ι) :
    (s'.phase i).left + (m.inserter = i && true).toNat ≤
        (s.phase i).left + (5 * (m.inserter = i && m.calls).toNat +
          4 * (m.inserter = i && m.retries).toNat) ∧
      ((s'.phase i).stale s'.file).toNat + (m.inserter = i && m.retries).toNat ≤
        ((s.phase i).stale s.file).toNat + (m.inserter ≠ i && m.swaps).toNat ∧
      (s'.phase i).busy + (m.inserter = i && m.swaps).toNat ≤
        (s.phase i).busy + (m.inserter = i && m.calls).toNat := by
  obtain ⟨hleft, hstale, hbusy, hfile⟩ := h.step.step.pays (i := m.inserter) (m := m)
    (by rw [h.before, h.after])
  by_cases hi : m.inserter = i
  · subst hi
    rw [Nat.add_assoc] at hleft
    simpa using ⟨hleft, hstale, hbusy⟩
  · have hphase : s'.phase i = s.phase i := h.step.frame i (Ne.symm hi)
    rw [hphase]
    refine ⟨by simp [hi], ?_, by simp [hi]⟩
    cases hswap : m.swaps with
    | false => simp [hi, hfile hswap]
    | true => simpa [hi] using (Bool.toNat_le _).trans (Nat.le_add_left 1 _)

variable (pg attrs) in
/-- A busy inserter can take its next step, whatever the others do. -/
theorem Phase.exists_step (file : IndexFile) {φ : Phase D} (hbusy : φ ≠ .idle) :
    ∃ ev file' φ', WidenStep pg attrs file φ ev file' φ' := by
  cases φ with
  | idle => exact absurd rfl hbusy
  | started session row => exact ⟨_, _, _, .read file session row⟩
  | read session row blob =>
      cases hs : blob.bind deserialize with
      | none => exact ⟨_, _, _, .noSummary hs⟩
      | some s =>
          obtain ⟨before, rfl, hs⟩ := Option.bind_eq_some_iff.mp hs
          cases hwiden : widenStable pg session attrs row s with
          | error e => exact ⟨_, _, _, .widenError hs hwiden⟩
          | ok r =>
              obtain ⟨s', changed⟩ := r
              cases changed with
              | false => exact ⟨_, _, _, .unchanged hs hwiden⟩
              | true => exact ⟨_, _, _, .widen hs hwiden⟩
  | widened session row before s => exact ⟨_, _, _, .encode file session row before s⟩
  | encoded session row before after =>
      rcases replaceBlobIf_cases file before after with ⟨-, he⟩ | ⟨-, -, he⟩ | ⟨-, -, page, he, -⟩
      · exact ⟨_, _, _, .swapError he⟩
      · exact ⟨_, _, _, .retry he⟩
      · exact ⟨_, _, _, .swap he⟩

/-- In every history of concurrent inserters, one of them starts over at most as often
as the others swap the page, and takes at most five steps for each of its calls and
four for each of these swaps; nobody swaps more often than it calls.  A busy inserter
always has a step to take, and takes it alone. -/
theorem leaf_lock_free {init s : LeafState ι D} {ms : List (LeafMove ι D)}
    (hidle : ∀ i, init.phase i = .idle) (hrun : LeafRun pg attrs init ms s) (i : ι) :
    movesOf LeafMove.retries i ms ≤ swapsOfOthers i ms ∧
      movesOf (fun _ => true) i ms ≤
        5 * movesOf LeafMove.calls i ms + 4 * swapsOfOthers i ms ∧
      movesOf LeafMove.swaps i ms ≤ movesOf LeafMove.calls i ms ∧
      (s.phase i ≠ .idle → ∃ ev file φ, LeafStep pg attrs s (s.after i ev file φ) i ev) := by
  have hleft := hrun.amortized (fun s => (s.phase i).left)
    (fun m => (m.inserter = i && true).toNat)
    (fun m => 5 * (m.inserter = i && m.calls).toNat + 4 * (m.inserter = i && m.retries).toNat)
    fun _ h => (h.pays i).1
  have hstale := hrun.amortized (fun s => ((s.phase i).stale s.file).toNat)
    (fun m => (m.inserter = i && m.retries).toNat) (fun m => (m.inserter ≠ i && m.swaps).toNat)
    fun _ h => (h.pays i).2.1
  have hbusy := hrun.amortized (fun s => (s.phase i).busy)
    (fun m => (m.inserter = i && m.swaps).toNat) (fun m => (m.inserter = i && m.calls).toNat)
    fun _ h => (h.pays i).2.2
  simp only [List.sum_map_add, List.sum_map_mul_left, ← countP_eq_sum, hidle, Phase.left,
    Phase.stale, Phase.busy, Bool.toNat_false] at hleft hstale hbusy
  refine ⟨?_, ?_, ?_, fun hphase => ?_⟩
  · simp only [movesOf, swapsOfOthers]
    omega
  · simp only [movesOf, swapsOfOthers]
    omega
  · simp only [movesOf]
    omega
  · obtain ⟨ev, file, φ, hstep⟩ := Phase.exists_step pg attrs s.file hphase
    exact ⟨ev, file, φ, LeafState.step_after hstep⟩

/-- Two inserters, one of which is late and starts over. -/
theorem leaf_lock_free_int4 : ∃ ms : List (LeafMove Bool Int),
    0 < movesOf LeafMove.retries false ms ∧
      movesOf LeafMove.retries false ms ≤ swapsOfOthers false ms ∧
      movesOf (fun _ => true) false ms ≤
        5 * movesOf LeafMove.calls false ms + 4 * swapsOfOthers false ms := by
  obtain ⟨init, s, ms, -, hidle, hrun, -, before, after, hretry⟩ := Mini.exists_leafRun
  obtain ⟨hretries, hsteps, -⟩ := leaf_lock_free hidle hrun false
  exact ⟨ms, List.countP_pos_iff.mpr ⟨_, hretry, rfl⟩, hretries, hsteps⟩

end TableRange
