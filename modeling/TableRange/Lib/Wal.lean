import Mathlib.Data.List.Infix
import Mathlib.Data.Set.Lattice
import Mathlib.Tactic.Common

/-!
# Full images in a write-ahead log

A store that logs an image of its new value with every change, in one log with the commits
of the items that are in it.  What a crash leaves, and what a standby has replayed, is some
prefix of the log: the store is what the images in it make of the value before the log
(`replay`), and the items that count are those that it commits (`committed`).

`Safe` says that wherever the log is cut, the store has the items.  A change keeps it when
the new value has what the old one had, and a commit when the store has its items.
-/

namespace Lib.Wal

variable {S V K : Type}

inductive Record (V K : Type)
  | image (v : V)
  | commit (items : Set K)

/-- The store after the log has been replayed on it. -/
def replay (restore : V → S) (s : S) : List (Record V K) → S
  | [] => s
  | .image v :: log => replay restore (restore v) log
  | .commit _ :: log => replay restore s log

def committed : List (Record V K) → Set K
  | [] => ∅
  | .image _ :: log => committed log
  | .commit items :: log => items ∪ committed log

variable {restore : V → S} {base : S} {log log' : List (Record V K)}

@[simp] theorem replay_image (v : V) :
    replay restore base (log ++ [.image v]) = restore v := by
  induction log generalizing base with
  | nil => rfl
  | cons r log ih => cases r <;> exact ih

@[simp] theorem replay_commit (items : Set K) :
    replay restore base (log ++ [.commit items]) = replay restore base log := by
  induction log generalizing base with
  | nil => rfl
  | cons r log ih => cases r <;> exact ih

@[simp] theorem committed_image (v : V) : committed (log ++ [.image v]) = committed log := by
  induction log with
  | nil => rfl
  | cons r log ih =>
      cases r with
      | image v' => exact ih
      | commit items => exact congrArg (items ∪ ·) ih

@[simp] theorem committed_commit (items : Set K) :
    committed (log ++ [.commit items]) = committed log ∪ items := by
  induction log with
  | nil => exact (Set.union_empty items).trans (Set.empty_union items).symm
  | cons r log ih =>
      cases r with
      | image v => exact ih
      | commit items' => exact (congrArg (items' ∪ ·) ih).trans (Set.union_assoc _ _ _).symm

theorem committed_subset (h : log' <+: log) : committed log' ⊆ committed log := by
  obtain ⟨rest, rfl⟩ := h
  induction log' with
  | nil => exact Set.empty_subset _
  | cons r log' ih =>
      cases r with
      | image v => exact ih
      | commit items => exact Set.union_subset_union_right items ih

/-- Wherever the log is cut, the store has the items that were there before the log and those
that it commits. -/
def Safe (restore : V → S) (has : S → Set K → Prop) (base : S) (kept : Set K)
    (log : List (Record V K)) : Prop :=
  ∀ log', log' <+: log → has (replay restore base log') (kept ∪ committed log')

variable {has : S → Set K → Prop} {kept : Set K}

theorem Safe.nil (h : has base kept) : Safe restore has base kept [] := by
  intro log' hcut
  obtain rfl := List.prefix_nil.mp hcut
  simpa [replay, committed] using h

/-- A crash keeps some prefix. -/
theorem Safe.cut (h : Safe restore has base kept log) (hcut : log' <+: log) :
    Safe restore has base kept log' :=
  fun log'' h' => h log'' (h'.trans hcut)

theorem Safe.whole (h : Safe restore has base kept log) :
    has (replay restore base log) (kept ∪ committed log) :=
  h log (List.prefix_refl log)

theorem Safe.concat {r : Record V K} (h : Safe restore has base kept log)
    (hr : has (replay restore base (log ++ [r])) (kept ∪ committed (log ++ [r]))) :
    Safe restore has base kept (log ++ [r]) := by
  intro log' hcut
  rcases List.prefix_concat_iff.mp hcut with rfl | hcut
  · exact hr
  · exact h log' hcut

/-- A change that loses nothing. -/
theorem Safe.image {v : V} (h : Safe restore has base kept log)
    (hv : ∀ items, has (replay restore base log) items → has (restore v) items) :
    Safe restore has base kept (log ++ [.image v]) := by
  apply h.concat
  rw [replay_image, committed_image]
  exact hv _ h.whole

/-- Items that the store has already. -/
theorem Safe.commit {items : Set K} (h : Safe restore has base kept log)
    (hitems : has (replay restore base log) (kept ∪ committed log ∪ items)) :
    Safe restore has base kept (log ++ [.commit items]) := by
  apply h.concat
  rw [replay_commit, committed_commit, ← Set.union_assoc]
  exact hitems

end Lib.Wal
