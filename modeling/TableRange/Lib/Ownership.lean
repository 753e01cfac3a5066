import Mathlib.Algebra.BigOperators.Ring.List
import Mathlib.Algebra.Order.BigOperators.Group.List
import Mathlib.Algebra.Order.Ring.Nat
import Mathlib.Data.List.Nodup
import Mathlib.Tactic.Common

/-!
# Programs that own blocks

A program allocates blocks, reads and frees them through pointers, and gives up all blocks
of a kind at once.  Reading or freeing through a pointer that is not live is a fault, which
no caller can catch.

`Refines L m x R` compares such a program with a computation that has no heap.  Started on
a heap that holds the blocks `L`, whatever else it holds, the program does not fault; it
raises what `x` raises, and when it returns, the results are related and the heap holds
the blocks that `R` names in the place of `L`.  All other blocks are left alone, so
programs that own different blocks can be run one after the other (`Refines.frame`,
`Refines.mapM`).
-/

namespace Lib.Ownership

variable {B ε α β γ δ : Type}

abbrev Ptr := ℕ

/-- The live blocks, and the first pointer that has never been given out. -/
structure Heap (B : Type) where
  live : List (Ptr × B)
  next : Ptr
  nodup : (live.map Prod.fst).Nodup
  below : ∀ b ∈ live, b.1 < next

def Heap.empty : Heap B := ⟨[], 0, List.nodup_nil, by simp⟩

/-- A program ends in a fault or raises an error. -/
inductive Failure (ε : Type)
  | fault
  | raised (e : ε)

abbrev Prog (B ε : Type) := StateT (Heap B) (Except (Failure ε))

/-! ## Operations -/

def Heap.insert (h : Heap B) (b : B) : Heap B where
  live := (h.next, b) :: h.live
  next := h.next + 1
  nodup := by
    rw [List.map_cons, List.nodup_cons]
    refine ⟨fun hmem => ?_, h.nodup⟩
    obtain ⟨c, hc, hnext⟩ := List.mem_map.mp hmem
    exact absurd hnext (Nat.ne_of_lt (h.below c hc))
  below c hc := by
    rcases List.mem_cons.mp hc with rfl | hc
    · exact Nat.lt_succ_self _
    · exact Nat.lt_succ_of_lt (h.below c hc)

def Heap.filter (h : Heap B) (keep : Ptr × B → Bool) : Heap B where
  live := h.live.filter keep
  next := h.next
  nodup := h.nodup.sublist (List.filter_sublist.map Prod.fst)
  below b hb := h.below b (List.mem_of_mem_filter hb)

def Heap.get (h : Heap B) (p : Ptr) : Option B := (h.live.find? fun b => b.1 == p).map Prod.snd

def alloc (b : B) : Prog B ε Ptr := fun h => .ok (h.next, h.insert b)

def read (p : Ptr) : Prog B ε B := fun h =>
  match h.get p with
  | some b => .ok (b, h)
  | none => .error .fault

def free (p : Ptr) : Prog B ε Unit := fun h =>
  match h.get p with
  | some _ => .ok ((), h.filter fun b => b.1 != p)
  | none => .error .fault

/-- Frees the blocks that are not kept. -/
def release (keep : B → Bool) : Prog B ε Unit := fun h => .ok ((), h.filter fun b => keep b.2)

def fault : Prog B ε α := fun _ => .error .fault

/-- A computation that does not touch the heap. -/
def lift (x : Except ε α) : Prog B ε α := fun h =>
  match x with
  | .ok a => .ok (a, h)
  | .error e => .error (.raised e)

/-! ## What a heap holds -/

/-- The live blocks are these. -/
def Heap.Holds (h : Heap B) (L : List (Ptr × B)) : Prop := h.live.Perm L

theorem Heap.Holds.perm {h : Heap B} {L L' : List (Ptr × B)} (hh : h.Holds L) (hL : L.Perm L') :
    h.Holds L' := hh.trans hL

theorem Heap.Holds.insert {h : Heap B} {L : List (Ptr × B)} (hh : h.Holds L) (b : B) :
    (h.insert b).Holds ((h.next, b) :: L) := hh.cons _

theorem Heap.Holds.filter {h : Heap B} {L : List (Ptr × B)} (hh : h.Holds L)
    (keep : Ptr × B → Bool) : (h.filter keep).Holds (L.filter keep) :=
  List.Perm.filter keep hh

theorem Heap.Holds.get {h : Heap B} {L : List (Ptr × B)} (hh : h.Holds L) {p : Ptr} {b : B}
    (hb : (p, b) ∈ L) : h.get p = some b := by
  have hlive : (p, b) ∈ h.live := hh.symm.subset hb
  have hfind : (h.live.find? fun c => c.1 == p) = some (p, b) := by
    cases hfound : h.live.find? fun c => c.1 == p with
    | none => exact absurd (List.find?_eq_none.mp hfound _ hlive) (by simp)
    | some c =>
        have hc : c.1 = p := by simpa using List.find?_some hfound
        rw [List.inj_on_of_nodup_map h.nodup (List.mem_of_find?_eq_some hfound) hlive hc]
  rw [Heap.get, hfind]
  rfl

/-- Freeing a block leaves the others. -/
theorem Heap.Holds.erase {h : Heap B} {L : List (Ptr × B)} {p : Ptr} {b : B}
    (hh : h.Holds ((p, b) :: L)) : (h.filter fun c => c.1 != p).Holds L := by
  have hkeep : L.filter (fun c => c.1 != p) = L := by
    have hnodup : (((p, b) :: L).map Prod.fst).Nodup := (hh.map Prod.fst).nodup_iff.mp h.nodup
    rw [List.map_cons, List.nodup_cons] at hnodup
    refine List.filter_eq_self.mpr fun c hc => bne_iff_ne.mpr fun hp => hnodup.1 ?_
    exact List.mem_map.mpr ⟨c, hc, hp⟩
  have hfilter := Heap.Holds.filter hh fun c => c.1 != p
  rw [List.filter_cons_of_neg (by simp), hkeep] at hfilter
  exact hfilter

/-! ## Refinement -/

/-- The program has ended as the computation has. -/
inductive Outcome (F : List (Ptr × B)) (R : α → β → List (Ptr × B) → Prop) :
    Except (Failure ε) (α × Heap B) → Except ε β → Prop
  | ok {a : α} {b : β} {h : Heap B} {L : List (Ptr × B)} (hheap : h.Holds (L ++ F))
      (hr : R a b L) : Outcome F R (.ok (a, h)) (.ok b)
  | raised (e : ε) : Outcome F R (.error (.raised e)) (.error e)

/-- Only blocks that satisfy `other` may be on the heap besides `L`. -/
def Refines (other : B → Prop) (L : List (Ptr × B)) (m : Prog B ε α) (x : Except ε β)
    (R : α → β → List (Ptr × B) → Prop) : Prop :=
  ∀ (F : List (Ptr × B)) (h : Heap B), (∀ b ∈ F, other b.2) → h.Holds (L ++ F) →
    Outcome F R (m h) x

/-- The program works on any heap that holds the blocks. -/
abbrev RefinesAnywhere (L : List (Ptr × B)) (m : Prog B ε α) (x : Except ε β)
    (R : α → β → List (Ptr × B) → Prop) : Prop := Refines (fun _ => True) L m x R

variable {other : B → Prop} {L L' G : List (Ptr × B)} {m : Prog B ε α} {x : Except ε β}
  {R : α → β → List (Ptr × B) → Prop}

theorem Refines.pure {a : α} {b : β} (h : R a b L) :
    Refines other L (pure a : Prog B ε α) (.ok b) R := fun _ _ _ hh => .ok hh h

theorem Refines.bind {f : α → Prog B ε γ} {g : β → Except ε δ}
    {S : γ → δ → List (Ptr × B) → Prop} (hm : Refines other L m x R)
    (hf : ∀ a b L', R a b L' → Refines other L' (f a) (g b) S) :
    Refines other L (m >>= f) (x >>= g) S := by
  intro F h hF hh
  have hout := hm F h hF hh
  show Outcome F S (m h >>= fun r => f r.1 r.2) (x >>= g)
  revert hout
  generalize m h = r
  intro hout
  cases hout with
  | ok hheap hr => exact hf _ _ _ hr F _ hF hheap
  | raised e => exact .raised e

/-- A step that the computation does not have. -/
theorem Refines.step {f : α → Prog B ε γ} {y : Except ε δ} {u : β}
    {S : γ → δ → List (Ptr × B) → Prop} (hm : Refines other L m (.ok u) R)
    (hf : ∀ a L', R a u L' → Refines other L' (f a) y S) : Refines other L (m >>= f) y S := by
  intro F h hF hh
  have hout := hm F h hF hh
  show Outcome F S (m h >>= fun r => f r.1 r.2) y
  revert hout
  generalize m h = r
  intro hout
  cases hout with
  | ok hheap hr => exact hf _ _ hr F _ hF hheap

theorem Refines.weaken {S : α → β → List (Ptr × B) → Prop} (hm : Refines other L m x R)
    (hS : ∀ a b L', R a b L' → ∃ L'', L'.Perm L'' ∧ S a b L'') : Refines other L m x S := by
  intro F h hF hh
  have hout := hm F h hF hh
  revert hout
  generalize m h = r
  intro hout
  cases hout with
  | ok hheap hr =>
      obtain ⟨L'', hperm, hs⟩ := hS _ _ _ hr
      exact .ok (hheap.perm (hperm.append_right F)) hs
  | raised e => exact .raised e

theorem Refines.perm (hm : Refines other L' m x R) (hL : L.Perm L') : Refines other L m x R :=
  fun F h hF hh => hm F h hF (hh.perm (hL.append_right F))

theorem Refines.mono {other' : B → Prop} (hm : Refines other L m x R)
    (hother : ∀ b, other' b → other b) : Refines other' L m x R :=
  fun F h hF hh => hm F h (fun b hb => hother b.2 (hF b hb)) hh

theorem Heap.Holds.nodup {h : Heap B} {L F : List (Ptr × B)} (hh : h.Holds (L ++ F)) :
    (L.map Prod.fst).Nodup := by
  have hnodup : ((L ++ F).map Prod.fst).Nodup := (hh.map Prod.fst).nodup_iff.mp h.nodup
  rw [List.map_append] at hnodup
  exact hnodup.of_append_left

/-- The blocks that a program owns are at different pointers, before and after it. -/
theorem Refines.of_nodup (h : (L.map Prod.fst).Nodup → Refines other L m x R) :
    Refines other L m x R := fun F heap hF hh => h hh.nodup F heap hF hh

theorem Refines.with_nodup (hm : Refines other L m x R) :
    Refines other L m x fun a b L' => R a b L' ∧ (L'.map Prod.fst).Nodup := by
  intro F h hF hh
  have hout := hm F h hF hh
  revert hout
  generalize m h = r
  intro hout
  cases hout with
  | ok hheap hr => exact .ok hheap ⟨hr, hheap.nodup⟩
  | raised e => exact .raised e

theorem Refines.with_result (hm : Refines other L m x R) :
    Refines other L m x fun a b L' => R a b L' ∧ x = .ok b := by
  intro F h hF hh
  have hout := hm F h hF hh
  revert hout
  generalize m h = r
  intro hout
  cases hout with
  | ok hheap hr => exact .ok hheap ⟨hr, rfl⟩
  | raised e => exact .raised e

/-- Steps after those of the computation. -/
theorem Refines.followed {f : α → Prog B ε γ} {S : γ → β → List (Ptr × B) → Prop}
    (hm : Refines other L m x R)
    (hf : ∀ a b L', R a b L' → Refines other L' (f a) (.ok b) S) :
    Refines other L (m >>= f) x S := by
  have hx : x = x >>= fun b => .ok b := by cases x <;> rfl
  rw [hx]
  exact hm.bind hf

/-- Blocks that the program does not own stay as they are. -/
theorem Refines.frame (hm : Refines other L m x R) (G : List (Ptr × B)) (hG : ∀ b ∈ G, other b.2) :
    Refines other (L ++ G) m x fun a b L' => ∃ L'', L' = L'' ++ G ∧ R a b L'' := by
  intro F h hF hh
  rw [List.append_assoc] at hh
  have hout := hm (G ++ F) h (fun b hb => (List.mem_append.mp hb).elim (hG b) (hF b)) hh
  revert hout
  generalize m h = r
  intro hout
  cases hout with
  | ok hheap hr =>
      rw [← List.append_assoc] at hheap
      exact .ok hheap ⟨_, rfl, hr⟩
  | raised e => exact .raised e

theorem Refines.lift {R : β → β → List (Ptr × B) → Prop} (h : ∀ b, x = .ok b → R b b L) :
    Refines other L (lift x) x R := by
  intro F heap _ hh
  cases x with
  | ok b => exact .ok hh (h b rfl)
  | error e => exact .raised e

theorem Refines.error (e : ε) :
    Refines other L (Ownership.lift (.error e) : Prog B ε α) (.error e) R :=
  fun _ _ _ _ => .raised e

section Bind

variable {f : β → Prog B ε γ} {g : β → Except ε δ} {y : Except ε δ}
  {S : γ → δ → List (Ptr × B) → Prop} {p : Ptr} {b : B}

theorem Refines.lift_bind (h : ∀ b, x = .ok b → Refines other L (f b) (g b) S) :
    Refines other L (Ownership.lift x >>= f) (x >>= g) S := by
  have hlift : Refines other L (Ownership.lift x : Prog B ε β) x
      fun a b L' => a = b ∧ L' = L ∧ x = .ok b := .lift fun b hb => ⟨rfl, rfl, hb⟩
  refine hlift.bind ?_
  rintro a b L' ⟨rfl, rfl, hb⟩
  exact h a hb

theorem Refines.alloc_bind {f : Ptr → Prog B ε γ}
    (h : ∀ p, Refines other ((p, b) :: L) (f p) y S) :
    Refines other L (Ownership.alloc b >>= f) y S :=
  fun F heap hF hh => h heap.next F (heap.insert b) hF (hh.insert b)

theorem Refines.read_bind {f : B → Prog B ε γ} (hb : (p, b) ∈ L)
    (h : Refines other L (f b) y S) : Refines other L (Ownership.read p >>= f) y S := by
  intro F heap hF hh
  have hread : (Ownership.read p : Prog B ε B) heap = .ok (b, heap) := by
    rw [Ownership.read, hh.get (List.mem_append_left F hb)]
  show Outcome F S ((Ownership.read p : Prog B ε B) heap >>= fun r => f r.1 r.2) y
  rw [hread]
  exact h F heap hF hh

theorem Refines.free_bind {f : Unit → Prog B ε γ} (hL : L.Perm ((p, b) :: L'))
    (h : Refines other L' (f ()) y S) : Refines other L (Ownership.free p >>= f) y S := by
  intro F heap hF hh
  have hh' : heap.Holds ((p, b) :: (L' ++ F)) := hh.perm (hL.append_right F)
  have hfree :
      (Ownership.free p : Prog B ε Unit) heap = .ok ((), heap.filter fun c => c.1 != p) := by
    rw [Ownership.free, hh'.get List.mem_cons_self]
  show Outcome F S ((Ownership.free p : Prog B ε Unit) heap >>= fun r => f r.1 r.2) y
  rw [hfree]
  exact h F _ hF hh'.erase

theorem Refines.free {R : Unit → β → List (Ptr × B) → Prop} {u : β}
    (hL : L.Perm ((p, b) :: L')) (h : R () u L') :
    Refines other L (Ownership.free p : Prog B ε Unit) (.ok u) R := by
  have hbind : Refines other L
      ((Ownership.free p : Prog B ε Unit) >>= fun _ => Pure.pure ()) (.ok u) R :=
    free_bind hL (.pure h)
  rwa [bind_pure_unit] at hbind

end Bind

/-- Nobody else has blocks of the kind that is given up. -/
theorem Refines.release {R : Unit → β → List (Ptr × B) → Prop} {keep : B → Bool} {u : β}
    (hkeep : ∀ b, other b → keep b = true) (h : R () u (L.filter fun b => keep b.2)) :
    Refines other L (release keep : Prog B ε Unit) (.ok u) R := by
  intro F heap hF hh
  refine .ok ?_ h
  have hfilter := Heap.Holds.filter hh fun b => keep b.2
  rw [List.filter_append, List.filter_eq_self.mpr fun b hb => hkeep b.2 (hF b hb)] at hfilter
  exact hfilter

/-! ## Loops -/

/-- The items of the two lists are related one by one, and each owns blocks of its own. -/
inductive Each (Rep : α → β → List (Ptr × B) → Prop) :
    List α → List β → List (Ptr × B) → Prop
  | nil : Each Rep [] [] []
  | cons {a : α} {b : β} {as : List α} {bs : List β} {L L' : List (Ptr × B)} (hrep : Rep a b L)
      (h : Each Rep as bs L') : Each Rep (a :: as) (b :: bs) (L ++ L')

theorem Each.singleton {Rep : α → β → List (Ptr × B) → Prop} {a : α} {b : β} (h : Rep a b L) :
    Each Rep [a] [b] L := by
  simpa using Each.cons h .nil

theorem Each.append {Rep : α → β → List (Ptr × B) → Prop} {as as' : List α} {bs bs' : List β}
    (h : Each Rep as bs L) (h' : Each Rep as' bs' L') :
    Each Rep (as ++ as') (bs ++ bs') (L ++ L') := by
  induction h with
  | nil => exact h'
  | cons hrep h ih =>
      rw [List.append_assoc]
      exact .cons hrep ih

theorem Each.length_eq {Rep : α → β → List (Ptr × B) → Prop} {as : List α} {bs : List β}
    (h : Each Rep as bs L) : as.length = bs.length := by
  induction h with
  | nil => rfl
  | cons hrep h ih => rw [List.length_cons, List.length_cons, ih]

/-- What holds of the blocks of each item. -/
theorem Each.forall_blocks {Rep : α → β → List (Ptr × B) → Prop} {P : Ptr × B → Prop}
    (hP : ∀ a b L, Rep a b L → ∀ c ∈ L, P c) {as : List α} {bs : List β} (h : Each Rep as bs L) :
    ∀ c ∈ L, P c := by
  induction h with
  | nil => simp
  | cons hrep h ih =>
      intro c hc
      rcases List.mem_append.mp hc with hc | hc
      · exact hP _ _ _ hrep c hc
      · exact ih c hc

/-- The item at a position, and its blocks. -/
theorem Each.get {Rep : α → β → List (Ptr × B) → Prop} {as : List α} {bs : List β}
    (h : Each Rep as bs L) {i : ℕ} {b : β} (hb : bs[i]? = some b) :
    ∃ a La, as[i]? = some a ∧ Rep a b La ∧ La ⊆ L := by
  induction h generalizing i with
  | nil => simp at hb
  | @cons a b' as bs L L' hrep h ih =>
      cases i with
      | zero =>
          obtain rfl : b' = b := by simpa using hb
          exact ⟨a, L, by simp, hrep, List.subset_append_left _ _⟩
      | succ i =>
          obtain ⟨a', La, ha, hrep', hsub⟩ := ih (by simpa using hb)
          exact ⟨a', La, by simpa using ha, hrep', List.subset_append_of_subset_right _ hsub⟩

/-- The items own no more blocks than the bounds on each of them add up to. -/
theorem Each.length_le {Rep : α → β → List (Ptr × B) → Prop} {bound : β → ℕ}
    (hbound : ∀ a b L, Rep a b L → L.length ≤ bound b) {as : List α} {bs : List β}
    (h : Each Rep as bs L) : L.length ≤ (bs.map bound).sum := by
  induction h with
  | nil => simp
  | cons hrep h ih =>
      rw [List.length_append, List.map_cons, List.sum_cons]
      exact Nat.add_le_add (hbound _ _ _ hrep) ih

/-- A call on each item, with access to the blocks `G` that all of them share. -/
theorem Refines.mapM {Rep : α → β → List (Ptr × B) → Prop} {Rep' : γ → δ → List (Ptr × B) → Prop}
    {f : α → Prog B ε γ} {g : β → Except ε δ}
    (hf : ∀ a b L, Rep a b L →
      RefinesAnywhere (L ++ G) (f a) (g b) fun c d L' => ∃ L'', L' = L'' ++ G ∧ Rep' c d L'')
    {as : List α} {bs : List β} (h : Each Rep as bs L) :
    RefinesAnywhere (L ++ G) (as.mapM f) (bs.mapM g) fun cs ds L' =>
      ∃ L'', L' = L'' ++ G ∧ Each Rep' cs ds L'' := by
  induction h with
  | nil => exact .pure ⟨[], rfl, .nil⟩
  | @cons a b as bs L L' hrep h ih =>
      rw [List.mapM_cons, List.mapM_cons]
      -- the first item does not look at the blocks of the others
      have hperm : (L ++ L' ++ G).Perm (L ++ G ++ L') := by
        simpa using List.perm_append_comm.append_left L
      refine (((hf a b L hrep).frame L' fun _ _ => trivial).perm hperm).bind ?_
      rintro c d - ⟨-, rfl, L₁, rfl, hrep'⟩
      have hperm' : (L₁ ++ G ++ L').Perm (L' ++ G ++ L₁) := by
        rw [List.append_assoc L']
        exact List.perm_append_comm.trans (List.perm_append_comm.append_left L')
      refine ((ih.frame L₁ fun _ _ => trivial).perm hperm').bind ?_
      rintro cs ds - ⟨-, rfl, L₂, rfl, hreps⟩
      have hperm'' : (L₂ ++ G ++ L₁).Perm (L₁ ++ L₂ ++ G) := by
        rw [List.append_assoc L₁]
        exact List.perm_append_comm
      refine Refines.perm ?_ hperm''
      exact .pure ⟨L₁ ++ L₂, rfl, .cons hrep' hreps⟩

/-- A loop that keeps the states related. -/
theorem Refines.foldlM {ι σ τ : Type} {Inv : σ → τ → List (Ptr × B) → Prop}
    {f : σ → ι → Prog B ε σ} {g : τ → ι → Except ε τ}
    (hf : ∀ s t L a, Inv s t L → Refines other L (f s a) (g t a) Inv) {s : σ} {t : τ}
    (h : Inv s t L) (xs : List ι) : Refines other L (xs.foldlM f s) (xs.foldlM g t) Inv := by
  induction xs generalizing s t L with
  | nil => exact .pure h
  | cons a xs ih =>
      rw [List.foldlM_cons, List.foldlM_cons]
      exact (hf s t L a h).bind fun s' t' L' h' => ih h'

end Lib.Ownership
