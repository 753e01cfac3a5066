import Mathlib.Logic.Function.Basic
import Mathlib.Logic.Relation
import Mathlib.Tactic.Common

/-!
# Settings with nested levels

`Scopes` are the operations on variables that are set on nested levels: `enter` opens a level,
`save` sets a variable for as long as the current level is open, and `leave n` leaves level `n`
and the deeper ones.  `Scopes.Laws` says what that means.  A system may have other ways to set a
variable, which outlast the level: `savedFrom n` says that none of them has been used on level
`n` or deeper.

Code that runs on a level may open and leave deeper ones, and may leave several at once or
none, as when an error is raised in the middle (`Within`).  One `leave` still restores its
level (`Within.leave_eq`).

`Settings` has a stack for every variable, and follows the laws.
-/

namespace Lib.Scoped

open Relation

variable {S V : Type} {X : V → Type}

structure Scopes (S : Type) {V : Type} (X : V → Type) where
  value : S → (v : V) → X v
  level : S → Nat
  /-- What has been set on the level or a deeper one has been saved. -/
  savedFrom : Nat → S → Prop
  enter : S → S
  save : S → (v : V) → X v → S
  leave : Nat → S → S

structure Scopes.Laws [DecidableEq V] (G : Scopes S X) : Prop where
  value_enter : ∀ s, G.value (G.enter s) = G.value s
  value_save : ∀ s v x, G.value (G.save s v x) = Function.update (G.value s) v x
  level_enter : ∀ s, G.level (G.enter s) = G.level s + 1
  level_save : ∀ s v x, G.level (G.save s v x) = G.level s
  level_leave : ∀ {n s}, n ≤ G.level s → G.level (G.leave n s) = n - 1
  /-- Nothing has been set on a level that has just been opened. -/
  savedFrom_enter_new : ∀ s, G.savedFrom (G.level s + 1) (G.enter s)
  savedFrom_enter : ∀ {n s}, G.savedFrom n s → G.savedFrom n (G.enter s)
  savedFrom_save : ∀ {n s} v x, G.savedFrom n s → G.savedFrom n (G.save s v x)
  savedFrom_leave : ∀ {n m s}, G.savedFrom n s → n < m → m ≤ G.level s →
    G.savedFrom n (G.leave m s)
  /-- A level that has just been opened. -/
  leave_enter_new : ∀ s, G.leave (G.level s + 1) (G.enter s) = s
  leave_enter : ∀ {n s}, n ≤ G.level s → G.leave n (G.enter s) = G.leave n s
  /-- What is saved is restored. -/
  leave_save : ∀ {n s} v x, G.savedFrom n s → n ≤ G.level s →
    G.leave n (G.save s v x) = G.leave n s
  /-- Deeper levels may be left first. -/
  leave_leave : ∀ {n m s}, G.savedFrom n s → n < m → m ≤ G.level s →
    G.leave n (G.leave m s) = G.leave n s

/-! ## What may run on a level -/

section Within

/-- A step of code that runs on level `n`. -/
inductive Step (G : Scopes S X) (n : Nat) (s : S) : S → Prop
  | enter : Step G n s (G.enter s)
  | save (v : V) (x : X v) : Step G n s (G.save s v x)
  | leave (m : Nat) (hlt : n < m) (hle : m ≤ G.level s) : Step G n s (G.leave m s)

def Within (G : Scopes S X) (n : Nat) : S → S → Prop := ReflTransGen (Step G n)

/-- The level is open, and leaving it gives `base`. -/
structure Opened (G : Scopes S X) (base : S) (n : Nat) (s : S) : Prop where
  le : n ≤ G.level s
  saved : G.savedFrom n s
  leave : G.leave n s = base

variable [DecidableEq V] {G : Scopes S X} {base s s' : S} {n : Nat}

theorem Opened.enter (laws : G.Laws) (base : S) :
    Opened G base (G.level base + 1) (G.enter base) :=
  ⟨Nat.le_of_eq (laws.level_enter base).symm, laws.savedFrom_enter_new base,
    laws.leave_enter_new base⟩

theorem Opened.step (laws : G.Laws) (h : Opened G base n s) (hstep : Step G n s s') :
    Opened G base n s' := by
  cases hstep with
  | enter =>
      refine ⟨?_, laws.savedFrom_enter h.saved, (laws.leave_enter h.le).trans h.leave⟩
      rw [laws.level_enter]
      exact Nat.le_succ_of_le h.le
  | save v x =>
      refine ⟨?_, laws.savedFrom_save v x h.saved, (laws.leave_save v x h.saved h.le).trans h.leave⟩
      rw [laws.level_save]
      exact h.le
  | leave m hlt hle =>
      refine ⟨?_, laws.savedFrom_leave h.saved hlt hle,
        (laws.leave_leave h.saved hlt hle).trans h.leave⟩
      rw [laws.level_leave hle]
      exact Nat.le_sub_one_of_lt hlt

theorem Opened.run (laws : G.Laws) (h : Opened G base n s) (hrun : Within G n s s') :
    Opened G base n s' := by
  induction hrun with
  | refl => exact h
  | tail _ hstep ih => exact ih.step laws hstep

/-- Whatever runs on a new level, leaving it restores what was there before. -/
theorem Within.leave_eq (laws : G.Laws) (h : Within G (G.level base + 1) (G.enter base) s) :
    G.leave (G.level base + 1) s = base :=
  ((Opened.enter laws base).run laws h).leave

end Within

/-! ## A stack for every variable -/

/-- The level on which a variable was set, and its value before. -/
structure Saved (α : Type) where
  level : Nat
  prior : α

section Stack

variable {α : Type} {bound n m : Nat} {x : α} {es : List (Saved α)}

/-- Innermost first, one entry a level. -/
def Nested (bound : Nat) : List (Saved α) → Prop
  | [] => True
  | e :: es => e.level < bound ∧ Nested e.level es

/-- The value and the stack after level `n` and the deeper ones have been unwound. -/
def unwind (n : Nat) (x : α) : List (Saved α) → α × List (Saved α)
  | [] => (x, [])
  | e :: es => if n ≤ e.level then unwind n e.prior es else (x, e :: es)

theorem Nested.mono (h : Nested bound es) (hle : bound ≤ m) : Nested m es := by
  cases es with
  | nil => trivial
  | cons e es => exact ⟨Nat.lt_of_lt_of_le h.1 hle, h.2⟩

theorem Nested.unwind (h : Nested bound es) : Nested n (unwind n x es).2 := by
  induction es generalizing bound x with
  | nil => trivial
  | cons e es ih =>
      simp only [Scoped.unwind]
      split
      · exact ih h.2
      · rename_i hn
        exact ⟨Nat.lt_of_not_le hn, h.2⟩

/-- A level that is not open has nothing to unwind. -/
theorem unwind_of_nested (h : Nested n es) : Scoped.unwind n x es = (x, es) := by
  cases es with
  | nil => rfl
  | cons e es => rw [Scoped.unwind, if_neg (Nat.not_le_of_lt h.1)]

/-- Deeper levels may be unwound first. -/
theorem unwind_unwind (hle : n ≤ m) :
    Scoped.unwind n (Scoped.unwind m x es).1 (Scoped.unwind m x es).2 = Scoped.unwind n x es := by
  induction es generalizing x with
  | nil => rfl
  | cons e es ih =>
      by_cases hm : m ≤ e.level
      · simp only [Scoped.unwind, if_pos hm, if_pos (Nat.le_trans hle hm), ih]
      · simp only [Scoped.unwind, if_neg hm]

end Stack

@[ext]
structure Settings (X : V → Type) where
  value : (v : V) → X v
  saved : (v : V) → List (Saved (X v))
  level : Nat
  nested : ∀ v, Nested (level + 1) (saved v)

namespace Settings

/-- A new level. -/
def enter (s : Settings X) : Settings X :=
  { s with
    level := s.level + 1
    nested := fun v => (s.nested v).mono (Nat.le_succ _) }

/-- Level `n` and the deeper ones are left. -/
def leave (n : Nat) (s : Settings X) : Settings X where
  value v := (unwind n (s.value v) (s.saved v)).1
  saved v := (unwind n (s.value v) (s.saved v)).2
  level := n - 1
  nested v := (s.nested v).unwind.mono (by omega)

theorem leave_leave (s : Settings X) {n m : Nat} (hle : n ≤ m) :
    (s.leave m).leave n = s.leave n :=
  Settings.ext (funext fun _ => congrArg Prod.fst (unwind_unwind hle))
    (funext fun _ => congrArg Prod.snd (unwind_unwind hle)) rfl

theorem leave_enter_new (s : Settings X) : s.enter.leave (s.level + 1) = s :=
  Settings.ext (funext fun v => congrArg Prod.fst (unwind_of_nested (s.nested v)))
    (funext fun v => congrArg Prod.snd (unwind_of_nested (s.nested v))) rfl

/-- Whether the variable has been set on the current level. -/
def isSaved (s : Settings X) (v : V) : Bool := (s.saved v).head?.any fun e => s.level ≤ e.level

/-- The stack of a variable that is set. -/
def push (s : Settings X) (v : V) : List (Saved (X v)) :=
  if s.isSaved v then s.saved v else ⟨s.level, s.value v⟩ :: s.saved v

theorem nested_push (s : Settings X) (v : V) : Nested (s.level + 1) (s.push v) := by
  have hnested := s.nested v
  unfold push
  split
  · exact hnested
  · rename_i hsaved
    refine ⟨Nat.lt_succ_self _, ?_⟩
    cases hes : s.saved v with
    | nil => trivial
    | cons e es =>
        rw [hes] at hnested
        have hlt : ¬s.level ≤ e.level := by simpa [isSaved, hes] using hsaved
        exact ⟨Nat.lt_of_not_le hlt, hnested.2⟩

/-- A level that is open unwinds to what was there before the variable was set on it. -/
theorem unwind_push (s : Settings X) {n : Nat} (hn : n ≤ s.level) (v : V) (x : X v) :
    unwind n x (s.push v) = unwind n (s.value v) (s.saved v) := by
  unfold push
  split
  · rename_i hsaved
    cases hes : s.saved v with
    | nil => simp [isSaved, hes] at hsaved
    | cons e es =>
        have hle : s.level ≤ e.level := by simpa [isSaved, hes] using hsaved
        simp only [unwind, if_pos (Nat.le_trans hn hle)]
  · rw [unwind, if_pos hn]

variable [DecidableEq V]

def save (s : Settings X) (v : V) (x : X v) : Settings X where
  value := Function.update s.value v x
  saved := Function.update s.saved v (s.push v)
  level := s.level
  nested w := by
    by_cases hw : w = v
    · subst hw
      rw [Function.update_self]
      exact s.nested_push w
    · rw [Function.update_of_ne hw]
      exact s.nested w

/-- Every variable that is set is saved. -/
def scopes : Scopes (Settings X) X where
  value := value
  level := level
  savedFrom _ _ := True
  enter := enter
  save := save
  leave := leave

theorem leave_save (s : Settings X) {n : Nat} (hn : n ≤ s.level) (v : V) (x : X v) :
    (s.save v x).leave n = s.leave n := by
  have hunwind (w : V) : unwind n ((s.save v x).value w) ((s.save v x).saved w) =
      unwind n (s.value w) (s.saved w) := by
    by_cases hw : w = v
    · subst hw
      simp only [save, Function.update_self, s.unwind_push hn]
    · simp only [save, Function.update_of_ne hw]
  exact Settings.ext (funext fun w => congrArg Prod.fst (hunwind w))
    (funext fun w => congrArg Prod.snd (hunwind w)) rfl

theorem laws : (scopes : Scopes (Settings X) X).Laws where
  value_enter _ := rfl
  value_save _ _ _ := rfl
  level_enter _ := rfl
  level_save _ _ _ := rfl
  level_leave _ := rfl
  savedFrom_enter_new _ := trivial
  savedFrom_enter _ := trivial
  savedFrom_save _ _ _ := trivial
  savedFrom_leave _ _ _ := trivial
  leave_enter_new := leave_enter_new
  leave_enter _ := rfl
  leave_save v x _ hn := leave_save _ hn v x
  leave_leave _ hlt _ := leave_leave _ (Nat.le_of_lt hlt)

end Settings

end Lib.Scoped
