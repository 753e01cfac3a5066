import Mathlib.Data.Set.Insert
import Mathlib.Tactic.Common

/-!
# Nested transactions and what they will send

A party that adds items to shared data inside a transaction registers messages,
which the others get when the transaction commits.  Transactions nest: a level
that is rolled back takes its items and its messages with it, and a level that is
released leaves them to the level around it.  What the current command has added
and registered is kept apart, because the party itself sees the items, and
processes the messages, when the command ends.

`Announced` says that wherever an item is held, a message will be sent with it,
and `Deferred` that the party itself will process one before it sees the item.
Both survive every operation on the levels.
-/

namespace Lib.Levels

variable {κ μ : Type}

/-- One level of a transaction. -/
structure Level (κ μ : Type) where
  items : Set κ
  /-- Added by the current command. -/
  cmdItems : Set κ
  msgs : List μ
  /-- Registered by the current command. -/
  cmdMsgs : List μ

namespace Level

def empty : Level κ μ := ⟨∅, ∅, [], []⟩

/-- The current command adds an item and registers messages. -/
def record (l : Level κ μ) (k : κ) (ms : List μ) : Level κ μ :=
  { l with cmdItems := insert k l.cmdItems, cmdMsgs := l.cmdMsgs ++ ms }

def endCommand (l : Level κ μ) : Level κ μ := ⟨l.items ∪ l.cmdItems, ∅, l.msgs ++ l.cmdMsgs, []⟩

/-- The released level `inner` becomes part of the level around it. -/
def merge (inner outer : Level κ μ) : Level κ μ where
  items := outer.items ∪ inner.items
  cmdItems := outer.cmdItems ∪ inner.cmdItems
  msgs := outer.msgs ++ inner.msgs
  cmdMsgs := outer.cmdMsgs ++ inner.cmdMsgs

def Holds (l : Level κ μ) (k : κ) : Prop := k ∈ l.items ∨ k ∈ l.cmdItems

def Registers (l : Level κ μ) (m : μ) : Prop := m ∈ l.msgs ∨ m ∈ l.cmdMsgs

variable {l outer : Level κ μ} {k k' : κ} {m : μ} {ms : List μ}

@[simp] theorem not_holds_empty : ¬(empty : Level κ μ).Holds k := by simp [Holds, empty]

@[simp] theorem holds_record : (l.record k' ms).Holds k ↔ k = k' ∨ l.Holds k := by
  simp only [Holds, record, Set.mem_insert_iff]
  tauto

@[simp] theorem registers_record : (l.record k' ms).Registers m ↔ l.Registers m ∨ m ∈ ms := by
  simp only [Registers, record, List.mem_append]
  tauto

@[simp] theorem holds_endCommand : l.endCommand.Holds k ↔ l.Holds k := by
  simp [Holds, endCommand]

@[simp] theorem registers_endCommand : l.endCommand.Registers m ↔ l.Registers m := by
  simp [Registers, endCommand]

@[simp] theorem holds_merge : (l.merge outer).Holds k ↔ outer.Holds k ∨ l.Holds k := by
  simp only [Holds, merge, Set.mem_union]
  tauto

@[simp] theorem registers_merge : (l.merge outer).Registers m ↔
    outer.Registers m ∨ l.Registers m := by
  simp only [Registers, merge, List.mem_append]
  tauto

end Level

/-- Some level registers the message. -/
def Registered (m : μ) (ls : List (Level κ μ)) : Prop := ∃ l ∈ ls, l.Registers m

/-- The current command has registered the message. -/
def CmdRegistered (m : μ) (ls : List (Level κ μ)) : Prop := ∃ l ∈ ls, m ∈ l.cmdMsgs

/-- Wherever the item is held, the message is registered at the same level or
around it.  The innermost level comes first. -/
def Announced (m : μ) (k : κ) : List (Level κ μ) → Prop
  | [] => True
  | l :: ls => (l.Holds k → Registered m (l :: ls)) ∧ Announced m k ls

/-- The item is held by the current command at most, and then the message was
registered by it, at the same level or around it. -/
def Deferred (m : μ) (k : κ) : List (Level κ μ) → Prop
  | [] => True
  | l :: ls => k ∉ l.items ∧ (k ∈ l.cmdItems → CmdRegistered m (l :: ls)) ∧ Deferred m k ls

variable {m : μ} {k k' : κ} {ms : List μ} {l inner outer : Level κ μ} {ls : List (Level κ μ)}

@[simp] theorem registered_cons : Registered m (l :: ls) ↔ l.Registers m ∨ Registered m ls := by
  simp [Registered]

@[simp] theorem cmdRegistered_cons :
    CmdRegistered m (l :: ls) ↔ m ∈ l.cmdMsgs ∨ CmdRegistered m ls := by
  simp [CmdRegistered]

/-- A command that has ended has nothing registered. -/
theorem not_cmdRegistered_endCommand : ¬CmdRegistered m (ls.map Level.endCommand) := by
  rintro ⟨l, hl, hreg⟩
  obtain ⟨l', -, rfl⟩ := List.mem_map.mp hl
  cases hreg

theorem CmdRegistered.record (h : CmdRegistered m (l :: ls)) :
    CmdRegistered m (l.record k ms :: ls) := by
  rw [cmdRegistered_cons] at h ⊢
  exact h.imp_left (List.mem_append_left ms)

theorem announced_of_not_holds (h : ∀ l ∈ ls, ¬l.Holds k) : Announced m k ls := by
  induction ls with
  | nil => trivial
  | cons l ls ih =>
      exact ⟨fun hold => absurd hold (h l List.mem_cons_self),
        ih fun l' hl' => h l' (List.mem_cons_of_mem l hl')⟩

theorem deferred_of_not_holds (h : ∀ l ∈ ls, ¬l.Holds k) : Deferred m k ls := by
  induction ls with
  | nil => trivial
  | cons l ls ih =>
      have hno := h l List.mem_cons_self
      exact ⟨fun hold => hno (Or.inl hold), fun hold => absurd (Or.inr hold) hno,
        ih fun l' hl' => h l' (List.mem_cons_of_mem l hl')⟩

/-! ## The operations -/

theorem Announced.push (h : Announced m k ls) : Announced m k (.empty :: ls) :=
  ⟨fun hno => absurd hno Level.not_holds_empty, h⟩

theorem Announced.record (h : Announced m k (l :: ls))
    (hnew : k = k' → m ∈ ms ∨ Registered m (l :: ls)) : Announced m k (l.record k' ms :: ls) := by
  refine ⟨fun hold => ?_, h.2⟩
  have hreg : m ∈ ms ∨ Registered m (l :: ls) := by
    rcases Level.holds_record.mp hold with hk | hold
    · exact hnew hk
    · exact Or.inr (h.1 hold)
  simp only [registered_cons, Level.registers_record] at hreg ⊢
  tauto

theorem Announced.merge (h : Announced m k (inner :: outer :: ls)) :
    Announced m k (inner.merge outer :: ls) := by
  obtain ⟨hinner, houter, hrest⟩ := h
  refine ⟨fun hold => ?_, hrest⟩
  simp only [registered_cons, Level.registers_merge] at hinner houter ⊢
  rcases Level.holds_merge.mp hold with hold | hold
  · have hreg := houter hold
    tauto
  · have hreg := hinner hold
    tauto

theorem Announced.endCommand (h : Announced m k ls) : Announced m k (ls.map Level.endCommand) := by
  induction ls with
  | nil => trivial
  | cons l ls ih =>
      refine ⟨fun hold => ?_, ih h.2⟩
      obtain ⟨l', hl', hreg⟩ := h.1 (Level.holds_endCommand.mp hold)
      exact ⟨l'.endCommand, List.mem_map_of_mem hl', Level.registers_endCommand.mpr hreg⟩

theorem Deferred.push (h : Deferred m k ls) : Deferred m k (.empty :: ls) :=
  ⟨Set.notMem_empty k, fun hno => absurd hno (Set.notMem_empty k), h⟩

theorem Deferred.record (h : Deferred m k (l :: ls))
    (hnew : k = k' → m ∈ ms ∨ CmdRegistered m (l :: ls)) : Deferred m k (l.record k' ms :: ls) := by
  refine ⟨h.1, fun hold => ?_, h.2.2⟩
  have hreg : m ∈ ms ∨ CmdRegistered m (l :: ls) := by
    rcases Set.mem_insert_iff.mp hold with hk | hold
    · exact hnew hk
    · exact Or.inr (h.2.1 hold)
  simp only [cmdRegistered_cons, Level.record, List.mem_append] at hreg ⊢
  tauto

theorem Deferred.merge (h : Deferred m k (inner :: outer :: ls)) :
    Deferred m k (inner.merge outer :: ls) := by
  obtain ⟨hinner, hcmdInner, houter, hcmdOuter, hrest⟩ := h
  refine ⟨fun hold => hold.elim houter hinner, fun hold => ?_, hrest⟩
  simp only [cmdRegistered_cons, Level.merge, List.mem_append] at hcmdInner hcmdOuter ⊢
  rcases hold with hold | hold
  · have hreg := hcmdOuter hold
    tauto
  · have hreg := hcmdInner hold
    tauto

/-- A command without the message has not added the item. -/
theorem Deferred.endCommand (h : Deferred m k ls) (hno : ¬CmdRegistered m ls) :
    Deferred m k (ls.map Level.endCommand) := by
  induction ls with
  | nil => trivial
  | cons l ls ih =>
      refine ⟨?_, nofun, ih h.2.2 fun hreg => hno (by simp [hreg])⟩
      rintro (hold | hold)
      · exact h.1 hold
      · exact hno (h.2.1 hold)

/-- The party sees nothing of a deferred item. -/
theorem Deferred.notMem_items (h : Deferred m k ls) (hl : l ∈ ls) : k ∉ l.items := by
  induction ls with
  | nil => cases hl
  | cons l' ls ih =>
      rcases List.mem_cons.mp hl with rfl | hl
      · exact h.1
      · exact ih h.2.2 hl

/-! ## Messages that travel together -/

/-- The level has the second message wherever it has the first one. -/
structure Level.Pairs (l : Level κ μ) (m m' : μ) : Prop where
  msgs : m ∈ l.msgs → m' ∈ l.msgs
  cmdMsgs : m ∈ l.cmdMsgs → m' ∈ l.cmdMsgs

section Pairs

variable {m' : μ}

theorem Level.Pairs.empty : (Level.empty : Level κ μ).Pairs m m' := ⟨nofun, nofun⟩

theorem Level.Pairs.record (h : l.Pairs m m') (hms : m ∈ ms → m' ∈ ms) :
    (l.record k ms).Pairs m m' := by
  refine ⟨h.msgs, fun hm => ?_⟩
  exact List.mem_append.mpr ((List.mem_append.mp hm).imp h.cmdMsgs hms)

theorem Level.Pairs.endCommand (h : l.Pairs m m') : l.endCommand.Pairs m m' := by
  refine ⟨fun hm => ?_, nofun⟩
  exact List.mem_append.mpr ((List.mem_append.mp hm).imp h.msgs h.cmdMsgs)

theorem Level.Pairs.merge (hinner : inner.Pairs m m') (houter : outer.Pairs m m') :
    (inner.merge outer).Pairs m m' := by
  refine ⟨fun hm => ?_, fun hm => ?_⟩
  · exact List.mem_append.mpr ((List.mem_append.mp hm).imp houter.msgs hinner.msgs)
  · exact List.mem_append.mpr ((List.mem_append.mp hm).imp houter.cmdMsgs hinner.cmdMsgs)

theorem Announced.pairs (h : Announced m k ls) (hpairs : ∀ l ∈ ls, l.Pairs m m') :
    Announced m' k ls := by
  induction ls with
  | nil => trivial
  | cons l ls ih =>
      refine ⟨fun hold => ?_, ih h.2 fun l' hl' => hpairs l' (List.mem_cons_of_mem l hl')⟩
      obtain ⟨l', hl', hreg⟩ := h.1 hold
      exact ⟨l', hl', hreg.imp (hpairs l' hl').msgs (hpairs l' hl').cmdMsgs⟩

theorem Deferred.pairs (h : Deferred m k ls) (hpairs : ∀ l ∈ ls, l.Pairs m m') :
    Deferred m' k ls := by
  induction ls with
  | nil => trivial
  | cons l ls ih =>
      refine ⟨h.1, fun hold => ?_, ih h.2.2 fun l' hl' => hpairs l' (List.mem_cons_of_mem l hl')⟩
      obtain ⟨l', hl', hreg⟩ := h.2.1 hold
      exact ⟨l', hl', (hpairs l' hl').cmdMsgs hreg⟩

end Pairs

end Lib.Levels
