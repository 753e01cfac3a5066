import Mathlib.Data.Set.Insert
import Mathlib.Logic.Relation
import Mathlib.Tactic.Common

/-!
# Optimistic updates of a shared cell

Any number of parties add items to one cell.  A party loads the contents,
computes new contents from them without touching anything shared, and stores
them only if the cell still holds what it loaded; otherwise it starts over.  A
party that finds its item in the contents already returns without storing.

`Protocol` is what the contents and the computation have to satisfy: an update
keeps what the contents offer and adds its item.  Equality of the contents is
all that the swap compares, so an A-B-A history is harmless: what was computed
from A is right for A.

`Sound` is the invariant of one party, `step_spec` what one step does to the
cell, and `Inv.run` the result: in every reachable state the cell has every item
whose party has returned.
-/

namespace Lib.Cas

variable {κ β ι : Type}

structure Protocol (κ β : Type) where
  valid : β → Prop
  /-- Nothing that the first contents offer is missing from the second. -/
  le : β → β → Prop
  refl : ∀ b, le b b
  trans : ∀ {a b c}, le a b → le b c → le a c
  has : κ → β → Prop
  has_mono : ∀ {k b b'}, le b b' → has k b → has k b'
  /-- The new contents that may be computed for an item. -/
  update : κ → β → β → Prop
  update_spec : ∀ {k b b'}, valid b → update k b b' → valid b' ∧ le b b' ∧ has k b'
  /-- The item needs no update. -/
  skip : κ → β → Prop
  skip_spec : ∀ {k b}, valid b → skip k b → has k b

inductive Phase (κ β : Type)
  | idle
  | begun (k : κ)
  | loaded (k : κ) (b : β)
  | computed (k : κ) (b b' : β)

variable (P : Protocol κ β)

/-- A step of one party: the cell and the party's phase, the item whose addition
returns with this step, and the cell and the phase afterwards. -/
inductive Step : β → Phase κ β → Option κ → β → Phase κ β → Prop
  | begin (c : β) (k : κ) : Step c .idle none c (.begun k)
  | load (c : β) (k : κ) : Step c (.begun k) none c (.loaded k c)
  | skip {c b : β} {k : κ} (h : P.skip k b) : Step c (.loaded k b) (some k) c .idle
  | compute {c b b' : β} {k : κ} (h : P.update k b b') :
      Step c (.loaded k b) none c (.computed k b b')
  | swap (b b' : β) (k : κ) : Step b (.computed k b b') (some k) b' .idle
  | retry {c b b' : β} {k : κ} (h : c ≠ b) : Step c (.computed k b b') none c (.begun k)
  | fail (c : β) (φ : Phase κ β) : Step c φ none c .idle

/-- What a party has loaded is not beyond the cell. -/
def Sound (c : β) : Phase κ β → Prop
  | .idle | .begun _ => True
  | .loaded _ b => P.valid b ∧ P.le b c
  | .computed k b b' => P.valid b ∧ P.le b c ∧ P.update k b b'

structure State (ι κ β : Type) where
  cell : β
  phase : ι → Phase κ β
  returned : Set κ

/-- One party takes a step. -/
structure MachineStep (s s' : State ι κ β) (i : ι) (item : Option κ) : Prop where
  step : Step P s.cell (s.phase i) item s'.cell (s'.phase i)
  frame : ∀ j, j ≠ i → s'.phase j = s.phase j
  returned : s'.returned = {k | item = some k} ∪ s.returned

/-- Some party takes a step. -/
def Next (s s' : State ι κ β) : Prop := ∃ i item, MachineStep P s s' i item

structure Inv (s : State ι κ β) : Prop where
  valid : P.valid s.cell
  sound : ∀ i, Sound P s.cell (s.phase i)
  has : ∀ k ∈ s.returned, P.has k s.cell

variable {P}

/-- The cell only grows, so what was sound stays sound. -/
theorem Sound.mono {c c' : β} {φ : Phase κ β} (h : Sound P c φ) (hle : P.le c c') :
    Sound P c' φ := by
  cases φ with
  | idle => trivial
  | begun k => trivial
  | loaded k b => exact ⟨h.1, P.trans h.2 hle⟩
  | computed k b b' => exact ⟨h.1, P.trans h.2.1 hle, h.2.2⟩

/-- What one step of a party does. -/
theorem step_spec {c c' : β} {φ φ' : Phase κ β} {item : Option κ} (hvalid : P.valid c)
    (hsound : Sound P c φ) (h : Step P c φ item c' φ') :
    P.valid c' ∧ P.le c c' ∧ Sound P c' φ' ∧ ∀ k, item = some k → P.has k c' := by
  cases h with
  | begin => exact ⟨hvalid, P.refl c, trivial, nofun⟩
  | load k => exact ⟨hvalid, P.refl c, ⟨hvalid, P.refl c⟩, nofun⟩
  | skip hskip =>
      refine ⟨hvalid, P.refl c, trivial, ?_⟩
      rintro k ⟨⟩
      exact P.has_mono hsound.2 (P.skip_spec hsound.1 hskip)
  | compute hupdate => exact ⟨hvalid, P.refl c, ⟨hsound.1, hsound.2, hupdate⟩, nofun⟩
  | swap =>
      obtain ⟨hvalid', hle, hhas⟩ := P.update_spec hvalid hsound.2.2
      refine ⟨hvalid', hle, trivial, ?_⟩
      rintro k ⟨⟩
      exact hhas
  | retry _ => exact ⟨hvalid, P.refl c, trivial, nofun⟩
  | fail => exact ⟨hvalid, P.refl c, trivial, nofun⟩

theorem Inv.step {s s' : State ι κ β} (hinv : Inv P s) (h : Next P s s') :
    Inv P s' ∧ P.le s.cell s'.cell := by
  obtain ⟨i, item, hstep, hframe, hreturned⟩ := h
  obtain ⟨hvalid, hle, hsound, hitem⟩ := step_spec hinv.valid (hinv.sound i) hstep
  refine ⟨⟨hvalid, fun j => ?_, fun k hk => ?_⟩, hle⟩
  · by_cases hj : j = i
    · rw [hj]
      exact hsound
    · rw [hframe j hj]
      exact (hinv.sound j).mono hle
  · rw [hreturned] at hk
    rcases hk with hk | hk
    · exact hitem k hk
    · exact P.has_mono hle (hinv.has k hk)

/-- No update is lost. -/
theorem Inv.run {s s' : State ι κ β} (hinv : Inv P s)
    (h : Relation.ReflTransGen (Next P) s s') : Inv P s' ∧ P.le s.cell s'.cell := by
  induction h with
  | refl => exact ⟨hinv, P.refl _⟩
  | tail _ hnext ih =>
      obtain ⟨hinv', hle⟩ := ih.1.step hnext
      exact ⟨hinv', P.trans ih.2 hle⟩

end Lib.Cas
