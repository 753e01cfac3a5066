import Mathlib.Tactic.Common

/-!
# Pinning the settings that text I/O reads

`src/stable_io.rs`.  Bounds are stored as text, and the text of some types
depends on the session.  `withStableIo` runs a function under settings in which
`DateStyle`, `IntervalStyle` and `extra_float_digits` are pinned, or does not
run it when they would have to be changed in parallel mode.

`Guc` holds the settings that the text form of some type reads; `lcMonetary` is
one of them that is not pinned.
-/

namespace TableRange

/-- The output style of `DateStyle`. -/
inductive DateStyle
  | iso | postgres | sql | german
deriving DecidableEq, Repr

/-- The field order of `DateStyle`. -/
inductive DateOrder
  | ymd | dmy | mdy
deriving DecidableEq, Repr

inductive IntervalStyle
  | postgres | postgresVerbose | sqlStandard | iso8601
deriving DecidableEq, Repr

structure Guc where
  dateStyle : DateStyle
  dateOrder : DateOrder
  intervalStyle : IntervalStyle
  extraFloatDigits : Int
  lcMonetary : String
deriving DecidableEq, Repr

/-- A backend's settings, and whether it is in parallel mode.  `quote_all_identifiers` is no
setting of text I/O, but `quote_identifier` reads it. -/
structure Session where
  guc : Guc
  inParallelMode : Bool
  quoteAllIdentifiers : Bool
deriving DecidableEq, Repr

/-- Each setting is changed only when its present value does not round-trip.
`ISO` sets the output style and leaves the field order alone. -/
def Guc.pin (g : Guc) : Guc :=
  { g with
    dateStyle := .iso
    intervalStyle := .postgres
    extraFloatDigits := if g.extraFloatDigits < 1 then 1 else g.extraFloatDigits }

/-- `need_date || need_interval || need_float`. -/
def Guc.needsPin (g : Guc) : Bool :=
  g.dateStyle != .iso || g.intervalStyle != .postgres || decide (g.extraFloatDigits < 1)

/-- `none`: `f` is not run. -/
def withStableIo {α : Type} (session : Session) (f : Guc → α) : Option α :=
  if !session.guc.needsPin then some (f session.guc)
  else if session.inParallelMode then none
  else some (f session.guc.pin)

/-- The settings under which summaries are written and read. -/
structure Guc.Stable (g : Guc) : Prop where
  date : g.dateStyle = .iso
  interval : g.intervalStyle = .postgres
  float : 1 ≤ g.extraFloatDigits

theorem Guc.pin_stable (g : Guc) : g.pin.Stable := by
  refine ⟨rfl, rfl, ?_⟩
  simp only [Guc.pin]
  split <;> omega

theorem Guc.pin_eq_self {g : Guc} (h : g.needsPin = false) : g.pin = g := by
  simp only [Guc.needsPin, Bool.or_eq_false_iff, bne_eq_false_iff_eq, decide_eq_false_iff_not] at h
  obtain ⟨⟨hdate, hinterval⟩, hfloat⟩ := h
  simp only [Guc.pin, if_neg hfloat, ← hdate, ← hinterval]

theorem Guc.Stable.pin_eq {g : Guc} (h : g.Stable) : g.pin = g :=
  Guc.pin_eq_self (by simp [Guc.needsPin, h.date, h.interval, Int.not_lt.mpr h.float])

/-- Whether `f` is run in the session. -/
def Session.runs (session : Session) : Bool := !session.guc.needsPin || !session.inParallelMode

/-- Whenever `f` is run, it is run under the session's pinned settings. -/
theorem withStableIo_eq {α : Type} (session : Session) (f : Guc → α) :
    withStableIo session f = if session.runs then some (f session.guc.pin) else none := by
  unfold withStableIo Session.runs
  cases hpin : session.guc.needsPin with
  | false => simp [Guc.pin_eq_self hpin]
  | true => cases session.inParallelMode <;> simp

theorem withStableIo_eq_some {α : Type} {session : Session} {f : Guc → α} {a : α}
    (h : withStableIo session f = some a) : a = f session.guc.pin := by
  rw [withStableIo_eq] at h
  split at h
  · exact (Option.some.inj h).symm
  · cases h

/-- Outside parallel mode `f` is always run. -/
theorem withStableIo_of_not_parallel {α : Type} {session : Session} (f : Guc → α)
    (h : session.inParallelMode = false) : withStableIo session f = some (f session.guc.pin) := by
  rw [withStableIo_eq, if_pos]
  simp [Session.runs, h]

end TableRange
