import TableRange.Lib.Scoped
import TableRange.MiniPg

/-!
# `with_stable_io` and the levels of the settings

`StableIo.lean` runs a function under pinned settings.  The code changes the settings of the
session instead: it opens a level with `NewGUCNestLevel`, saves and sets what it has to with
`GUC_ACTION_SAVE`, and leaves the level with `AtEOXact_GUC` when the function has returned or
raised an error.  The three are a parameter, `Scopes`.

What runs inside may open levels of its own and save settings on them, as a function with a
`SET` clause does, and an error leaves them open.  `withStableIo_restores_iff` says when the
session gets its settings back all the same.
-/

namespace TableRange.Scoped

open Lib.Scoped

/-- The settings that the text form of some type reads. -/
inductive GucVar
  | dateStyle | intervalStyle | extraFloatDigits | lcMonetary
deriving DecidableEq, Repr

abbrev GucVar.Value : GucVar → Type
  | .dateStyle => DateStyle × DateOrder
  | .intervalStyle => IntervalStyle
  | .extraFloatDigits => Int
  | .lcMonetary => String

/-- `S` are the states of the backend's settings. -/
abbrev GucScopes (S : Type) := Scopes S GucVar.Value

/-- Code of the backend, which may raise an error after it has changed the settings. -/
abbrev Code (S α : Type) := S → PgResult α × S

variable {S α : Type} (G : GucScopes S)

/-- The present values. -/
def guc (s : S) : Guc where
  dateStyle := (G.value s .dateStyle).1
  dateOrder := (G.value s .dateStyle).2
  intervalStyle := G.value s .intervalStyle
  extraFloatDigits := G.value s .extraFloatDigits
  lcMonetary := G.value s .lcMonetary

/-- The calls of `set_guc`.  `ISO` keeps the field order. -/
def pin (s : S) (needDate needInterval needFloat : Bool) : S :=
  let s := if needDate then G.save s .dateStyle (.iso, (G.value s .dateStyle).2) else s
  let s := if needInterval then G.save s .intervalStyle .postgres else s
  if needFloat then G.save s .extraFloatDigits (1 : Int) else s

/-- `none`: `f` is not run. -/
def withStableIo (inParallelMode : Bool) (f : Code S α) : Code S (Option α) := fun s =>
  let needDate := (guc G s).dateStyle != .iso
  let needInterval := (guc G s).intervalStyle != .postgres
  let needFloat := decide ((guc G s).extraFloatDigits < 1)
  if !(needDate || needInterval || needFloat) then ((f s).1.map some, (f s).2)
  else if inParallelMode then (.ok none, s)
  else
    let level := G.level (G.enter s)
    let (result, s) := f (pin G (G.enter s) needDate needInterval needFloat)
    (result.map some, G.leave level s)

/-- The code saves what it sets, and keeps to its level: it may leave levels open that it has
opened itself. -/
def Contained (f : Code S α) : Prop := ∀ s, Within G (G.level s) s (f s).2

variable {G} {f : Code S α} {inParallelMode : Bool}

/-! ## The settings under which the function is run -/

theorem guc_enter (laws : G.Laws) (s : S) : guc G (G.enter s) = guc G s := by
  simp only [guc, laws.value_enter]

theorem guc_dateStyle (laws : G.Laws) (s : S) {c : Bool}
    (h : c = false → (guc G s).dateStyle = .iso) :
    guc G (if c then G.save s .dateStyle (.iso, (G.value s .dateStyle).2) else s) =
      { guc G s with dateStyle := .iso } := by
  cases c with
  | true => simp [guc, laws.value_save]
  | false =>
      rw [← h rfl]
      rfl

theorem guc_intervalStyle (laws : G.Laws) (s : S) {c : Bool}
    (h : c = false → (guc G s).intervalStyle = .postgres) :
    guc G (if c then G.save s .intervalStyle .postgres else s) =
      { guc G s with intervalStyle := .postgres } := by
  cases c with
  | true => simp [guc, laws.value_save]
  | false =>
      rw [← h rfl]
      rfl

theorem guc_extraFloatDigits (laws : G.Laws) (s : S) (c : Bool) :
    guc G (if c then G.save s .extraFloatDigits (1 : Int) else s) =
      { guc G s with extraFloatDigits := if c then 1 else (guc G s).extraFloatDigits } := by
  cases c with
  | true => simp [guc, laws.value_save]
  | false => rfl

/-- The function runs under the pinned settings. -/
theorem guc_pin (laws : G.Laws) (s : S) :
    guc G (pin G s ((guc G s).dateStyle != .iso) ((guc G s).intervalStyle != .postgres)
      (decide ((guc G s).extraFloatDigits < 1))) = (guc G s).pin := by
  unfold pin
  rw [guc_extraFloatDigits laws, guc_intervalStyle laws, guc_dateStyle laws]
  · simp [Guc.pin]
  · simp
  · rw [guc_dateStyle laws s (by simp)]
    simp

/-! ## What becomes of the settings -/

theorem within_ite {n : Nat} {s t t' : S} {c : Bool} (h : Within G n s t) (h' : Step G n t t') :
    Within G n s (if c then t' else t) := by
  cases c with
  | true => exact h.tail h'
  | false => exact h

theorem within_pin (s : S) (needDate needInterval needFloat : Bool) (n : Nat) :
    Within G n s (pin G s needDate needInterval needFloat) := by
  have hdate := within_ite (c := needDate) (.refl : Within G n s s)
    (.save .dateStyle (.iso, (G.value s .dateStyle).2))
  have hinterval := within_ite (c := needInterval) hdate (.save .intervalStyle .postgres)
  exact within_ite hinterval (.save (X := GucVar.Value) .extraFloatDigits (1 : Int))

theorem level_ite_save (laws : G.Laws) (s : S) (c : Bool) (v : GucVar) (x : v.Value) :
    G.level (if c then G.save s v x else s) = G.level s := by
  cases c with
  | true => exact laws.level_save s v x
  | false => rfl

theorem level_pin (laws : G.Laws) (s : S) (needDate needInterval needFloat : Bool) :
    G.level (pin G s needDate needInterval needFloat) = G.level s := by
  unfold pin
  rw [level_ite_save laws, level_ite_save laws, level_ite_save laws]

/-- When the settings have to be pinned they are restored, however the function ends. -/
theorem withStableIo_restores (laws : G.Laws) (hf : Contained G f) {s : S}
    (h : (guc G s).needsPin = true) : (withStableIo G inParallelMode f s).2 = s := by
  have hrun (needDate needInterval needFloat : Bool) : Within G (G.level s + 1) (G.enter s)
      (f (pin G (G.enter s) needDate needInterval needFloat)).2 := by
    have hinside := hf (pin G (G.enter s) needDate needInterval needFloat)
    rw [level_pin laws, laws.level_enter] at hinside
    exact (within_pin (G.enter s) _ _ _ _).trans hinside
  have hneeds : ¬(!(guc G s).needsPin) = true := by simp [h]
  unfold withStableIo
  rw [if_neg (by exact hneeds)]
  split
  · rfl
  · have hleave := (hrun ((guc G s).dateStyle != .iso) ((guc G s).intervalStyle != .postgres)
      (decide ((guc G s).extraFloatDigits < 1))).leave_eq laws
    rw [← laws.level_enter] at hleave
    exact hleave

theorem withStableIo_of_stable {s : S} (h : (guc G s).needsPin = false) :
    withStableIo G inParallelMode f s = ((f s).1.map some, (f s).2) := by
  have hneeds : (!(guc G s).needsPin) = true := by simp [h]
  unfold withStableIo
  rw [if_pos (by exact hneeds)]

/-- A function may use `with_stable_io` in turn. -/
theorem withStableIo_contained (laws : G.Laws) (hf : Contained G f) :
    Contained G (withStableIo G inParallelMode f) := by
  intro s
  cases h : (guc G s).needsPin with
  | true =>
      rw [withStableIo_restores laws hf h]
      exact .refl
  | false =>
      rw [withStableIo_of_stable h]
      exact hf s

/-- What is returned is what `StableIo.lean` says, for a function that reads the settings. -/
theorem withStableIo_result (laws : G.Laws) {F : Guc → PgResult α}
    (hF : ∀ s, (f s).1 = F (guc G s)) (s : S) (quoteAll : Bool) :
    (withStableIo G inParallelMode f s).1 =
      ((TableRange.withStableIo ⟨guc G s, inParallelMode, quoteAll⟩ F).map
        (Except.map some)).getD (.ok none) := by
  cases h : (guc G s).needsPin with
  | false =>
      rw [withStableIo_of_stable h, TableRange.withStableIo, if_pos (by simp [h]), hF]
      rfl
  | true =>
      have hneeds : ¬(!(guc G s).needsPin) = true := by simp [h]
      unfold withStableIo
      rw [if_neg (by exact hneeds), TableRange.withStableIo, if_neg hneeds]
      cases inParallelMode with
      | true => rfl
      | false =>
          have hguc := guc_pin laws (G.enter s)
          rw [guc_enter laws] at hguc
          show (f _).1.map some = _
          rw [hF, hguc]
          rfl

/-- The session has its settings back after all code that saves what it sets exactly when they
had to be pinned: only then a level is left, and with it the levels that an error has left
open. -/
theorem withStableIo_restores_iff (laws : G.Laws) (inParallelMode : Bool) (s : S) :
    (∀ f : Code S Unit, Contained G f → (withStableIo G inParallelMode f s).2 = s) ↔
      (guc G s).needsPin = true := by
  constructor
  · intro hall
    by_contra h
    have hopen := hall (fun t => (.error "", G.enter t)) fun t => .single .enter
    rw [withStableIo_of_stable (eq_false_of_ne_true h)] at hopen
    have hlevel : G.level (G.enter s) = G.level s := congrArg G.level hopen
    rw [laws.level_enter] at hlevel
    omega
  · intro h f hf
    exact withStableIo_restores laws hf h

section Mini

/-- A session outside every level, with dates in the German style. -/
def germanSettings : Settings GucVar.Value where
  value
    | .dateStyle => (.german, .dmy)
    | .intervalStyle => .postgres
    | .extraFloatDigits => (1 : Int)
    | .lcMonetary => "de_DE.UTF-8"
  saved _ := []
  level := 0
  nested _ := trivial

/-- A function with a `SET` clause that calls another one, which raises an error. -/
def raising : Code (Settings GucVar.Value) Unit := fun s =>
  (.error "division by zero", (s.enter.save .extraFloatDigits (0 : Int)).enter)

theorem withStableIo_restores_iff_german :
    (guc Settings.scopes germanSettings).needsPin = true ∧
      (withStableIo Settings.scopes false raising germanSettings).2 = germanSettings := by
  have hpin : (guc Settings.scopes germanSettings).needsPin = true := by decide
  have hraising : Contained Settings.scopes raising := fun s =>
    ((Relation.ReflTransGen.single Step.enter).tail
      (.save (X := GucVar.Value) .extraFloatDigits (0 : Int))).tail .enter
  exact ⟨hpin, (withStableIo_restores_iff Settings.laws false germanSettings).mpr hpin raising
    hraising⟩

end Mini

end TableRange.Scoped
