import Mathlib.Data.List.Infix
import Mathlib.Tactic.Common

/-!
# Atomic objects

An `Object` says what each operation does when it runs alone.  `Run` is the machine
in which any number of parties call operations of one object and every operation
takes effect at a single moment between its call and its return; an operation that
is aborted has no effect.

A concurrent implementation is linearizable when each of its histories of calls and
returns is the history of a `Run`.  Three facts say what that gives.  The effects,
taken in order, are a sequential execution (`Run.sequential`).  The effects of one
party are what has been returned to it, and at most one more (`Run.effects_of`).  The
effects of an earlier moment are a prefix of those of a later one (`Run.past`), so
the order of the effects never contradicts the order of the calls and returns.
-/

namespace Lib.Atomic

variable {ι A O R : Type}

/-- The state, an operation, its result and the state after it. -/
abbrev Object (A O R : Type) := A → O → R → A → Prop

/-- What a party is doing. -/
inductive Party (O R : Type)
  | idle
  | pending (o : O)
  /-- The operation has taken effect and not returned. -/
  | done (o : O) (r : R)

/-- What the outside sees of a party. -/
inductive Action (O R : Type)
  | call (o : O)
  | ret (o : O) (r : R)
  | abort (o : O)

/-- A step of one party: what the outside sees of it, and what it does to the object. -/
inductive PartyStep (obj : Object A O R) (a : A) :
    Party O R → List (Action O R) → List (O × R) → A → Party O R → Prop
  | call (o : O) : PartyStep obj a .idle [.call o] [] a (.pending o)
  | effect {o : O} {r : R} {a' : A} (h : obj a o r a') :
      PartyStep obj a (.pending o) [] [(o, r)] a' (.done o r)
  | ret (o : O) (r : R) : PartyStep obj a (.done o r) [.ret o r] [] a .idle
  | abort (o : O) : PartyStep obj a (.pending o) [.abort o] [] a .idle

structure State (ι A O R : Type) where
  obj : A
  party : ι → Party O R

/-- The history of calls and returns, the effects, both with the latest first, and
the state they lead to. -/
inductive Run (obj : Object A O R) (init : State ι A O R) :
    List (ι × Action O R) → List (ι × O × R) → State ι A O R → Prop
  | nil : Run obj init [] [] init
  | cons {es : List (ι × Action O R)} {ops : List (ι × O × R)} {s s' : State ι A O R} (i : ι)
      {acts : List (Action O R)} {effs : List (O × R)} (h : Run obj init es ops s)
      (hstep : PartyStep obj s.obj (s.party i) acts effs s'.obj (s'.party i))
      (hframe : ∀ j, j ≠ i → s'.party j = s.party j) :
      Run obj init (acts.map (i, ·) ++ es) (effs.map (i, ·) ++ ops) s'

/-- Operations one after the other, the latest first. -/
inductive Sequential (obj : Object A O R) (init : A) : List (ι × O × R) → A → Prop
  | nil : Sequential obj init [] init
  | cons {ops : List (ι × O × R)} {i : ι} {o : O} {r : R} {a a' : A}
      (h : Sequential obj init ops a) (hstep : obj a o r a') :
      Sequential obj init ((i, o, r) :: ops) a'

variable {obj : Object A O R}

/-- A step has at most one effect, and no other changes the object. -/
theorem PartyStep.effs {a a' : A} {p p' : Party O R} {acts : List (Action O R)}
    {effs : List (O × R)} (h : PartyStep obj a p acts effs a' p') :
    (effs = [] ∧ a' = a) ∨ ∃ o r, effs = [(o, r)] ∧ obj a o r a' := by
  cases h with
  | call o => exact Or.inl ⟨rfl, rfl⟩
  | effect hobj => exact Or.inr ⟨_, _, rfl, hobj⟩
  | ret o r => exact Or.inl ⟨rfl, rfl⟩
  | abort o => exact Or.inl ⟨rfl, rfl⟩

theorem PartyStep.acts_length {a a' : A} {p p' : Party O R} {acts : List (Action O R)}
    {effs : List (O × R)} (h : PartyStep obj a p acts effs a' p') : acts.length ≤ 1 := by
  cases h <;> simp

/-! ## Several steps of one party -/

/-- Steps of one party, the latest last. -/
inductive Moves (obj : Object A O R) (a : A) (p : Party O R) :
    List (Action O R) → List (O × R) → A → Party O R → Prop
  | refl : Moves obj a p [] [] a p
  | tail {a' a'' : A} {p' p'' : Party O R} {acts acts' : List (Action O R)}
      {effs effs' : List (O × R)} (h : Moves obj a p acts effs a' p')
      (hstep : PartyStep obj a' p' acts' effs' a'' p'') :
      Moves obj a p (acts' ++ acts) (effs' ++ effs) a'' p''

theorem Moves.single {a a' : A} {p p' : Party O R} {acts : List (Action O R)}
    {effs : List (O × R)} (h : PartyStep obj a p acts effs a' p') :
    Moves obj a p acts effs a' p' := by
  simpa using Moves.tail .refl h

/-- The parties that do not move stay where they are. -/
theorem Run.moves [DecidableEq ι] {init s s' : State ι A O R} {es : List (ι × Action O R)}
    {ops : List (ι × O × R)} (h : Run obj init es ops s) {i : ι} {acts : List (Action O R)}
    {effs : List (O × R)} (hmoves : Moves obj s.obj (s.party i) acts effs s'.obj (s'.party i))
    (hframe : ∀ j, j ≠ i → s'.party j = s.party j) :
    Run obj init (acts.map (i, ·) ++ es) (effs.map (i, ·) ++ ops) s' := by
  -- the state while the party is on its way
  have hgoes : ∀ {a p acts effs}, Moves obj s.obj (s.party i) acts effs a p →
      Run obj init (acts.map (i, ·) ++ es) (effs.map (i, ·) ++ ops)
        ⟨a, Function.update s.party i p⟩ := by
    intro a p acts effs hmoves
    induction hmoves with
    | refl => simpa using h
    | @tail _ a _ p _ _ _ _ _ hstep ih =>
        have hnext : Run obj init _ _ ⟨a, Function.update s.party i p⟩ :=
          ih.cons i (by simpa using hstep) fun j hj => by simp [hj]
        simpa [List.append_assoc] using hnext
  have hs' : s' = ⟨s'.obj, Function.update s.party i (s'.party i)⟩ := by
    cases s' with
    | mk a party =>
        congr 1
        funext j
        by_cases hj : j = i
        · rw [hj, Function.update_self]
        · rw [Function.update_of_ne hj]
          exact hframe j hj
  rw [hs']
  exact hgoes hmoves

/-! ## What a history says -/

/-- The effects are a sequential execution. -/
theorem Run.sequential {init s : State ι A O R} {es : List (ι × Action O R)}
    {ops : List (ι × O × R)} (h : Run obj init es ops s) :
    Sequential obj init.obj ops s.obj := by
  induction h with
  | nil => exact .nil
  | cons i _ hstep _ ih =>
      rcases hstep.effs with ⟨rfl, hsame⟩ | ⟨o, r, rfl, hobj⟩
      · exact hsame ▸ ih
      · exact ih.cons hobj

/-- At an earlier moment there were fewer effects, and those in the same order. -/
theorem Run.past {init s : State ι A O R} {es past : List (ι × Action O R)}
    {ops : List (ι × O × R)} (h : Run obj init es ops s) (hpast : past <:+ es) :
    ∃ ops' s', ops' <:+ ops ∧ Run obj init past ops' s' := by
  induction h with
  | nil =>
      rw [List.suffix_nil] at hpast
      exact ⟨[], init, List.suffix_refl _, hpast ▸ .nil⟩
  | cons i h hstep hframe ih =>
      rename_i es ops s s' acts effs
      by_cases hnow : past = acts.map (i, ·) ++ es
      · exact ⟨_, _, List.suffix_refl _, hnow ▸ h.cons i hstep hframe⟩
      · have hpast : past <:+ es := by
          match acts, hstep.acts_length, hpast, hnow with
          | [], _, hpast, _ => simpa using hpast
          | [act], _, hpast, hnow => exact (List.suffix_cons_iff.mp hpast).resolve_left hnow
        obtain ⟨ops', s'', hops, hrun⟩ := ih hpast
        exact ⟨ops', s'', hops.trans (List.suffix_append _ _), hrun⟩

/-- The result that an action returns. -/
def Action.returned : Action O R → List (O × R)
  | .call _ | .abort _ => []
  | .ret o r => [(o, r)]

/-- The effect that has not returned. -/
def Party.unreturned : Party O R → List (O × R)
  | .idle | .pending _ => []
  | .done o r => [(o, r)]

/-- What has been returned to a party, the latest first. -/
def returnsOf [DecidableEq ι] (i : ι) (es : List (ι × Action O R)) : List (O × R) :=
  (es.filter fun e => e.1 = i).flatMap fun e => e.2.returned

/-- The effects of a party, the latest first. -/
def effectsOf [DecidableEq ι] (i : ι) (ops : List (ι × O × R)) : List (O × R) :=
  (ops.filter fun op => op.1 = i).map Prod.snd

/-- An effect that a step adds has not returned, and what it returns had its effect. -/
theorem PartyStep.unreturned {a a' : A} {p p' : Party O R} {acts : List (Action O R)}
    {effs : List (O × R)} (h : PartyStep obj a p acts effs a' p') :
    effs ++ p.unreturned = p'.unreturned ++ acts.flatMap Action.returned := by
  cases h <;> rfl

/-- Each party has had the effects that were returned to it, and no others but one
that has not returned yet. -/
theorem Run.effects_of [DecidableEq ι] {init s : State ι A O R} {es : List (ι × Action O R)}
    {ops : List (ι × O × R)} (h : Run obj init es ops s) (hinit : ∀ i, init.party i = .idle)
    (i : ι) : effectsOf i ops = (s.party i).unreturned ++ returnsOf i es := by
  induction h with
  | nil => simp [effectsOf, hinit, Party.unreturned, returnsOf]
  | cons j h hstep hframe ih =>
      rename_i es ops s s' acts effs
      have heffs : effectsOf i (effs.map (j, ·) ++ ops) =
          (if j = i then effs else []) ++ effectsOf i ops := by
        by_cases hj : j = i <;>
          simp [effectsOf, List.filter_append, List.filter_map, Function.comp_def, hj]
      have hacts : returnsOf i (acts.map (j, ·) ++ es) =
          (if j = i then acts.flatMap Action.returned else []) ++ returnsOf i es := by
        by_cases hj : j = i <;>
          simp [returnsOf, List.filter_append, List.filter_map, List.flatMap_map,
            Function.comp_def, hj]
      rw [heffs, hacts, ih]
      by_cases hj : j = i
      · subst hj
        rw [if_pos rfl, if_pos rfl, ← List.append_assoc, hstep.unreturned, List.append_assoc]
      · rw [if_neg hj, if_neg hj, hframe i (Ne.symm hj), List.nil_append, List.nil_append]

/-- The operation that a party is working on. -/
def Party.op : Party O R → Option O
  | .idle => none
  | .pending o | .done o _ => some o

/-- A party works on what it has called, and only that takes effect. -/
theorem PartyStep.op {a a' : A} {p p' : Party O R} {acts : List (Action O R)}
    {effs : List (O × R)} (h : PartyStep obj a p acts effs a' p') :
    (∀ o, p'.op = some o → .call o ∈ acts ∨ p.op = some o) ∧
      ∀ o r, (o, r) ∈ effs → p.op = some o := by
  cases h <;> simp [Party.op]

/-- Only what has been called takes effect. -/
theorem Run.called {init s : State ι A O R} {es : List (ι × Action O R)}
    {ops : List (ι × O × R)} (h : Run obj init es ops s) (hinit : ∀ i, init.party i = .idle) :
    (∀ i o, (s.party i).op = some o → (i, .call o) ∈ es) ∧
      ∀ i o r, (i, o, r) ∈ ops → (i, .call o) ∈ es := by
  induction h with
  | nil => exact ⟨fun i o ho => by simp [hinit, Party.op] at ho, by simp⟩
  | cons j h hstep hframe ih =>
      rename_i es ops s s' acts effs
      refine ⟨fun i o ho => ?_, fun i o r hop => ?_⟩
      · by_cases hi : i = j
        · subst hi
          rcases hstep.op.1 o ho with hcall | hop
          · exact List.mem_append_left _ (List.mem_map_of_mem hcall)
          · exact List.mem_append_right _ (ih.1 _ _ hop)
        · rw [hframe i hi] at ho
          exact List.mem_append_right _ (ih.1 _ _ ho)
      · rcases List.mem_append.mp hop with hop | hop
        · obtain ⟨⟨o', r'⟩, hmem, heq⟩ := List.mem_map.mp hop
          cases heq
          exact List.mem_append_right _ (ih.1 _ _ (hstep.op.2 _ _ hmem))
        · exact List.mem_append_right _ (ih.2 _ _ _ hop)

end Lib.Atomic
