import Mathlib.Data.List.Basic
import Mathlib.Logic.Function.Basic

/-!
# Programs that call procedures

A `Prog` calls procedures and goes on with what they return; a call that fails ends
it.  `eval` answers the calls from a function, so that equal calls have equal
answers.  `run` answers them from a server that may change its state with every call,
failed ones included.

`run_of_transparent` compares the two: as long as the server's answers to the calls
that `eval` makes are those of the function, up to the text of an error, both do the
same.  `run_of_cautious` is about a server that may also fail where the function does
not: whatever `run` returns, `eval` returns too.
-/

namespace Lib.Calls

variable {C : Type} {R : C → Type} {ε α β S : Type}

inductive Prog (C : Type) (R : C → Type) (α : Type) : Type
  | pure (a : α)
  | call (c : C) (k : R c → Prog C R α)

namespace Prog

def bind (f : α → Prog C R β) : Prog C R α → Prog C R β
  | .pure a => f a
  | .call c k => .call c fun r => (k r).bind f

instance : Monad (Prog C R) where
  pure := .pure
  bind p f := p.bind f

/-- One call. -/
def ask (c : C) : Prog C R (R c) := .call c .pure

/-! ## Answers from a function -/

section Eval

variable (answer : (c : C) → Except ε (R c))

def eval : Prog C R α → Except ε α
  | .pure a => .ok a
  | .call c k => answer c >>= fun r => (k r).eval

/-- The calls that `eval` makes, in order. -/
def calls : Prog C R α → List C
  | .pure _ => []
  | .call c k =>
      c :: match answer c with
        | .ok r => (k r).calls
        | .error _ => []

@[simp] theorem eval_pure (a : α) : (Pure.pure a : Prog C R α).eval answer = .ok a := rfl

@[simp] theorem eval_ask (c : C) : (ask c : Prog C R (R c)).eval answer = answer c := by
  simp only [ask, eval]
  cases answer c <;> rfl

@[simp] theorem eval_bind (p : Prog C R α) (f : α → Prog C R β) :
    (p >>= f).eval answer = p.eval answer >>= fun a => (f a).eval answer := by
  induction p with
  | pure a => rfl
  | call c k ih =>
      change (answer c >>= fun r => (k r >>= f).eval answer) =
        (answer c >>= fun r => (k r).eval answer) >>= fun a => (f a).eval answer
      cases answer c with
      | error e => rfl
      | ok r => exact ih r

/-- A search calls what its tests call. -/
theorem eval_anyM (f : β → Prog C R Bool) (xs : List β) :
    (xs.anyM f).eval answer = xs.anyM fun x => (f x).eval answer := by
  induction xs with
  | nil => rfl
  | cons x xs ih =>
      rw [List.anyM, List.anyM, eval_bind]
      congr 1
      funext b
      cases b with
      | true => rfl
      | false => exact ih

end Eval

/-! ## Answers from a server -/

variable (serve : S → (c : C) → Except ε (R c) × S)

def run : Prog C R α → S → Except ε α × S
  | .pure a, s => (.ok a, s)
  | .call c k, s =>
      match serve s c with
      | (.ok r, s) => (k r).run s
      | (.error e, s) => (.error e, s)

/-- The server's state after some calls. -/
def after (s : S) (cs : List C) : S := cs.foldl (fun s c => (serve s c).2) s

@[simp] theorem after_append (s : S) (cs ds : List C) :
    after serve s (cs ++ ds) = after serve (after serve s cs) ds := List.foldl_append ..

/-- The same result, or an error on both sides. -/
def SameOutcome (x y : Except ε α) : Prop := x.toOption = y.toOption

omit serve in
theorem SameOutcome.cases {x y : Except ε α} (h : SameOutcome x y) :
    (∃ a, x = .ok a ∧ y = .ok a) ∨ ∃ e e', x = .error e ∧ y = .error e' := by
  cases x with
  | error e =>
      cases y with
      | error e' => exact Or.inr ⟨e, e', rfl, rfl⟩
      | ok b => cases h
  | ok a =>
      cases y with
      | error e' => cases h
      | ok b =>
          obtain rfl : a = b := Option.some.inj h
          exact Or.inl ⟨a, rfl, rfl⟩

/-- The server answers the calls as the function does. -/
def Transparent (answer : (c : C) → Except ε (R c)) : S → List C → Prop
  | _, [] => True
  | s, c :: cs => SameOutcome (serve s c).1 (answer c) ∧ Transparent answer (serve s c).2 cs

variable {serve} {answer : (c : C) → Except ε (R c)}

theorem transparent_append {s : S} {cs ds : List C} :
    Transparent serve answer s (cs ++ ds) ↔
      Transparent serve answer s cs ∧ Transparent serve answer (after serve s cs) ds := by
  induction cs generalizing s with
  | nil => simp [Transparent, after]
  | cons c cs ih =>
      rw [List.cons_append, Transparent, Transparent, ih, and_assoc]
      rfl

/-- Each call is answered in the state that the calls before it leave. -/
theorem transparent_iff {s : S} {cs : List C} :
    Transparent serve answer s cs ↔
      ∀ done c rest, cs = done ++ c :: rest →
        SameOutcome (serve (after serve s done) c).1 (answer c) := by
  constructor
  · rintro h done c rest rfl
    exact (transparent_append.mp h).2.1
  · intro h
    induction cs generalizing s with
    | nil => trivial
    | cons c cs ih =>
        refine ⟨h [] c cs rfl, ih fun done d rest hcs => ?_⟩
        exact h (c :: done) d rest (by rw [hcs, List.cons_append])

theorem run_of_transparent (p : Prog C R α) {s : S}
    (h : Transparent serve answer s (p.calls answer)) :
    SameOutcome (p.run serve s).1 (p.eval answer) ∧
      (p.run serve s).2 = after serve s (p.calls answer) := by
  induction p generalizing s with
  | pure a => exact ⟨rfl, rfl⟩
  | call c k ih =>
      simp only [calls, Transparent] at h
      obtain ⟨hc, hrest⟩ := h
      rcases hserve : serve s c with ⟨x, s'⟩
      rw [hserve] at hc hrest
      have hafter (cs : List C) : after serve s (c :: cs) = after serve s' cs := by
        rw [after, List.foldl_cons, hserve]
        rfl
      rcases hc.cases with ⟨r, rfl, hanswer⟩ | ⟨e, e', rfl, hanswer⟩
      · simp only [hanswer] at hrest
        obtain ⟨hrun, hstate⟩ := ih r hrest
        simp only [run, eval, calls, hserve, hanswer]
        exact ⟨hrun, hstate.trans (hafter _).symm⟩
      · simp only [run, eval, calls, hserve, hanswer]
        exact ⟨rfl, (hafter []).symm⟩

/-! ## Servers that may fail -/

variable (serve) (answer) in
/-- In a good state the server answers as the function does or fails, and either way
ends up in a good state. -/
structure Cautious (good : S → Prop) : Prop where
  agrees : ∀ s c r, good s → (serve s c).1 = .ok r → answer c = .ok r
  stays : ∀ s c, good s → good (serve s c).2

theorem run_of_cautious {good : S → Prop} (h : Cautious serve answer good) (p : Prog C R α)
    {s : S} (hs : good s) :
    good (p.run serve s).2 ∧ ∀ a, (p.run serve s).1 = .ok a → p.eval answer = .ok a := by
  induction p generalizing s with
  | pure a => exact ⟨hs, fun b hb => hb⟩
  | call c k ih =>
      have hagrees := h.agrees s c
      have hstays := h.stays s c hs
      rcases hserve : serve s c with ⟨x, s'⟩
      rw [hserve] at hagrees hstays
      cases x with
      | error e => exact ⟨by simpa only [run, hserve] using hstays, by simp [run, hserve]⟩
      | ok r =>
          have hanswer : answer c = .ok r := hagrees r hs rfl
          simp only [run, hserve, eval, hanswer]
          exact ih r hstays

end Prog

end Lib.Calls
