import Mathlib.Data.List.Forall2
import Mathlib.Data.List.Infix

/-!
# Self-delimiting encodings

A reader over some state `S` is a `StateT S Option`: it consumes a part of the
unread input, which `rest` shows as a list, or fails.  `Codes rest p bytes x`
says that `bytes` is a self-delimiting encoding of `x` for the reader `p`:

* `reads`: whatever follows `bytes` in the input, `p` returns `x` and leaves
  exactly what follows;
* `starves`: on an input that stops inside `bytes`, `p` fails.

The rules below build such facts for sequences of fields (`Codes.bind`), for a
field that is transformed (`Codes.map`) and for a counted repetition
(`Codes.times`).  Nothing here fixes the bytes or the state.

A liberal reader has several encodings of a value.  `Parses rest p enc` says that `enc` lists
them all.
-/

namespace Lib.Codec

variable {S β α γ : Type}

/-- `bytes` is a self-delimiting encoding of `x` for the reader `p`. -/
structure Codes (rest : S → List β) (p : StateT S Option α) (bytes : List β) (x : α) : Prop where
  reads : ∀ s tail, rest s = bytes ++ tail → ∃ s', p s = some (x, s') ∧ rest s' = tail
  starves : ∀ s, rest s <+: bytes → rest s ≠ bytes → p s = none

/-- A strict prefix of `xs ++ ys` stops inside `xs`, or holds `xs` and stops
inside `ys`. -/
private theorem strictPrefix_append {l xs ys : List β} (h : l <+: xs ++ ys) (hne : l ≠ xs ++ ys) :
    (l <+: xs ∧ l ≠ xs) ∨ ∃ t, l = xs ++ t ∧ t <+: ys ∧ t ≠ ys := by
  obtain ⟨t, ht⟩ := h
  rcases List.append_eq_append_iff.mp ht with ⟨u, hxs, hu⟩ | ⟨u, hl, hu⟩
  · by_cases hnil : u = []
    · subst hnil
      refine Or.inr ⟨[], by simpa using hxs.symm, List.nil_prefix, ?_⟩
      rintro rfl
      exact hne (by simpa using hxs.symm)
    · refine Or.inl ⟨⟨u, hxs.symm⟩, fun he => hnil ?_⟩
      simpa [he] using hxs
  · refine Or.inr ⟨u, hl, ⟨t, hu.symm⟩, fun hy => hne ?_⟩
    rw [hl, hy]

section

variable {rest : S → List β}

/-- A reader that consumes nothing. -/
theorem Codes.pure (x : α) : Codes rest (pure x : StateT S Option α) [] x where
  reads s tail h := ⟨s, rfl, by simpa using h⟩
  starves s h hne := absurd (List.prefix_nil.mp h) hne

/-- Two fields in a row. -/
theorem Codes.bind {p : StateT S Option α} {f : α → StateT S Option γ} {xs ys : List β}
    {x : α} {y : γ} (hp : Codes rest p xs x) (hf : Codes rest (f x) ys y) :
    Codes rest (p >>= f) (xs ++ ys) y where
  reads s tail h := by
    obtain ⟨s₁, h₁, hrest₁⟩ := hp.reads s (ys ++ tail) (by rw [h, List.append_assoc])
    obtain ⟨s₂, h₂, hrest₂⟩ := hf.reads s₁ tail hrest₁
    refine ⟨s₂, ?_, hrest₂⟩
    change (p s).bind (fun r => f r.1 r.2) = _
    rw [h₁]
    exact h₂
  starves s h hne := by
    change (p s).bind (fun r => f r.1 r.2) = none
    rcases strictPrefix_append h hne with ⟨hxs, hne'⟩ | ⟨t, hst, ht, htne⟩
    · rw [hp.starves s hxs hne']
      rfl
    · obtain ⟨s₁, h₁, hrest₁⟩ := hp.reads s t hst
      rw [h₁]
      exact hf.starves s₁ (hrest₁ ▸ ht) (hrest₁ ▸ htne)

/-- The last field of a record: what is read is only repackaged. -/
theorem Codes.map {p : StateT S Option α} {xs : List β} {x : α} (hp : Codes rest p xs x)
    (g : α → γ) : Codes rest (p >>= fun a => Pure.pure (g a)) xs (g x) := by
  have h : Codes rest (Pure.pure (g x) : StateT S Option γ) [] (g x) := Codes.pure (g x)
  simpa using hp.bind (f := fun a => Pure.pure (g a)) h

/-- Reads `n` items in a row. -/
def times : Nat → StateT S Option α → StateT S Option (List α)
  | 0, _ => Pure.pure []
  | n + 1, p => do
      let x ← p
      let xs ← times n p
      Pure.pure (x :: xs)

/-- Items that are encoded one after the other are read back in order. -/
theorem Codes.times {p : StateT S Option α} {enc : α → List β} {xs : List α}
    (h : ∀ x ∈ xs, Codes rest p (enc x) x) :
    Codes rest (times xs.length p) (xs.flatMap enc) xs := by
  induction xs with
  | nil => exact Codes.pure []
  | cons x xs ih =>
      have hx := h x List.mem_cons_self
      have hxs := ih fun y hy => h y (List.mem_cons_of_mem x hy)
      exact hx.bind (hxs.map (x :: ·))

/-! ## Everything that a reader accepts -/

/-- `enc` lists the encodings that `p` reads: each is self-delimiting, and whatever `p`
consumes is one of the result. -/
structure Parses (rest : S → List β) (p : StateT S Option α) (enc : α → List β → Prop) : Prop where
  codes : ∀ {x bytes}, enc x bytes → Codes rest p bytes x
  consumes : ∀ {s x s'}, p s = some (x, s') → ∃ bytes, rest s = bytes ++ rest s' ∧ enc x bytes

theorem Parses.pure (x : α) :
    Parses rest (pure x : StateT S Option α) fun y bytes => y = x ∧ bytes = [] where
  codes := by
    rintro _ _ ⟨rfl, rfl⟩
    exact Codes.pure _
  consumes := by
    rintro s _ _ ⟨⟩
    exact ⟨[], rfl, rfl, rfl⟩

theorem Parses.failure : Parses rest (failure : StateT S Option α) fun _ _ => False where
  codes h := h.elim
  consumes := by rintro _ _ _ ⟨⟩

theorem Parses.congr {p : StateT S Option α} {enc enc' : α → List β → Prop}
    (h : Parses rest p enc) (hiff : ∀ x bytes, enc x bytes ↔ enc' x bytes) :
    Parses rest p enc' where
  codes hx := h.codes ((hiff _ _).mpr hx)
  consumes hread := by
    obtain ⟨bytes, hrest, hx⟩ := h.consumes hread
    exact ⟨bytes, hrest, (hiff _ _).mp hx⟩

theorem Parses.bind {p : StateT S Option α} {f : α → StateT S Option γ}
    {enc : α → List β → Prop} {enc' : α → γ → List β → Prop} (hp : Parses rest p enc)
    (hf : ∀ x, Parses rest (f x) (enc' x)) :
    Parses rest (p >>= f) fun y bytes => ∃ x xs ys, enc x xs ∧ enc' x y ys ∧ bytes = xs ++ ys where
  codes := by
    rintro y _ ⟨x, xs, ys, hx, hy, rfl⟩
    exact (hp.codes hx).bind ((hf x).codes hy)
  consumes := by
    intro s y s' hread
    obtain ⟨⟨x, s₁⟩, hx, hy⟩ := Option.bind_eq_some_iff.mp hread
    obtain ⟨xs, hrest₁, henc⟩ := hp.consumes hx
    obtain ⟨ys, hrest₂, henc'⟩ := (hf x).consumes hy
    exact ⟨xs ++ ys, by rw [hrest₁, hrest₂, List.append_assoc], x, xs, ys, henc, henc', rfl⟩

theorem Parses.times {p : StateT S Option α} {enc : α → List β → Prop} (hp : Parses rest p enc)
    (n : ℕ) : Parses rest (Lib.Codec.times n p) fun xs bytes =>
      xs.length = n ∧ ∃ parts, List.Forall₂ enc xs parts ∧ bytes = parts.flatten := by
  induction n with
  | zero =>
      refine (Parses.pure []).congr fun xs bytes => ⟨?_, ?_⟩
      · rintro ⟨rfl, rfl⟩
        exact ⟨rfl, [], .nil, rfl⟩
      · rintro ⟨hlen, parts, hparts, rfl⟩
        obtain rfl := List.eq_nil_of_length_eq_zero hlen
        cases hparts
        exact ⟨rfl, rfl⟩
  | succ n ih =>
      refine (hp.bind fun x => ih.bind fun xs => Parses.pure (x :: xs)).congr fun xs bytes =>
        ⟨?_, ?_⟩
      · rintro ⟨x, c, _, hx, ⟨xs, _, _, ⟨rfl, parts, hparts, rfl⟩, ⟨rfl, rfl⟩, rfl⟩, rfl⟩
        exact ⟨rfl, c :: parts, .cons hx hparts, by simp⟩
      · rintro ⟨hlen, _, hparts, rfl⟩
        cases hparts with
        | nil => cases hlen
        | @cons x c xs parts hx hparts =>
            exact ⟨x, c, _, hx, ⟨xs, parts.flatten, [],
              ⟨Nat.succ.inj hlen, parts, hparts, rfl⟩, ⟨rfl, rfl⟩, (List.append_nil _).symm⟩, rfl⟩

end

end Lib.Codec
