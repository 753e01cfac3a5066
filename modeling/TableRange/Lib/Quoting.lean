import Mathlib.Data.List.Basic
import Mathlib.Tactic.Common

/-!
# Quoted tokens

A text in which some characters quote: between two of the same kind every character
stands for itself, and the quote itself is written twice.  Some quotes may have an escape,
which takes the character after it into the body whatever it is.  `lex` splits such a text
into characters and quoted tokens, one character at a time.

`lex_quote` says that a token that `quote` writes is read back whatever its body is, as long
as it has no escape in it, so no body can end its token early.  `Lexes` is what a text amounts
to wherever it stands, and the lemmas on it put the tokens of a text together from those of its
parts.
-/

namespace Lib.Quoting

variable {χ : Type} [DecidableEq χ]

inductive Token (χ : Type)
  | char (c : χ)
  | quoted (q : χ) (body : List χ)
deriving DecidableEq, Repr

/-- The body of a token in the quotes `q`. -/
def Token.body? (q : χ) : Token χ → Option (List χ)
  | .char _ => none
  | .quoted q' body => if q' = q then some body else none

/-- Where the lexer is. -/
inductive Mode (χ : Type)
  | plain
  | inside (q : χ) (body : List χ)
  /-- After an escape. -/
  | escaped (q : χ) (body : List χ)
  /-- After a quote that ends the token, unless another one follows. -/
  | closing (q : χ) (body : List χ)

/-- The tokens of the rest of the text, if every quote is closed. -/
def lex (escape : χ → Option χ) (quotes : List χ) : Mode χ → List χ → Option (List (Token χ))
  | .plain, [] => some []
  | .plain, c :: cs =>
      if c ∈ quotes then lex escape quotes (.inside c []) cs
      else (lex escape quotes .plain cs).map (.char c :: ·)
  | .inside _ _, [] => none
  | .inside q body, c :: cs =>
      if c = q then lex escape quotes (.closing q body) cs
      else if escape q = some c then lex escape quotes (.escaped q body) cs
      else lex escape quotes (.inside q (body ++ [c])) cs
  | .escaped _ _, [] => none
  | .escaped q body, c :: cs => lex escape quotes (.inside q (body ++ [c])) cs
  | .closing q body, [] => some [.quoted q body]
  | .closing q body, c :: cs =>
      if c = q then lex escape quotes (.inside q (body ++ [q])) cs
      else (if c ∈ quotes then lex escape quotes (.inside c []) cs
        else (lex escape quotes .plain cs).map (.char c :: ·)).map (.quoted q body :: ·)

/-- The body between quotes, with each quote in it written twice. -/
def quote (q : χ) (body : List χ) : List χ :=
  q :: body.flatMap (fun c => if c = q then [q, q] else [c]) ++ [q]

variable {escape : χ → Option χ} {quotes : List χ} {q : χ}

/-- The body has no escape in it. -/
def Unescaped (escape : χ → Option χ) (q : χ) (body : List χ) : Prop := ∀ c ∈ escape q, c ∉ body

/-- The tokens of characters that do not quote. -/
def chars (cs : List χ) : List (Token χ) := cs.map .char

/-- Characters are no quoted tokens. -/
theorem filterMap_body_chars (q : χ) (cs : List χ) :
    (chars cs).filterMap (Token.body? q) = [] := by
  simp [chars, Token.body?]

theorem lex_chars {cs : List χ} (h : ∀ c ∈ cs, c ∉ quotes) (rest : List χ) :
    lex escape quotes .plain (cs ++ rest) =
      (lex escape quotes .plain rest).map (chars cs ++ ·) := by
  induction cs with
  | nil => simp [chars]
  | cons c cs ih =>
      rw [List.cons_append, lex, if_neg (h c List.mem_cons_self),
        ih fun c' hc' => h c' (List.mem_cons_of_mem c hc'), Option.map_map]
      rfl

/-- A body never ends the token that it is in. -/
theorem lex_inside {body : List χ} (hbody : Unescaped escape q body) (acc rest : List χ) :
    lex escape quotes (.inside q acc)
        (body.flatMap (fun c => if c = q then [q, q] else [c]) ++ q :: rest) =
      lex escape quotes (.closing q (acc ++ body)) rest := by
  induction body generalizing acc with
  | nil => simp [lex]
  | cons c body ih =>
      have hrest : Unescaped escape q body := fun e he hmem =>
        hbody e he (List.mem_cons_of_mem c hmem)
      rw [List.flatMap_cons]
      by_cases hc : c = q
      · simp [hc, lex, ih hrest]
      · have hescape : escape q ≠ some c := fun he => hbody c he List.mem_cons_self
        simp [hc, hescape, lex, ih hrest]

/-- The token ends before anything but its own quote. -/
theorem lex_closing {body rest : List χ} (hrest : rest.head? ≠ some q) :
    lex escape quotes (.closing q body) rest =
      (lex escape quotes .plain rest).map (.quoted q body :: ·) := by
  cases rest with
  | nil => rfl
  | cons c rest =>
      have hc : c ≠ q := by simpa using hrest
      simp only [lex, if_neg hc]

/-- What is quoted is read back. -/
theorem lex_quote (hq : q ∈ quotes) {body rest : List χ} (hbody : Unescaped escape q body)
    (hrest : rest.head? ≠ some q) :
    lex escape quotes .plain (quote q body ++ rest) =
      (lex escape quotes .plain rest).map (.quoted q body :: ·) := by
  rw [quote, List.cons_append, List.cons_append, lex, if_pos hq, List.append_assoc,
    List.singleton_append, lex_inside hbody, List.nil_append, lex_closing hrest]

variable (escape quotes) in
/-- The text amounts to the tokens wherever no quote follows it. -/
def Lexes (cs : List χ) (ts : List (Token χ)) : Prop :=
  ∀ rest : List χ, (∀ q ∈ quotes, rest.head? ≠ some q) →
    lex escape quotes .plain (cs ++ rest) = (lex escape quotes .plain rest).map (ts ++ ·)

theorem Lexes.chars (cs : List χ) (h : ∀ c ∈ cs, c ∉ quotes) :
    Lexes escape quotes cs (chars cs) :=
  fun rest _ => lex_chars h rest

theorem Lexes.quote (hq : q ∈ quotes) {body : List χ} (hbody : Unescaped escape q body) :
    Lexes escape quotes (quote q body) [.quoted q body] :=
  fun _ hrest => lex_quote hq hbody (hrest q hq)

theorem Lexes.append {cs cs' : List χ} {ts ts' : List (Token χ)} (h : Lexes escape quotes cs ts)
    (h' : Lexes escape quotes cs' ts') (hhead : ∀ q ∈ quotes, cs'.head? ≠ some q) :
    Lexes escape quotes (cs ++ cs') (ts ++ ts') := by
  intro rest hrest
  have hnext : ∀ q ∈ quotes, (cs' ++ rest).head? ≠ some q := by
    intro q hq
    cases cs' with
    | nil => exact hrest q hq
    | cons c cs' => exact hhead q hq
  rw [List.append_assoc, h _ hnext, h' rest hrest, Option.map_map]
  simp [Function.comp_def]

/-- Plain characters may come before a quote. -/
theorem Lexes.chars_append (cs : List χ) {cs' : List χ} {ts' : List (Token χ)}
    (h : ∀ c ∈ cs, c ∉ quotes) (h' : Lexes escape quotes cs' ts') :
    Lexes escape quotes (cs ++ cs') (Quoting.chars cs ++ ts') := by
  intro rest hrest
  rw [List.append_assoc, lex_chars h, h' rest hrest, Option.map_map]
  simp [Function.comp_def]

theorem Lexes.append_chars {cs : List χ} {ts : List (Token χ)} (h : Lexes escape quotes cs ts)
    (cs' : List χ) (h' : ∀ c ∈ cs', c ∉ quotes) :
    Lexes escape quotes (cs ++ cs') (ts ++ Quoting.chars cs') :=
  h.append (.chars cs' h') fun q hq hhead => h' q (List.mem_of_mem_head? hhead) hq

/-- Two texts with plain characters between them. -/
theorem Lexes.separated {cs cs' : List χ} {ts ts' : List (Token χ)} (h : Lexes escape quotes cs ts)
    (mid : List χ) (hmid : ∀ c ∈ mid, c ∉ quotes) (hne : mid ≠ [])
    (h' : Lexes escape quotes cs' ts') :
    Lexes escape quotes (cs ++ (mid ++ cs')) (ts ++ (Quoting.chars mid ++ ts')) := by
  refine h.append (h'.chars_append mid hmid) fun q hq hhead => ?_
  rw [List.head?_append_of_ne_nil _ hne] at hhead
  exact hmid q (List.mem_of_mem_head? hhead) hq

/-- A list of texts with plain characters between each two. -/
theorem Lexes.intercalate {α : Type} (sep : List χ) (hsep : ∀ c ∈ sep, c ∉ quotes)
    (hne : sep ≠ []) {text : α → List χ} {tokens : α → List (Token χ)} {xs : List α}
    (h : ∀ x ∈ xs, Lexes escape quotes (text x) (tokens x)) :
    Lexes escape quotes (sep.intercalate (xs.map text))
      ((Quoting.chars sep).intercalate (xs.map tokens)) := by
  induction xs with
  | nil => exact .chars [] (by simp)
  | cons x xs ih =>
      cases xs with
      | nil => simpa [List.intercalate] using h x List.mem_cons_self
      | cons y ys =>
          have hrest := ih fun z hz => h z (List.mem_cons_of_mem x hz)
          simpa [List.intercalate] using (h x List.mem_cons_self).separated sep hsep hne hrest

theorem Lexes.lex_eq {cs : List χ} {ts : List (Token χ)} (h : Lexes escape quotes cs ts) :
    lex escape quotes .plain cs = some ts := by
  have hnil := h [] (by simp)
  rwa [List.append_nil, lex, Option.map_some, List.append_nil] at hnil

end Lib.Quoting
