import Mathlib.Order.Antisymmetrization
import TableRange.Coverage
import TableRange.MiniPg

/-!
# A stored bound in another session

A bound is written as text by one session and read by another one, each under its
own pinned settings.  `TextSettings` lists the settings that the text forms of
PostgreSQL's types read.  `withStableIo` pins them all except `lc_monetary`, so
the text of a `money` value can come back as another value.

`storedBound_iff` says that nothing else goes wrong: whether a bound keeps its
meaning depends on what the two values of `lc_monetary` do to its text, and on no
other setting of the two sessions.
-/

namespace TableRange

open Lib.Fallible

variable {D : Type} {pg : Pg D} {ord : pg.BtreeOrder}

variable (ord) in
/-- Equal in the order of a column's type, under every collation. -/
def EqualInOrder (typ : Oid) (v v' : D) : Prop :=
  ∀ collation, AntisymmRel (columnOrder ord typ collation).le v v'

namespace Pg

/-- The settings that text output and text input read. -/
structure TextSettings (pg : Pg D) (ord : pg.BtreeOrder) : Prop where
  /-- Dates read the style, and the field order unless the style is `ISO`,
  intervals the style, and floats the number of digits unless it is at least 1. -/
  output : ∀ {g g' : Guc} {typ : Oid} {d : D}, g.dateStyle = g'.dateStyle →
    g.dateStyle = .iso ∨ g.dateOrder = g'.dateOrder → g.intervalStyle = g'.intervalStyle →
    g.extraFloatDigits = g'.extraFloatDigits ∨ 1 ≤ g.extraFloatDigits ∧ 1 ≤ g'.extraFloatDigits →
    g.lcMonetary = g'.lcMonetary → pg.datumToText g typ d = pg.datumToText g' typ d
  /-- Dates read the field order unless the text is in the style `ISO`, and
  intervals the style. -/
  input : ∀ {w g g' : Guc} {typ : Oid} {d : D} {t : String},
    pg.datumToText w typ d = .ok (some t) → w.dateStyle = .iso ∨ g.dateOrder = g'.dateOrder →
    g.intervalStyle = g'.intervalStyle → g.lcMonetary = g'.lcMonetary →
    pg.textToDatum g (pg.getBaseType typ) t = pg.textToDatum g' (pg.getBaseType typ) t
  /-- Under one setting input undoes output, floats only with enough digits. -/
  exact : ∀ {g : Guc} {typ : Oid} {d : D} {t : String}, 1 ≤ g.extraFloatDigits →
    pg.datumToText g typ d = .ok (some t) →
    ∃ d', pg.textToDatum g (pg.getBaseType typ) t = .ok (some d') ∧ EqualInOrder ord typ d d'

end Pg

/-! ## Writing and reading -/

/-- The text of a bound, as `finish` and `widen_column` write it. -/
def writtenBound (pg : Pg D) (writer : Session) (typ : Oid) (v : D) :
    Option (PgResult (Option String)) :=
  withStableIo writer fun g => pg.datumToText g typ v

/-- The value of a bound, as `widen_column` and `parsed_bounds` read it. -/
def readBound (pg : Pg D) (reader : Session) (typ : Oid) (t : String) :
    Option (PgResult (Option D)) :=
  withStableIo reader fun g => pg.textToDatum g (pg.getBaseType typ) t

/-- The type that a qual reads the bounds as. -/
def QualSpec.boundsType : QualSpec D → Option Oid
  | .compare _ _ parseType .. => some parseType
  | .inList _ parseType .. => some parseType
  | .null .. | .overlap .. => none

/-- The reader does not get a value out of the text, and keeps the partition: no
qual that reads the bounds of an entry with the text proves a prune, and an insert
fails or gives the bounds up. -/
structure KeepsPartition (pg : Pg D) (reader : Session) (typ : Oid) (t : String) : Prop where
  fails : ∀ v, readBound pg reader typ t ≠ some (.ok (some v))
  prune : ∀ (c : ColSummary) (spec : QualSpec D), c.min = some t ∨ c.max = some t →
    spec.boundsType = some (pg.getBaseType typ) →
    (withStableIo reader fun g => spec.provesPrune pg g c) ≠ some (.ok true)
  widen : ∀ (c : ColSummary) (collation : Oid) (v : D) (r : ColSummary × Bool),
    c.min = some t ∨ c.max = some t →
    (withStableIo reader fun g => widenMinmax pg g c typ collation v) ≠ some (.ok (some r))

variable (ord) in
/-- The bound means the same value to the reader, or the reader fails. -/
def StoredBoundMeans (typ : Oid) (v : D) (writer reader : Session) : Prop :=
  ∀ t, writtenBound pg writer typ v = some (.ok (some t)) →
    (∃ v', readBound pg reader typ t = some (.ok (some v')) ∧ EqualInOrder ord typ v v') ∨
      KeepsPartition pg reader typ t

/-! ## A bound that is not read -/

/-- Without one of its bounds an entry has no usable range. -/
theorem parsedBounds_of_fails {g : Guc} {typ : Oid} {t : String} {c : ColSummary}
    (hfails : ∀ v, pg.textToDatum g typ t ≠ .ok (some v)) (hc : c.min = some t ∨ c.max = some t)
    {bounds : D × D} : parsedBounds pg g c typ ≠ .ok (some bounds) := by
  intro h
  unfold parsedBounds at h
  split at h
  · rename_i min max hmin hmax
    split at h
    · cases h
    obtain ⟨minD, hminD, h⟩ := bind_eq_ok.mp h
    cases minD with
    | none => cases h
    | some minD =>
        obtain ⟨maxD, hmaxD, h⟩ := bind_eq_ok.mp h
        cases maxD with
        | none => cases h
        | some maxD =>
            rw [hmin, hmax, Option.some.injEq, Option.some.injEq] at hc
            rcases hc with rfl | rfl
            · exact hfails minD hminD
            · exact hfails maxD hmaxD
  · cases h

theorem provesPrune_of_fails {g : Guc} {typ : Oid} {t : String} {c : ColSummary}
    (hfails : ∀ v, pg.textToDatum g typ t ≠ .ok (some v)) (hc : c.min = some t ∨ c.max = some t)
    {spec : QualSpec D} (hspec : spec.boundsType = some typ) :
    spec.provesPrune pg g c ≠ .ok true := by
  intro h
  cases spec with
  | compare attnum strategy parseType cmpproc collation konst =>
      cases hspec
      simp only [QualSpec.provesPrune] at h
      split at h
      · obtain ⟨bounds, hbounds, h⟩ := bind_eq_ok.mp h
        cases bounds with
        | none => cases h
        | some bounds => exact parsedBounds_of_fails hfails hc hbounds
      · cases h
  | inList attnum parseType cmpproc collation elems =>
      cases hspec
      simp only [QualSpec.provesPrune] at h
      split at h
      · obtain ⟨bounds, hbounds, h⟩ := bind_eq_ok.mp h
        cases bounds with
        | none => cases h
        | some bounds => exact parsedBounds_of_fails hfails hc hbounds
      · cases h
  | null attnum isNull => cases hspec
  | overlap attnum parseType opfunc collation konst commuted => cases hspec

theorem widenMinmax_of_fails {g : Guc} {typ collation : Oid} {t : String} {c : ColSummary} {v : D}
    (hfails : ∀ v, pg.textToDatum g (pg.getBaseType typ) t ≠ .ok (some v))
    (hc : c.min = some t ∨ c.max = some t) {r : ColSummary × Bool} :
    widenMinmax pg g c typ collation v ≠ .ok (some r) := by
  intro h
  obtain ⟨text, -, h⟩ := bind_eq_ok.mp h
  cases text with
  | none => cases h
  | some newText =>
      simp only at h
      split at h
      · rename_i min max hmin hmax
        split at h
        · cases h
        obtain ⟨minD, hminD, h⟩ := bind_eq_ok.mp h
        cases minD with
        | none => cases h
        | some minD =>
            obtain ⟨maxD, hmaxD, h⟩ := bind_eq_ok.mp h
            cases maxD with
            | none => cases h
            | some maxD =>
                rw [hmin, hmax, Option.some.injEq, Option.some.injEq] at hc
                rcases hc with rfl | rfl
                · exact hfails minD hminD
                · exact hfails maxD hmaxD
      · rename_i hmin hmax
        simp [hmin, hmax] at hc
      · cases h

/-- A reader that gets no value keeps the partition. -/
theorem keepsPartition_of_fails {reader : Session} {typ : Oid} {t : String}
    (hfails : ∀ v, readBound pg reader typ t ≠ some (.ok (some v))) :
    KeepsPartition pg reader typ t := by
  cases hruns : reader.runs with
  | false =>
      refine ⟨hfails, ?_, ?_⟩
      · intro c spec _ _
        simp [withStableIo_eq, hruns]
      · intro c collation v r _
        simp [withStableIo_eq, hruns]
  | true =>
      simp only [readBound, withStableIo_eq, hruns, if_true, ne_eq, Option.some.injEq] at hfails
      refine ⟨?_, ?_, ?_⟩
      · simpa [readBound, withStableIo_eq, hruns] using hfails
      · intro c spec hc hspec
        simpa [withStableIo_eq, hruns] using provesPrune_of_fails hfails hc hspec
      · intro c collation v r hc
        simpa [withStableIo_eq, hruns] using widenMinmax_of_fails hfails hc

/-! ## The settings of the two sessions -/

/-- The settings that every session pins, and a value of `lc_monetary`. -/
def Guc.pinned (lcMonetary : String) : Guc where
  dateStyle := .iso
  dateOrder := .mdy
  intervalStyle := .postgres
  extraFloatDigits := 1
  lcMonetary := lcMonetary

variable (ord) in
/-- Under the first `lc_monetary` the value has a text that under the second one
is the text of another value. -/
def MonetaryMisread (typ : Oid) (v : D) (writer reader : String) : Prop :=
  ∃ t v', pg.datumToText (.pinned writer) typ v = .ok (some t) ∧
    pg.textToDatum (.pinned reader) (pg.getBaseType typ) t = .ok (some v') ∧
    ¬EqualInOrder ord typ v v'

/-- Of the pinned settings only `lc_monetary` differs between sessions. -/
theorem datumToText_pin (settings : pg.TextSettings ord) (g : Guc) (typ : Oid) (v : D) :
    pg.datumToText g.pin typ v = pg.datumToText (.pinned g.lcMonetary) typ v := by
  have hstable := g.pin_stable
  exact settings.output hstable.date (Or.inl hstable.date) hstable.interval
    (Or.inr ⟨hstable.float, le_refl 1⟩) rfl

theorem textToDatum_pin (settings : pg.TextSettings ord) {writer : String} {typ : Oid} {v : D}
    {t : String} (ht : pg.datumToText (.pinned writer) typ v = .ok (some t)) (g : Guc) :
    pg.textToDatum g.pin (pg.getBaseType typ) t =
      pg.textToDatum (.pinned g.lcMonetary) (pg.getBaseType typ) t :=
  settings.input ht (Or.inl rfl) g.pin_stable.interval rfl

/-- A bound keeps its meaning exactly when one of the sessions does not get to it,
when they agree on `lc_monetary`, or when the two values of `lc_monetary` do not
make one text of two values. -/
theorem storedBound_iff (settings : pg.TextSettings ord) (typ : Oid) (v : D)
    (writer reader : Session) :
    StoredBoundMeans ord typ v writer reader ↔
      (writer.runs = true → reader.runs = true →
        writer.guc.lcMonetary = reader.guc.lcMonetary ∨
          ¬MonetaryMisread ord typ v writer.guc.lcMonetary reader.guc.lcMonetary) := by
  have hwritten : writer.runs = true → ∀ t, writtenBound pg writer typ v = some (.ok (some t)) ↔
      pg.datumToText (.pinned writer.guc.lcMonetary) typ v = .ok (some t) := fun hruns t => by
    rw [writtenBound, withStableIo_eq, if_pos hruns, datumToText_pin settings, Option.some.injEq]
  have hread : reader.runs = true → ∀ t v',
      pg.datumToText (.pinned writer.guc.lcMonetary) typ v = .ok (some t) →
      (readBound pg reader typ t = some (.ok (some v')) ↔
        pg.textToDatum (.pinned reader.guc.lcMonetary) (pg.getBaseType typ) t = .ok (some v')) :=
    fun hruns t v' ht => by
      rw [readBound, withStableIo_eq, if_pos hruns, textToDatum_pin settings ht, Option.some.injEq]
  constructor
  · intro hmeans hwriter hreader
    refine Or.inr ?_
    rintro ⟨t, v', ht, hv', hne⟩
    have hv' := (hread hreader t v' ht).mpr hv'
    rcases hmeans t ((hwritten hwriter t).mpr ht) with ⟨v'', hv'', heq⟩ | hkeeps
    · obtain rfl : v'' = v' := by simpa using hv''.symm.trans hv'
      exact hne heq
    · exact hkeeps.fails v' hv'
  · intro hcond t ht
    by_cases hfails : ∀ v', readBound pg reader typ t ≠ some (.ok (some v'))
    · exact Or.inr (keepsPartition_of_fails hfails)
    refine Or.inl ?_
    simp only [not_forall, not_not] at hfails
    obtain ⟨v', hv'⟩ := hfails
    have hwriter : writer.runs = true := by
      by_contra hno
      simp [writtenBound, withStableIo_eq, hno] at ht
    have hreader : reader.runs = true := by
      by_contra hno
      simp [readBound, withStableIo_eq, hno] at hv'
    have ht := (hwritten hwriter t).mp ht
    refine ⟨v', hv', ?_⟩
    rw [hread hreader t v' ht] at hv'
    rcases hcond hwriter hreader with hsame | hno
    · obtain ⟨d, hd, heq⟩ := settings.exact (le_refl 1) ht
      rw [hsame, hv'] at hd
      cases hd
      exact heq
    · by_contra hne
      exact hno ⟨t, v', ht, hv', hne⟩

section Mini

private theorem mini_textSettings :
    (Mini.pg fun _ _ n => n).TextSettings (Mini.order fun _ _ n => n) where
  output _ _ _ _ _ := rfl
  input _ _ _ _ := rfl
  exact {g typ d t} _ h := by
    have hrenders : (Mini.pg fun _ _ n => n).Renders typ t d := ⟨g.pin, g.pin_stable, h⟩
    exact ⟨d, (Mini.textRoundTrip fun _ _ n => n).read (g := g.pin) g.pin_stable hrenders,
      fun collation => AntisymmRel.refl _ d⟩

/-- An integer, written by a session with none of the settings pinned and read by
one with all of them. -/
theorem storedBound_iff_int4 :
    let writer : Session :=
      { guc := { dateStyle := .german, dateOrder := .dmy, intervalStyle := .sqlStandard
                 extraFloatDigits := 0, lcMonetary := "de_DE.UTF-8" }
        inParallelMode := false
        quoteAllIdentifiers := false }
    StoredBoundMeans (Mini.order fun _ _ n => n) Mini.int4 5 writer Mini.session ↔
      (writer.runs = true → Mini.session.runs = true →
        "de_DE.UTF-8" = "C" ∨ ¬MonetaryMisread (Mini.order fun _ _ n => n) Mini.int4 5
          "de_DE.UTF-8" "C") :=
  storedBound_iff mini_textSettings Mini.int4 5 _ Mini.session

/-! ### Money -/

/-- What `cash_out` and `cash_in` take from `localeconv`, for locales with the sign
and the symbol in front and two fraction digits. -/
structure MonetaryLocale where
  currencySymbol : Char
  monDecimalPoint : Char
  monThousandsSep : Char

def localeconv (lcMonetary : String) : MonetaryLocale :=
  if lcMonetary = "es_AR.UTF-8" then ⟨'$', ',', '.'⟩ else ⟨'$', '.', ','⟩

/-- The digits of a number of cents, the last one first: the decimal point follows
the second digit, and a separator every third one after it. -/
def cashDigits (locale : MonetaryLocale) : Nat → Nat → Nat → List Char
  | 0, _, _ => []
  | fuel + 1, pos, n =>
      if n = 0 ∧ 2 < pos then []
      else
        let mark :=
          if pos = 2 then [locale.monDecimalPoint]
          else if 2 < pos ∧ (pos - 2) % 3 = 0 then [locale.monThousandsSep]
          else []
        mark ++ Nat.digitChar (n % 10) :: cashDigits locale fuel (pos + 1) (n / 10)

/-- `cash_out`, over the cents. -/
def cashOut (locale : MonetaryLocale) (cents : Int) : String :=
  String.ofList ((if cents < 0 then ['-'] else []) ++
    locale.currencySymbol :: (cashDigits locale 26 0 cents.natAbs).reverse)

/-- The loop of `cash_in`: the cents read so far, whether the decimal point has been
seen, and the number of digits after it.  `none`: the text is no amount. -/
def cashInDigits (locale : MonetaryLocale) : List Char → Nat → Bool → Nat → Option Nat
  | [], value, _, dec => some (value * 10 ^ (2 - dec))
  | c :: cs, value, seenDot, dec =>
      if c.isDigit ∧ (seenDot = false ∨ dec < 2) then
        cashInDigits locale cs (10 * value + (c.toNat - 48)) seenDot
          (if seenDot then dec + 1 else dec)
      else if c = locale.monDecimalPoint ∧ seenDot = false then
        cashInDigits locale cs value true dec
      else if c = locale.monThousandsSep then cashInDigits locale cs value seenDot dec
      else none

def cashIn (locale : MonetaryLocale) (s : String) : Option Int :=
  match s.toList with
  | '-' :: c :: cs =>
      if c = locale.currencySymbol then (cashInDigits locale cs 0 false 0).map fun n => -(n : Int)
      else none
  | c :: cs =>
      if c = locale.currencySymbol then (cashInDigits locale cs 0 false 0).map Nat.cast else none
  | [] => none

def money : Oid := 790

/-- The small server with the type `money`. -/
def moneyPg : Pg Int :=
  { Mini.pg fun _ _ n => n with
    searchTypeOid := fun _ =>
      some { typname := "money", typnamespace := 11, typtype := 'b', typlen := 8 }
    outputFunctionCall := fun g _ cents =>
      .ok (some (utf8Bytes (cashOut (localeconv g.lcMonetary) cents)))
    inputFunctionCall := fun g _ s _ =>
      match cashIn (localeconv g.lcMonetary) s with
      | some cents => .ok cents
      | none => .error "invalid input syntax for type money" }

@[reducible] def moneyOrder : moneyPg.BtreeOrder where
  order := (Mini.order fun _ _ n => n).order
  total := (Mini.order fun _ _ n => n).total
  compare_spec {family left right collation a b n} hne h :=
    @Pg.BtreeOrder.compare_spec Int _ (Mini.order fun _ _ n => n) family left right collation a
      b n hne h

/-- A session with the locale `lcMonetary` for amounts. -/
def moneySession (lcMonetary : String) : Session where
  guc := .pinned lcMonetary
  inParallelMode := false
  quoteAllIdentifiers := false

/-- The amount 1.50, written in one country and read in another one where the point
separates thousands, is 150.00 there.  A query for amounts below 100.00 loses it. -/
theorem not_storedBoundMeans_money :
    let writer := moneySession "en_US.UTF-8"
    let reader := moneySession "es_AR.UTF-8"
    let attrs : List (IndexAttr Int) :=
      [{ attnum := 1, typ := money, collation := invalidOid, expr := fun _ => none }]
    let c : ColSummary :=
      { attnum := 1, overlap := false, typeName := "pg_catalog.money", collation := invalidOid
        min := some "$1.50", max := some "$1.50", hasNulls := false, allNulls := false
        unbounded := false }
    ¬StoredBoundMeans moneyOrder money 150 writer reader ∧
      buildLeafSummary moneyPg writer attrs [Mini.row 150] = .ok ⟨[c]⟩ ∧
      prunes moneyPg reader [c]
        [.opExpr (Mini.op money 1) invalidOid [.var 1 money, .const money (some 10000)]] =
        true := by
  intro writer reader attrs c
  have hwritten : writtenBound moneyPg writer money 150 =
      some (.ok (some "$1.50")) := by decide +kernel
  have hread : readBound moneyPg reader money "$1.50" = some (.ok (some 15000)) := by decide +kernel
  refine ⟨fun hmeans => ?_, by decide +kernel, by decide +kernel⟩
  rcases hmeans "$1.50" hwritten with ⟨v', hv', heq⟩ | hkeeps
  · obtain rfl : (15000 : Int) = v' := by simpa using hread.symm.trans hv'
    have hle : (15000 : Int) ≤ 150 := (heq invalidOid).2
    omega
  · exact hkeeps.fails 15000 hread

end Mini

end TableRange
