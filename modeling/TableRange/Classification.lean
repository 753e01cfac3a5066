import TableRange.Coverage.History
import TableRange.MiniPg

/-!
# How the build and the insert classify a column

`plan_columns` decides by the kind and the unqualified name of the base type,
`widen_column` by the `overlap` flag and the suffix of the stored type name, which
is the qualified name of the column's own type.  The two differ on a domain over
`geometry` with another name, whose extent an insert merges with `range_merge`,
and on a range type or a domain over one that is named `geometry`, whose extent an
insert hands to `ST_Extent`.  They differ on `geometry` itself when the session that builds the
index quotes every identifier: the stored name then ends in a quote.

`classifiedAlike_iff` says that they differ nowhere else.
-/

namespace TableRange

open Lib.Fallible

variable {D : Type} {pg : Pg D}

/-- What the bounds of a column are computed with. -/
inductive Algorithm
  | minMax
  | rangeMerge
  /-- `ST_Extent` of the schema. -/
  | stExtent (ns : String)
  | unbounded
deriving DecidableEq, Repr

/-- What `ColumnBuild::add` and `flush_geometry` do with a planned column. -/
def ColumnBuild.algorithm (col : ColumnBuild D) : Algorithm :=
  match col.acc.kind with
  | .minMax => .minMax
  | .range => .rangeMerge
  | .geometry => .stExtent (geometrySchema col.typeName)
  | .unsupported => .unbounded

/-- What `widen_column` does with an entry. -/
def ColSummary.algorithm (c : ColSummary) : Algorithm :=
  if c.unbounded then .unbounded
  else if c.overlap then
    if endsWith c.typeName ".geometry" then .stExtent (geometrySchema c.typeName) else .rangeMerge
  else .minMax

/-- The extent that the algorithm computes. -/
def Algorithm.extentWith (algorithm : Algorithm) (pg : Pg D) (g : Guc) (col : ColSummary)
    (typ : Oid)
    (value : D) : PgResult (Option (Option String)) :=
  match algorithm with
  | .stExtent _ => geometryExtentWith pg g col typ value
  | _ => rangeExtentWith pg g col typ value

/-- `widen_overlap` runs the entry's algorithm. -/
theorem extentWith_eq_algorithm {c : ColSummary} (hunb : c.unbounded = false)
    (hov : c.overlap = true) (g : Guc) (typ : Oid) (value : D) :
    extentWith pg g c typ value = c.algorithm.extentWith pg g c typ value := by
  simp only [extentWith, ColSummary.algorithm, hunb, hov, if_true, Bool.false_eq_true, if_false]
  split <;> rfl

/-- `widen_column` compares with minimum and maximum when the entry's algorithm
says so. -/
theorem widenBounds_eq_algorithm {c : ColSummary} (hunb : c.unbounded = false) (g : Guc)
    (typ collation : Oid) (value : D) :
    widenBounds pg g c typ collation value =
      if c.algorithm = .minMax then widenMinmax pg g c typ collation value
      else widenOverlap pg g c typ value := by
  simp only [widenBounds, ColSummary.algorithm, hunb, Bool.false_eq_true, if_false]
  cases c.overlap with
  | false => simp
  | true =>
      simp only [if_true]
      split <;> simp

/-- The insert treats every entry of a column of the type as the build has
planned it, as long as the entry has bounds to keep.  `quoteAll` is what the session of the
build has set `quote_all_identifiers` to. -/
def ClassifiedAlike (pg : Pg D) (quoteAll : Bool) (typ : Oid) : Prop :=
  ∀ (session : Session) (attrs : List (IndexAttr D)) (planned : List (ColumnBuild D))
    (built s : IndexSummary) (scanned inserted : List (Row D)),
    session.quoteAllIdentifiers = quoteAll → planColumns pg session attrs = .ok planned →
    buildLeafSummary pg session attrs scanned = .ok built → Grown pg attrs built s inserted →
    List.Forall₂ (fun col c => col.typ = typ → c.unbounded = false → c.algorithm = col.algorithm)
      planned s.cols

/-! ## Qualified names -/

/-- `quote_identifier`: a name is left as it is when it is made of lower-case
letters, digits and underscores and is no keyword, and is enclosed in double
quotes otherwise.  Under `quote_all_identifiers` it is always enclosed. -/
structure Pg.QuotesIdentifiers (pg : Pg D) : Prop where
  geometry : pg.quoteIdentifier false "geometry" = "geometry"
  plain_or_quoted : ∀ name, (pg.quoteIdentifier false name = name ∧ '.' ∉ name.toList) ∨
    (pg.quoteIdentifier false name).toList.getLast? = some '"'
  quoted : ∀ name, (pg.quoteIdentifier true name).toList.getLast? = some '"'

theorem endsWith_iff {s suffix : String} :
    endsWith s suffix = true ↔ suffix.toList <:+ s.toList := by
  unfold endsWith stripSuffix
  rw [← List.isSuffixOf_iff_suffix]
  split <;> simp_all

/-- A list of which the last part has no separator has that part as its suffix
only. -/
private theorem suffix_separator {sep : Char} {before name name' : List Char} (hname : sep ∉ name)
    (hname' : sep ∉ name') : sep :: name' <:+ before ++ sep :: name ↔ name' = name := by
  constructor
  · intro h
    rcases List.suffix_or_suffix_of_suffix h (List.suffix_append before (sep :: name)) with h | h
    · rcases List.suffix_cons_iff.mp h with h | h
      · exact (List.cons.inj h).2
      · exact absurd (h.subset List.mem_cons_self) hname
    · rcases List.suffix_cons_iff.mp h with h | h
      · exact (List.cons.inj h).2.symm
      · exact absurd (h.subset List.mem_cons_self) hname'
  · rintro rfl
    exact List.suffix_append before _

/-- A name in double quotes ends in a quote, the suffix in a letter. -/
private theorem not_suffix_of_quoted {before name : List Char} (h : name.getLast? = some '"') :
    ¬".geometry".toList <:+ before ++ '.' :: name := by
  rintro ⟨front, hfront⟩
  have hlast := congrArg List.getLast? hfront
  have hgeometry : ".geometry".toList = '.' :: "geometry".toList := rfl
  rw [hgeometry, List.getLast?_append, List.getLast?_append, List.getLast?_cons,
    List.getLast?_cons] at hlast
  simp [h] at hlast

/-- Only a type named `geometry` has a qualified name with that suffix, and only where
identifiers are not quoted throughout. -/
theorem endsWith_qualified (quotes : pg.QuotesIdentifiers) (quoteAll : Bool)
    (nsp name : String) :
    endsWith (pg.quoteQualifiedIdentifier quoteAll nsp name) ".geometry" = true ↔
      name = "geometry" ∧ quoteAll = false := by
  have hlist : (pg.quoteQualifiedIdentifier quoteAll nsp name).toList =
      (pg.quoteIdentifier quoteAll nsp).toList ++
        '.' :: (pg.quoteIdentifier quoteAll name).toList := by
    simp [Pg.quoteQualifiedIdentifier]
  have hsuffix : ".geometry".toList = '.' :: "geometry".toList := rfl
  rw [endsWith_iff, hlist]
  cases quoteAll with
  | true => exact iff_of_false (not_suffix_of_quoted (quotes.quoted name)) (by simp)
  | false =>
      simp only [and_true]
      rcases quotes.plain_or_quoted name with ⟨hplain, hdot⟩ | hquoted
      · rw [hplain, hsuffix, suffix_separator hdot (by decide), String.toList_inj, eq_comm]
      · refine iff_of_false (not_suffix_of_quoted hquoted) ?_
        rintro rfl
        -- the plain name ends in a letter
        rw [quotes.geometry] at hquoted
        exact absurd hquoted (by decide)

/-! ## The kind of an entry -/

/-- What an entry shows of the kind that its column was planned with. -/
structure EntryKind (pg : Pg D) (a : IndexAttr D) (c : ColSummary) : Prop where
  typeName : pg.HasTypeName a.typ c.typeName
  overlap : c.overlap = true ↔ (planAccumulator pg a.typ).kind = .range ∨
    (planAccumulator pg a.typ).kind = .geometry
  unsupported : (planAccumulator pg a.typ).kind = .unsupported → c.unbounded = true

theorem EntryKind.of_same {a : IndexAttr D} {c c' : ColSummary} (h : EntryKind pg a c)
    (hsame : SameColumn c c') : EntryKind pg a c' :=
  ⟨hsame.typeName ▸ h.typeName, hsame.overlap ▸ h.overlap,
    fun hunsupported => hsame.unbounded (h.unsupported hunsupported)⟩

/-- The kind of an accumulator can be read off what it renders. -/
theorem renderBounds_kind {g : Guc} {col : ColumnBuild D} {overlap unbounded : Bool}
    {min max : Option String} (h : renderBounds pg g col = .ok (overlap, min, max, unbounded)) :
    (overlap = true ↔ col.acc.kind = .range ∨ col.acc.kind = .geometry) ∧
      (col.acc.kind = .unsupported → unbounded = true) := by
  unfold renderBounds at h
  split at h
  · rename_i hacc
    obtain ⟨lo, -, h⟩ := bind_eq_ok.mp h
    obtain ⟨hi, -, h⟩ := bind_eq_ok.mp h
    cases h
    simp [hacc, Accumulator.kind]
  · rename_i hacc
    obtain ⟨text, -, h⟩ := bind_eq_ok.mp h
    cases h
    simp [hacc, Accumulator.kind]
  · rename_i hacc
    cases h
    simp [hacc, Accumulator.kind]
  · rename_i hacc
    cases h
    simp [hacc, Accumulator.kind]

theorem finishColumn_entryKind {g : Guc} {attrs : List (IndexAttr D)} {a : IndexAttr D}
    {seen : List (Option D)} {col : ColumnBuild D} {out : ColSummary}
    (hcount : Counted pg attrs a seen col) (h : finishColumn pg g col = .ok out) :
    EntryKind pg a out := by
  obtain ⟨flushed, overlap, min, max, unbounded, hflush, hrender, rfl⟩ := finishColumn_cases h
  have hcount' := hcount.of_same (flushGeometry_same hflush)
  have hkind := renderBounds_kind hrender
  rw [hcount'.kind] at hkind
  have hentry : EntryKind pg a (flushed.entry overlap min max unbounded) :=
    ⟨hcount'.planned.typeName, hkind.1, hkind.2⟩
  unfold ColumnBuild.settle
  split
  · exact hentry.of_same ⟨rfl, rfl, rfl, rfl, fun _ => rfl⟩
  · exact hentry

/-- Every entry of a maintained summary shows the kind of its column. -/
theorem Maintained.entryKind {attrs : List (IndexAttr D)} {s : IndexSummary} {rows : List (Row D)}
    (h : Maintained pg attrs s rows) : List.Forall₂ (EntryKind pg) (summarized attrs) s.cols := by
  induction h with
  | build h =>
      exact buildLeafSummary_forall₂ (R := Counted pg attrs) (Q := fun a _ c => EntryKind pg a c)
        (fun _ _ hplan hfresh => hfresh.counted hplan)
        (fun _ _ _ _ _ _ hcount hstep => buildColumn_counted hcount hstep)
        (fun _ _ _ _ _ _ hcount hout => finishColumn_entryKind hcount hout) h
  | insert _ h ih =>
      obtain ⟨⟨cols, _⟩, hcols, h⟩ := bind_eq_ok.mp (widenStable_eq_ok h)
      cases h
      exact Lib.Aligned.forall₂_comp (fun _ _ _ hkind hsame => hkind.of_same hsame) ih
        (widenSummaryFrom_sameColumn hcols)
  | fit _ ih =>
      refine Lib.Aligned.forall₂_comp (fun a c c' hkind hdrop => ?_) ih (encodeFitting_dropped _)
      rcases hdrop with rfl | ⟨-, rfl⟩
      · exact hkind
      · exact hkind.of_same ⟨rfl, rfl, rfl, rfl, fun _ => rfl⟩

/-- When the two classifications of one column agree. -/
theorem EntryKind.algorithm_eq_iff {quoteAll : Bool} {a : IndexAttr D} {col : ColumnBuild D}
    {c : ColSummary} (hkind : EntryKind pg a c) (hfresh : Fresh pg quoteAll a col)
    (hname : pg.qualifiedTypeName quoteAll a.typ = .ok c.typeName) (hunb : c.unbounded = false) :
    c.algorithm = col.algorithm ↔
      ((planAccumulator pg a.typ).kind = .range → endsWith c.typeName ".geometry" = false) ∧
        ((planAccumulator pg a.typ).kind = .geometry → endsWith c.typeName ".geometry" = true) := by
  have htypeName : col.typeName = c.typeName :=
    Except.ok.inj (hfresh.typeName.symm.trans hname)
  have hoverlap := hkind.overlap
  simp only [ColSummary.algorithm, ColumnBuild.algorithm, hunb, hfresh.acc, htypeName]
  cases hk : (planAccumulator pg a.typ).kind with
  | minMax =>
      have hov : c.overlap = false := by simpa [hk] using hoverlap
      simp [hov]
  | range =>
      have hov : c.overlap = true := by simpa [hk] using hoverlap
      cases endsWith c.typeName ".geometry" <;> simp [hov]
  | geometry =>
      have hov : c.overlap = true := by simpa [hk] using hoverlap
      cases endsWith c.typeName ".geometry" <;> simp [hov]
  | unsupported => exact absurd (hkind.unsupported hk) (by simp [hunb])

/-- Build and insert classify a type alike exactly when the type is named
`geometry`, with its name stored as it is, if its base type is, and not if its base type is a
range type. -/
theorem classifiedAlike_iff (quotes : pg.QuotesIdentifiers) (quoteAll : Bool) {typ : Oid}
    {nsp name : String} (hname : pg.typeNameParts typ = some (nsp, name)) :
    ClassifiedAlike pg quoteAll typ ↔
      ((planAccumulator pg typ).kind = .range → ¬(name = "geometry" ∧ quoteAll = false)) ∧
        ((planAccumulator pg typ).kind = .geometry → name = "geometry" ∧ quoteAll = false) := by
  have htypeName := pg.qualifiedTypeName_eq hname quoteAll
  have hiff : ∀ {a : IndexAttr D} {col : ColumnBuild D} {c : ColSummary},
      EntryKind pg a c → Fresh pg quoteAll a col →
      pg.qualifiedTypeName quoteAll a.typ = .ok c.typeName → a.typ = typ →
      c.unbounded = false → (c.algorithm = col.algorithm ↔
        ((planAccumulator pg typ).kind = .range → ¬(name = "geometry" ∧ quoteAll = false)) ∧
          ((planAccumulator pg typ).kind = .geometry → name = "geometry" ∧ quoteAll = false)) := by
    rintro a col c hkind hfresh hstored rfl hunb
    have hc : c.typeName = pg.quoteQualifiedIdentifier quoteAll nsp name :=
      Except.ok.inj (hstored.symm.trans htypeName)
    rw [hkind.algorithm_eq_iff hfresh hstored hunb, hc, ← Bool.not_eq_true,
      endsWith_qualified quotes]
  constructor
  · intro halike
    -- an empty table with one column of the type
    let a : IndexAttr D := { attnum := 1, typ, collation := invalidOid, expr := fun _ => none }
    let session : Session := { Mini.session with quoteAllIdentifiers := quoteAll }
    obtain ⟨planned, hplan⟩ : ∃ planned, planColumns pg session [a] = .ok planned := by
      simp [planColumns, planColumnsFrom, a, session, htypeName, bind, Except.bind]
    obtain ⟨s, hbuilt, hempty⟩ := buildLeafSummary_nil session rfl hplan
    have hagree := halike session [a] planned s s [] [] rfl hplan hbuilt .built
    have hcols := planColumns_spec hplan
    have hkinds := (Maintained.build hbuilt).entryKind
    have hnames := buildLeafSummary_typeNames hbuilt
    rw [show summarized [a] = [a] from rfl] at hempty hcols hkinds hnames
    generalize s.cols = cols at hempty hkinds hagree hnames
    obtain - | ⟨hcol, ⟨⟩⟩ := hcols
    obtain - | ⟨hkind, ⟨⟩⟩ := hkinds
    obtain - | ⟨hunb, -⟩ := hempty
    obtain - | ⟨hagree, -⟩ := hagree
    obtain - | ⟨⟨-, hstored⟩, -⟩ := hnames
    rename_i col c
    by_cases hc : c.unbounded = true
    · have hunsupported := hunb.2 hc
      rw [hunsupported]
      simp
    · have hc : c.unbounded = false := eq_false_of_ne_true hc
      exact (hiff hkind hcol.2 hstored rfl hc).mp (hagree hcol.1.typ hc)
  · rintro hnames session attrs planned built s scanned inserted rfl hplan hbuilt hgrown
    have hentries := Lib.Aligned.forall₂_and (hgrown.maintained hbuilt).entryKind
      (hgrown.typeNames hbuilt)
    refine Lib.Aligned.forall₂_comp (fun col a c hcol hentry htyp hunb => ?_)
      (planColumns_spec hplan).flip hentries
    exact (hiff hentry.1 hcol.2 hentry.2.2 (hcol.1.typ.symm.trans htyp) hunb).mpr hnames

section Mini

/-- A letter, digit or underscore of a name that needs no quotes. -/
def plainChar (c : Char) : Bool := c.isLower || c.isDigit || c == '_'

def quoteName (quoteAll : Bool) (name : String) : String :=
  if !quoteAll && name.toList.all plainChar then name
  else
    "\"" ++ String.ofList (name.toList.flatMap fun c => if c = '"' then ['"', '"'] else [c]) ++
      "\""

/-- A domain over PostGIS's `geometry`. -/
def area : Oid := 100

def geometry : Oid := 101

/-- The small server with the two types in the schema `public`; every extent is
the same. -/
def geometryPg : Pg Int :=
  { Mini.pg fun _ _ n => n with
    searchTypeOid := fun typ =>
      if typ = area then
        some { typname := "area", typnamespace := 2200, typtype := 'd', typlen := -1 }
      else some { typname := "geometry", typnamespace := 2200, typtype := 'b', typlen := -1 }
    getNamespaceName := fun _ => some "public"
    getBaseType := fun typ => if typ = area then geometry else typ
    quoteIdentifier := quoteName
    spiExecuteWithArgs := fun _ _ => .ok (some (utf8Bytes (Mini.text 5))) }

theorem quotesIdentifiers_quoteName {pg : Pg D} (h : pg.quoteIdentifier = quoteName) :
    pg.QuotesIdentifiers where
  geometry := by
    rw [h]
    decide +kernel
  plain_or_quoted name := by
    rw [h, quoteName]
    split
    · rename_i hplain
      refine Or.inl ⟨rfl, fun hdot => ?_⟩
      exact absurd (List.all_eq_true.mp (Bool.and_eq_true_iff.mp hplain).2 '.' hdot) (by decide)
    · refine Or.inr ?_
      rw [String.toList_append]
      exact List.getLast?_concat
  quoted name := by
    rw [h, quoteName, if_neg (by simp), String.toList_append]
    exact List.getLast?_concat

/-- The type `geometry` itself. -/
theorem classifiedAlike_iff_geometry :
    ClassifiedAlike geometryPg false geometry ↔
      ((planAccumulator geometryPg geometry).kind = .range →
          ¬("geometry" = "geometry" ∧ false = false)) ∧
        ((planAccumulator geometryPg geometry).kind = .geometry →
          "geometry" = "geometry" ∧ false = false) :=
  classifiedAlike_iff (quotesIdentifiers_quoteName rfl) false
    (show geometryPg.typeNameParts geometry = some ("public", "geometry") from rfl)

/-- An index on one column of the type. -/
def oneColumn (typ : Oid) : List (IndexAttr Int) :=
  [{ attnum := 1, typ, collation := invalidOid, expr := fun _ => none }]

/-- The entry of the column, with the extent that the build leaves. -/
def extentEntry (typeName : String) : ColSummary :=
  { attnum := 1, overlap := true, typeName, collation := invalidOid, min := some (Mini.text 5)
    max := none, hasNulls := false, allNulls := false, unbounded := false }

def extentColumn (typ : Oid) (typeName : String) : ColumnBuild Int :=
  { indexPos := 0, attnum := 1, typ, typeName, collation := invalidOid, nonnull := 0, nulls := 0
    acc := .geometry [] none }

/-- A session that quotes every identifier. -/
def quotingSession : Session := { Mini.session with quoteAllIdentifiers := true }

/-- A column of the domain `area`: the build computes its extent with `ST_Extent`,
an insert merges it with `range_merge`.  The same happens to a column of the type `geometry`
itself when the index is built in a session that quotes every identifier. -/
theorem not_classifiedAlike_area :
    (let col := extentColumn area "public.area"
      let c := extentEntry "public.area"
      planColumns geometryPg Mini.session (oneColumn area) = .ok [col] ∧
        buildLeafSummary geometryPg Mini.session (oneColumn area) [Mini.row 5] = .ok ⟨[c]⟩ ∧
        col.algorithm = .stExtent "public" ∧ c.algorithm = .rangeMerge ∧
        ¬ClassifiedAlike geometryPg false area) ∧
      let col := extentColumn geometry "\"public\".\"geometry\""
      let c := extentEntry "\"public\".\"geometry\""
      planColumns geometryPg quotingSession (oneColumn geometry) = .ok [col] ∧
        buildLeafSummary geometryPg quotingSession (oneColumn geometry) [Mini.row 5] =
          .ok ⟨[c]⟩ ∧
        col.algorithm = .stExtent "public" ∧ c.algorithm = .rangeMerge ∧
        ¬ClassifiedAlike geometryPg true geometry := by
  have hdiffer {session : Session} {typ : Oid} {typeName : String}
      (hplan : planColumns geometryPg session (oneColumn typ) =
        .ok [extentColumn typ typeName])
      (hbuilt : buildLeafSummary geometryPg session (oneColumn typ) [Mini.row 5] =
        .ok ⟨[extentEntry typeName]⟩)
      (hcol : (extentColumn typ typeName).algorithm = .stExtent "public")
      (hc : (extentEntry typeName).algorithm = .rangeMerge) :
      ¬ClassifiedAlike geometryPg session.quoteAllIdentifiers typ := by
    intro halike
    have hagree := halike session _ _ _ _ _ [] rfl hplan hbuilt .built
    obtain - | ⟨hagree, -⟩ := hagree
    rw [hagree rfl rfl, hcol] at hc
    cases hc
  have harea : buildLeafSummary geometryPg Mini.session (oneColumn area) [Mini.row 5] =
      .ok ⟨[extentEntry "public.area"]⟩ := by decide +kernel
  have hgeometry : buildLeafSummary geometryPg quotingSession (oneColumn geometry)
      [Mini.row 5] = .ok ⟨[extentEntry "\"public\".\"geometry\""]⟩ := by decide +kernel
  have hplanArea : planColumns geometryPg Mini.session (oneColumn area) =
      .ok [extentColumn area "public.area"] := rfl
  have hplanGeometry : planColumns geometryPg quotingSession (oneColumn geometry) =
      .ok [extentColumn geometry "\"public\".\"geometry\""] := rfl
  have hcolArea : (extentColumn area "public.area").algorithm = .stExtent "public" := by
    decide +kernel
  have hcolGeometry : (extentColumn geometry "\"public\".\"geometry\"").algorithm =
      .stExtent "public" := by decide +kernel
  have hcArea : (extentEntry "public.area").algorithm = .rangeMerge := by decide +kernel
  have hcGeometry : (extentEntry "\"public\".\"geometry\"").algorithm = .rangeMerge := by
    decide +kernel
  exact ⟨⟨hplanArea, harea, hcolArea, hcArea, hdiffer hplanArea harea hcolArea hcArea⟩,
    hplanGeometry, hgeometry, hcolGeometry, hcGeometry,
    hdiffer hplanGeometry hgeometry hcolGeometry hcGeometry⟩

end Mini

end TableRange
