import TableRange.Coverage.Extremes
import TableRange.Relabels

/-!
# Labels that change their values

The bounds of an enum column are stored as labels, and `ALTER TYPE .. RENAME VALUE`
changes the label of a value.  The label of a stored bound may so become the label of
another value, and the bound is read as that value from then on.

`EnumRun` is a history of builds, inserts and renames.  `enumRun_sound` says that
nothing goes wrong as long as no rename gives a value the label of a stored bound when
the column has values beyond it.
-/

namespace TableRange

open Lib.Interval Lib.Fallible

variable {D : Type} [DecidableEq D] {pg : Pg D}

/-! ## Enum types -/

/-- An enum type with its text functions. -/
structure EnumType (pg : Pg D) where
  typ : Oid
  values : List D
  enumOut : Oid
  enumIn : Oid
  baseType : pg.getBaseType typ = typ
  typeOutput : pg.getTypeOutputInfo typ = enumOut
  typeInput : pg.getTypeInputInfo typ = (enumIn, typ)
  enumOut_valid : enumOut ≠ invalidOid
  enumIn_valid : enumIn ≠ invalidOid

/-- The labels that the values of an enum type have at some time. -/
structure Labels (values : List D) where
  label : D → String
  injective : ∀ u ∈ values, ∀ v ∈ values, label u = label v → u = v
  noNul : ∀ v ∈ values, 0 ∉ utf8Bytes (label v)

namespace EnumType

variable (enum : EnumType pg)

/-- The server while the type has these labels.  Output gives the label of the value,
and input the value that has the label. -/
def server (labels : Labels enum.values) : Pg D :=
  { pg with
    outputFunctionCall := fun g outfunc d =>
      if outfunc = enum.enumOut ∧ d ∈ enum.values then .ok (some (utf8Bytes (labels.label d)))
      else pg.outputFunctionCall g outfunc d
    inputFunctionCall := fun g infunc text ioparam =>
      if infunc = enum.enumIn ∧ ioparam = enum.typ then
        match enum.values.find? fun v => labels.label v == text with
        | some v => .ok v
        | none => .error "invalid input value for enum"
      else pg.inputFunctionCall g infunc text ioparam }

/-- Labels change neither the values nor their order. -/
@[reducible] def order (ord : pg.BtreeOrder) (labels : Labels enum.values) :
    (enum.server labels).BtreeOrder where
  order := ord.order
  total := ord.total
  compare_spec hproc h := ord.compare_spec hproc h

variable {enum}

theorem server_datumToText {labels : Labels enum.values} {g : Guc} {d : D} (hd : d ∈ enum.values) :
    (enum.server labels).datumToText g enum.typ d = .ok (some (labels.label d)) := by
  have houtput : (enum.server labels).outputFunctionCall g enum.enumOut d =
      .ok (some (utf8Bytes (labels.label d))) := if_pos ⟨rfl, hd⟩
  unfold Pg.datumToText
  rw [show (enum.server labels).getTypeOutputInfo enum.typ = enum.enumOut from enum.typeOutput]
  simp only [if_neg enum.enumOut_valid, houtput, bind, Except.bind, Option.bind_some,
    fromUtf8_utf8Bytes]

/-- What is read from a text is the value that has it as its label. -/
theorem of_server_textToDatum {labels : Labels enum.values} {g : Guc} {t : String} {d : D}
    (h : (enum.server labels).textToDatum g enum.typ t = .ok (some d)) :
    d ∈ enum.values ∧ labels.label d = t := by
  unfold Pg.textToDatum at h
  rw [show (enum.server labels).getTypeInputInfo enum.typ = (enum.enumIn, enum.typ) from
    enum.typeInput] at h
  simp only [if_neg enum.enumIn_valid] at h
  split at h
  · cases h
  · obtain ⟨d', hd', h⟩ := bind_eq_ok.mp h
    cases h
    have hinput : (enum.server labels).inputFunctionCall g enum.enumIn t enum.typ =
        match enum.values.find? fun v => labels.label v == t with
        | some v => .ok v
        | none => .error "invalid input value for enum" := if_pos ⟨rfl, rfl⟩
    rw [hinput] at hd'
    split at hd'
    · rename_i v hv
      cases hd'
      exact ⟨List.mem_of_find?_eq_some hv, by simpa using List.find?_some hv⟩
    · cases hd'

/-- The text form of a value of the type is its label. -/
theorem label_of_renders {labels : Labels enum.values} {t : String} {d : D} (hd : d ∈ enum.values)
    (h : (enum.server labels).Renders enum.typ t d) : labels.label d = t := by
  obtain ⟨g, -, h⟩ := h
  rw [server_datumToText hd] at h
  exact Option.some.inj (Except.ok.inj h)

end EnumType

/-! ## Histories -/

section Run

variable (enum : EnumType pg) (attrs : List (IndexAttr D)) (n : Int16)

/-- The row has a value of the type in the column. -/
def EnumTyped (row : Row D) : Prop := ∀ v, row n = some v → v ∈ enum.values

variable (ok : IndexSummary → List (Row D) → D → String → Prop) in
/-- Builds, inserts and renames that are `ok`, for an index on attribute `n` of the enum
type: the labels, the summary and the rows they lead to. -/
inductive EnumRun : Labels enum.values → IndexSummary → List (Row D) → Prop
  | build {labels : Labels enum.values} {session : Session} {rows : List (Row D)} {s : IndexSummary}
      (htyped : ∀ row ∈ rows, EnumTyped enum n row)
      (h : buildLeafSummary (enum.server labels) session attrs rows = .ok s) :
      EnumRun labels s rows
  | insert {labels : Labels enum.values} {session : Session} {rows : List (Row D)} {row : Row D}
      {s s' : IndexSummary} {changed : Bool} (hs : EnumRun labels s rows)
      (htyped : EnumTyped enum n row)
      (h : widenStable (enum.server labels) session attrs row s = .ok (s', changed)) :
      EnumRun labels s' (row :: rows)
  | fit {labels : Labels enum.values} {rows : List (Row D)} {s : IndexSummary}
      (hs : EnumRun labels s rows) : EnumRun labels (encodeFitting s).1 rows
  /-- `ALTER TYPE .. RENAME VALUE`: the value `v` has the label `new` from now on. -/
  | rename {labels labels' : Labels enum.values} {rows : List (Row D)} {s : IndexSummary} {v : D}
      {new : String} (hs : EnumRun labels s rows) (hv : v ∈ enum.values)
      (hlabel : labels'.label = Function.update labels.label v new) (hok : ok s rows v new) :
      EnumRun labels' s rows

end Run

section Sound

variable {enum : EnumType pg} (ord : pg.BtreeOrder) {attrs : List (IndexAttr D)} (a : IndexAttr D)

/-- If the new label is the text of a stored bound, no value of the column lies beyond
the renamed value. -/
def RenameKeeps (s : IndexSummary) (rows : List (Row D)) (v : D) (new : String) : Prop :=
  ∀ c, firstEntry s.cols a.attnum = some c →
    (c.min = some new → ∀ row ∈ rows, ∀ u, row a.attnum = some u →
      (columnOrder ord a.typ a.collation).le v u) ∧
    (c.max = some new → ∀ row ∈ rows, ∀ u, row a.attnum = some u →
      (columnOrder ord a.typ a.collation).le u v)

/-- However the bounds of the entry are read, the values lie between them. -/
structure ReadsAround (labels : Labels enum.values) (rows : List (Row D)) (c : ColSummary) :
    Prop where
  collation : c.collation = a.collation
  empty : c.overlap = false → c.unbounded = false → c.min = none →
    ∀ row ∈ rows, row a.attnum = none
  lower : c.overlap = false → c.unbounded = false → ∀ w ∈ enum.values,
    c.min = some (labels.label w) → ∀ row ∈ rows, ∀ v, row a.attnum = some v →
      (columnOrder ord a.typ a.collation).le w v
  upper : c.overlap = false → c.unbounded = false → ∀ w ∈ enum.values,
    c.max = some (labels.label w) → ∀ row ∈ rows, ∀ v, row a.attnum = some v →
      (columnOrder ord a.typ a.collation).le v w

/-- What an insert of the row makes of the btree bounds of `c`: it gives them up, leaves
them, or puts the row's value in their place, which is not inside what they are read as. -/
def NeverNarrower (labels : Labels enum.values) (row : Row D) (c c' : ColSummary) : Prop :=
  c.overlap = false → c'.unbounded = true ∨
    ((c'.min = c.min ∨ ∃ w, row a.attnum = some w ∧ c'.min = some (labels.label w) ∧
        ∀ u ∈ enum.values, c.min = some (labels.label u) →
          (columnOrder ord a.typ a.collation).le w u) ∧
      (c'.max = c.max ∨ ∃ w, row a.attnum = some w ∧ c'.max = some (labels.label w) ∧
        ∀ u ∈ enum.values, c.max = some (labels.label u) →
          (columnOrder ord a.typ a.collation).le u w))

/-- An index column of the enum type.  All positions of its heap column have its type,
and an enum type has no collations. -/
structure EnumColumn (enum : EnumType pg) (attrs : List (IndexAttr D)) (a : IndexAttr D) :
    Prop where
  mem : a ∈ summarized attrs
  typ : a.typ = enum.typ
  same : ∀ b ∈ attrs, b.attnum = a.attnum → b.typ = a.typ ∧ b.collation = a.collation

end Sound

/-! ## One insert -/

section Insert

variable {enum : EnumType pg} {ord : pg.BtreeOrder} {a : IndexAttr D} {labels : Labels enum.values}
  {rows : List (Row D)} {row : Row D}

variable (ord) in
/-- The bounds that a fold of a value leaves, and what those before it are read as. -/
theorem widenMinmax_labels {g : Guc} {c c' : ColSummary} {collation : Oid} {value : D}
    {changed : Bool} (hvalue : value ∈ enum.values)
    (h : widenMinmax (enum.server labels) g c enum.typ collation value = .ok (some (c', changed))) :
    let le := (columnOrder ord enum.typ collation).le
    ∃ lo hi, lo ∈ enum.values ∧ hi ∈ enum.values ∧
      c' = { c with min := some (labels.label lo), max := some (labels.label hi) } ∧
      le lo value ∧ le value hi ∧
      ((c.min = none ∧ c.max = none ∧ lo = value ∧ hi = value) ∨
        ∃ lo₀ hi₀, lo₀ ∈ enum.values ∧ hi₀ ∈ enum.values ∧ c.min = some (labels.label lo₀) ∧
          c.max = some (labels.label hi₀) ∧ le lo lo₀ ∧ le hi₀ hi ∧ (lo = lo₀ ∨ lo = value) ∧
          (hi = hi₀ ∨ hi = value)) := by
  intro le
  obtain ⟨newText, htext, hcases⟩ := widenMinmax_cases h
  obtain rfl : labels.label value = newText :=
    Option.some.inj (Except.ok.inj ((EnumType.server_datumToText hvalue).symm.trans htext))
  rcases hcases with ⟨hmin, hmax, -, rfl⟩ | ⟨s, t, cmp, lo, hi, below, above, hmin, hmax, hcmp, hlo,
    hhi, hbelow, habove, -, rfl⟩
  · have hrefl := (columnOrder ord enum.typ collation).le_refl value
    exact ⟨value, value, hvalue, hvalue, rfl, hrefl, hrefl, Or.inl ⟨hmin, hmax, rfl, rfl⟩⟩
  · rw [show (enum.server labels).getBaseType enum.typ = enum.typ from enum.baseType] at hlo hhi
    obtain ⟨hlomem, rfl⟩ := EnumType.of_server_textToDatum hlo
    obtain ⟨hhimem, rfl⟩ := EnumType.of_server_textToDatum hhi
    obtain ⟨⟨hlole, hlov⟩, hhile, hvhi⟩ := bounds_step (enum.order ord labels) hcmp hbelow habove
    refine ⟨if below < 0 then value else lo, if 0 < above then value else hi, ?_, ?_, ?_,
      hlov, hvhi,
      Or.inr ⟨lo, hi, hlomem, hhimem, hmin, hmax, hlole, hhile, ?_, ?_⟩⟩
    · split <;> assumption
    · split <;> assumption
    · congr 2 <;> exact (apply_ite labels.label _ _ _).symm
    · split <;> simp
    · split <;> simp

omit [DecidableEq D] in
theorem ReadsAround.of_subset {rows' : List (Row D)} {c : ColSummary}
    (h : ReadsAround ord a labels rows c) (hsub : rows' ⊆ rows) :
    ReadsAround ord a labels rows' c where
  collation := h.collation
  empty hov hunb hmin r hr := h.empty hov hunb hmin r (hsub hr)
  lower hov hunb w hw hmin r hr := h.lower hov hunb w hw hmin r (hsub hr)
  upper hov hunb w hw hmax r hr := h.upper hov hunb w hw hmax r (hsub hr)

omit [DecidableEq D] in
/-- Entries without btree bounds are read around anything. -/
theorem readsAround_of_noBounds {c : ColSummary} (hcoll : c.collation = a.collation)
    (h : c.overlap = true ∨ c.unbounded = true) : ReadsAround ord a labels rows c where
  collation := hcoll
  empty hov hunb := by simp [hov, hunb] at h
  lower hov hunb := by simp [hov, hunb] at h
  upper hov hunb := by simp [hov, hunb] at h

omit [DecidableEq D] in
theorem neverNarrower_refl (c : ColSummary) : NeverNarrower ord a labels row c c :=
  fun _ => Or.inr ⟨Or.inl rfl, Or.inl rfl⟩

/-- A fold of a value into bounds around the values before. -/
theorem widenMinmax_readsAround (htyp : a.typ = enum.typ) {g : Guc} {c c' : ColSummary} {value : D}
    {changed : Bool} (hvalue : value ∈ enum.values) (hrow : row a.attnum = some value)
    (hov : c.overlap = false) (hunb : c.unbounded = false) (hc : ReadsAround ord a labels rows c)
    (h : widenMinmax (enum.server labels) g c a.typ a.collation value = .ok (some (c', changed))) :
    ReadsAround ord a labels (row :: rows) c' := by
  rw [htyp] at h
  obtain ⟨lo, hi, hlo, hhi, rfl, hlov, hvhi, hbounds⟩ := widenMinmax_labels ord hvalue h
  rw [← htyp] at hlov hvhi hbounds
  let _ := columnOrder ord a.typ a.collation
  -- the new bounds lie around the old values as well
  have hold : ∀ r ∈ rows, ∀ v, r a.attnum = some v → lo ≤ v ∧ v ≤ hi := by
    intro r hr v hv
    rcases hbounds with ⟨hmin, -, -, -⟩ | ⟨lo₀, hi₀, hlo₀, hhi₀, hmin, hmax, hlole, hhile, -, -⟩
    · rw [hc.empty hov hunb hmin r hr] at hv
      cases hv
    · exact ⟨le_trans hlole (hc.lower hov hunb lo₀ hlo₀ hmin r hr v hv),
        le_trans (hc.upper hov hunb hi₀ hhi₀ hmax r hr v hv) hhile⟩
  refine ⟨hc.collation, by simp, ?_, ?_⟩
  · intro _ _ w hw hmin r hr v hv
    obtain rfl : lo = w := labels.injective lo hlo w hw (Option.some.inj hmin)
    rcases List.mem_cons.mp hr with rfl | hr
    · rw [hrow] at hv
      cases hv
      exact hlov
    · exact (hold r hr v hv).1
  · intro _ _ w hw hmax r hr v hv
    obtain rfl : hi = w := labels.injective hi hhi w hw (Option.some.inj hmax)
    rcases List.mem_cons.mp hr with rfl | hr
    · rw [hrow] at hv
      cases hv
      exact hvhi
    · exact (hold r hr v hv).2

/-- A second fold of the value leaves what the first has put there. -/
theorem widenMinmax_neverNarrower (htyp : a.typ = enum.typ) {g : Guc} {c₀ c c' : ColSummary}
    {value : D} {changed : Bool} (hvalue : value ∈ enum.values) (hrow : row a.attnum = some value)
    (hunb : c.unbounded = false) (hc : NeverNarrower ord a labels row c₀ c)
    (h : widenMinmax (enum.server labels) g c a.typ a.collation value = .ok (some (c', changed))) :
    NeverNarrower ord a labels row c₀ c' := by
  rw [htyp] at h
  obtain ⟨lo, hi, hlo, hhi, rfl, hlov, hvhi, hbounds⟩ := widenMinmax_labels ord hvalue h
  rw [← htyp] at hlov hvhi hbounds
  intro hov
  obtain ⟨hmin, hmax⟩ := (hc hov).resolve_left (by simp [hunb])
  let _ := columnOrder ord a.typ a.collation
  refine Or.inr ⟨?_, ?_⟩
  · rcases hbounds with ⟨hnone, -, rfl, -⟩ | ⟨lo₀, -, hlo₀, -, hsome, -, hle, -, rfl | rfl, -⟩
    · rcases hmin with hmin | ⟨w, -, hmin, -⟩
      · exact Or.inr ⟨lo, hrow, rfl, fun u _ hu => by simp [← hmin, hnone] at hu⟩
      · cases hnone.symm.trans hmin
    · rw [hsome] at hmin
      exact hmin
    · refine Or.inr ⟨lo, hrow, rfl, fun u hu hmin₀ => ?_⟩
      rcases hmin with hmin | ⟨w, hw, -, hle⟩
      · obtain rfl : lo₀ = u := labels.injective lo₀ hlo₀ u hu
          (Option.some.inj (hsome.symm.trans (hmin.trans hmin₀)))
        exact hle
      · obtain rfl : lo = w := Option.some.inj (hrow.symm.trans hw)
        exact hle u hu hmin₀
  · rcases hbounds with ⟨-, hnone, -, rfl⟩ | ⟨-, hi₀, -, hhi₀, -, hsome, -, hle, -, rfl | rfl⟩
    · rcases hmax with hmax | ⟨w, -, hmax, -⟩
      · exact Or.inr ⟨hi, hrow, rfl, fun u _ hu => by simp [← hmax, hnone] at hu⟩
      · cases hnone.symm.trans hmax
    · rw [hsome] at hmax
      exact hmax
    · refine Or.inr ⟨hi, hrow, rfl, fun u hu hmax₀ => ?_⟩
      rcases hmax with hmax | ⟨w, hw, -, hle⟩
      · obtain rfl : hi₀ = u := labels.injective hi₀ hhi₀ u hu
          (Option.some.inj (hsome.symm.trans (hmax.trans hmax₀)))
        exact hle
      · obtain rfl : hi = w := Option.some.inj (hrow.symm.trans hw)
        exact hle u hu hmax₀

variable (ord a labels rows row) in
/-- What is known of the entry that was `c₀` when the row came, from the first fold of
the row's value on. -/
structure Folding (c₀ c : ColSummary) : Prop where
  reads : ReadsAround ord a labels (row :: rows) c
  narrower : NeverNarrower ord a labels row c₀ c

/-- One position of the column folds the row's value into the entry. -/
theorem widenColumn_folding (htyp : a.typ = enum.typ) {g : Guc} {c₀ c c' : ColSummary}
    {changed : Bool} (htyped : EnumTyped enum a.attnum row) (hc : ReadsAround ord a labels rows c)
    (hnarrow : NeverNarrower ord a labels row c₀ c) (hov₀ : c₀.overlap = c.overlap)
    (h : widenColumn (enum.server labels) g c a.typ a.collation (row a.attnum) =
      .ok (c', changed)) :
    Folding ord a labels rows row c₀ c' := by
  have hsame := widenColumn_sameColumn h
  have hcoll : c'.collation = a.collation := hsame.collation.trans hc.collation
  cases hrow : row a.attnum with
  | none =>
      rw [hrow] at h
      have hbounds : c'.min = c.min ∧ c'.max = c.max ∧ c'.unbounded = c.unbounded := by
        simp only [widenColumn] at h
        split at h <;> cases h <;> exact ⟨rfl, rfl, rfl⟩
      obtain ⟨hmin, hmax, hunb⟩ := hbounds
      constructor
      · refine ⟨hcoll, ?_, ?_, ?_⟩
        · rw [hsame.overlap, hunb, hmin]
          intro hov hunb hmin r hr
          rcases List.mem_cons.mp hr with rfl | hr
          · exact hrow
          · exact hc.empty hov hunb hmin r hr
        · rw [hsame.overlap, hunb, hmin]
          intro hov hunb w hw hmin r hr v hv
          rcases List.mem_cons.mp hr with rfl | hr
          · cases hrow.symm.trans hv
          · exact hc.lower hov hunb w hw hmin r hr v hv
        · rw [hsame.overlap, hunb, hmax]
          intro hov hunb w hw hmax r hr v hv
          rcases List.mem_cons.mp hr with rfl | hr
          · cases hrow.symm.trans hv
          · exact hc.upper hov hunb w hw hmax r hr v hv
      · unfold NeverNarrower
        rw [hmin, hmax, hunb]
        exact hnarrow
  | some value =>
      rw [hrow] at h
      simp only [widenColumn] at h
      split at h
      · rename_i hunb
        cases h
        exact ⟨readsAround_of_noBounds hcoll (Or.inr hunb), fun _ => Or.inl hunb⟩
      · rename_i hunb
        obtain ⟨widened, hwidened, h⟩ := bind_eq_ok.mp h
        cases widened with
        | none =>
            cases h
            exact ⟨readsAround_of_noBounds hcoll (Or.inr rfl), fun _ => Or.inl rfl⟩
        | some r =>
            obtain ⟨w, ch⟩ := r
            cases h
            unfold widenBounds at hwidened
            split at hwidened
            · rename_i hov
              have hov : c.overlap = true := hov
              refine ⟨readsAround_of_noBounds hcoll (Or.inl (hsame.overlap.trans hov)),
                fun hno => ?_⟩
              exact absurd (hov.symm.trans (hov₀.symm.trans hno)) (by decide)
            · rename_i hov
              have hov : c.overlap = false := eq_false_of_ne_true hov
              have hunb : c.unbounded = false := eq_false_of_ne_true hunb
              let d : ColSummary := { c with allNulls := false }
              have hd : ReadsAround ord a labels rows d :=
                ⟨hc.collation, hc.empty, hc.lower, hc.upper⟩
              have hnarrow : NeverNarrower ord a labels row c₀ d := hnarrow
              have hvalue : value ∈ enum.values := htyped value hrow
              constructor
              · exact widenMinmax_readsAround (c := d) htyp hvalue hrow hov hunb hd hwidened
              · exact widenMinmax_neverNarrower (c := d) htyp hvalue hrow hunb hnarrow hwidened

end Insert

/-! ## Every history -/

section Sound

variable {enum : EnumType pg} {ord : pg.BtreeOrder} {attrs : List (IndexAttr D)} {a : IndexAttr D}
  {labels : Labels enum.values} {rows : List (Row D)} {row : Row D} {s : IndexSummary}

/-- The first entry of a heap column is an entry of the summary. -/
theorem firstEntry_spec {cols : List ColSummary} {n : Int16} {c : ColSummary}
    (h : firstEntry cols n = some c) : c ∈ cols ∧ c.attnum = n :=
  ⟨List.mem_of_find?_eq_some h, by simpa using List.find?_some h⟩

omit [DecidableEq D] in
theorem EnumColumn.pos (column : EnumColumn enum attrs a) : 0 < a.attnum :=
  (mem_summarized.mp column.mem).2

/-- A whole insert folds the row's value into the first entry of the column. -/
theorem widenStable_folding (column : EnumColumn enum attrs a) {session : Session}
    {s' : IndexSummary}
    {changed : Bool} (htyped : EnumTyped enum a.attnum row) {c₀ : ColSummary}
    (hc₀ : firstEntry s.cols a.attnum = some c₀) (hreads : ReadsAround ord a labels rows c₀)
    (h : widenStable (enum.server labels) session attrs row s = .ok (s', changed)) {c' : ColSummary}
    (hc' : firstEntry s'.cols a.attnum = some c') : Folding ord a labels rows row c₀ c' := by
  obtain ⟨⟨cols, _⟩, hcols, h⟩ := bind_eq_ok.mp (widenStable_eq_ok h)
  cases h
  refine (widenSummaryFrom_firstEntry column.pos (P := fun c => c = c₀)
    (Q := fun c => Folding ord a labels rows row c₀ c ∧ c₀.overlap = c.overlap) ?_
    (fun i b hb => indexTuple_eq (by simpa using hb) row) hcols (fun c hc => ?_) hc').1
  · intro b hb hattnum c c' ch hc hwiden
    obtain ⟨htyp, hcoll⟩ := column.same b hb hattnum
    rw [htyp, hcoll] at hwiden
    have hbefore : ReadsAround ord a labels rows c ∧ NeverNarrower ord a labels row c₀ c ∧
        c₀.overlap = c.overlap := by
      rcases hc with rfl | ⟨hc, hov⟩
      · exact ⟨hreads, neverNarrower_refl c, rfl⟩
      · exact ⟨hc.reads.of_subset (List.subset_cons_self row rows), hc.narrower, hov⟩
    refine ⟨widenColumn_folding column.typ htyped hbefore.1 hbefore.2.1 hbefore.2.2 hwiden, ?_⟩
    exact hbefore.2.2.trans (widenColumn_sameColumn hwiden).overlap.symm
  · have hmem : a.attnum ∈ attrs.map IndexAttr.attnum :=
      List.mem_map_of_mem (mem_summarized.mp column.mem).1
    rw [if_pos hmem]
    exact Or.inl (Option.some.inj (hc.symm.trans hc₀))

/-- A build leaves bounds around the rows of its scan. -/
theorem buildLeafSummary_readsAround (column : EnumColumn enum attrs a) {session : Session}
    (htyped : ∀ row ∈ rows, EnumTyped enum a.attnum row)
    (h : buildLeafSummary (enum.server labels) session attrs rows = .ok s) {c : ColSummary}
    (hc : firstEntry s.cols a.attnum = some c) : ReadsAround ord a labels rows c := by
  obtain ⟨hmem, hattnum⟩ := firstEntry_spec hc
  obtain ⟨b, hb, hentry, hextremes⟩ := Lib.Aligned.forall₂_mem_right
    (buildLeafSummary_extremes (enum.order ord labels) h) c hmem
  obtain ⟨hbmem, hbpos⟩ := mem_summarized.mp hb
  have hba : b.attnum = a.attnum := hentry.attnum.symm.trans hattnum
  obtain ⟨htyp, hcoll⟩ := column.same b hbmem hba
  have hvalue (r : Row D) : b.value r = r a.attnum := by rw [b.value_of_pos hbpos, hba]
  have hrows {v : D} (hv : some v ∈ rows.map b.value) : v ∈ enum.values := by
    obtain ⟨r, hr, hrv⟩ := List.mem_map.mp hv
    exact htyped r hr v ((hvalue r).symm.trans hrv)
  have hseen {r : Row D} (hr : r ∈ rows) {v : D} (hv : r a.attnum = some v) :
      some v ∈ rows.map b.value :=
    List.mem_map.mpr ⟨r, hr, (hvalue r).trans hv⟩
  have hlabel {t : String} {v : D} (hv : some v ∈ rows.map b.value)
      (ht : (enum.server labels).Renders b.typ t v) : labels.label v = t := by
    rw [htyp, column.typ] at ht
    exact EnumType.label_of_renders (hrows hv) ht
  have horder : columnOrder (enum.order ord labels) b.typ b.collation =
      columnOrder ord a.typ a.collation := by
    rw [htyp, hcoll]
    rfl
  refine ⟨hentry.collation.trans hcoll, ?_, ?_, ?_⟩
  · intro hov hunb hmin r hr
    rcases hextremes hov hunb with ⟨hnone, -, -⟩ | ⟨s, t, lo, hi, hs, -⟩
    · exact (hvalue r).symm.trans (hnone _ (List.mem_map_of_mem hr))
    · cases hmin.symm.trans hs
  · intro hov hunb w hw hmin r hr v hv
    rcases hextremes hov hunb with ⟨-, hnone, -⟩ | ⟨s, t, lo, hi, hs, -, hlo, -, hspans⟩
    · cases hmin.symm.trans hnone
    · obtain rfl : lo = w := labels.injective lo (hrows hspans.lower) w hw
        ((hlabel hspans.lower hlo).trans (Option.some.inj (hs.symm.trans hmin)))
      exact horder ▸ (hspans.between v (hseen hr hv)).1
  · intro hov hunb w hw hmax r hr v hv
    rcases hextremes hov hunb with ⟨-, -, hnone⟩ | ⟨s, t, lo, hi, -, ht, -, hhi, hspans⟩
    · cases hmax.symm.trans hnone
    · obtain rfl : hi = w := labels.injective hi (hrows hspans.upper) w hw
        ((hlabel hspans.upper hhi).trans (Option.some.inj (ht.symm.trans hmax)))
      exact horder ▸ (hspans.between v (hseen hr hv)).2

/-- A rename leaves a bound alone, or has it read as a value beyond all others. -/
theorem ReadsAround.rename {labels' : Labels enum.values} {v : D} {new : String} {c : ColSummary}
    (h : ReadsAround ord a labels rows c)
    (hlabel : labels'.label = Function.update labels.label v new)
    (hkeeps : RenameKeeps ord a s rows v new) (hc : firstEntry s.cols a.attnum = some c) :
    ReadsAround ord a labels' rows c := by
  obtain ⟨hmin, hmax⟩ := hkeeps c hc
  refine ⟨h.collation, h.empty, ?_, ?_⟩
  · intro hov hunb w hw hbound
    by_cases hwv : w = v
    · subst hwv
      rw [hlabel, Function.update_self] at hbound
      exact hmin hbound
    · rw [hlabel, Function.update_of_ne hwv] at hbound
      exact h.lower hov hunb w hw hbound
  · intro hov hunb w hw hbound
    by_cases hwv : w = v
    · subst hwv
      rw [hlabel, Function.update_self] at hbound
      exact hmax hbound
    · rw [hlabel, Function.update_of_ne hwv] at hbound
      exact h.upper hov hunb w hw hbound

/-- However the history went on, the bounds are read as values around those of the
column. -/
theorem EnumRun.readsAround (column : EnumColumn enum attrs a)
    (h : EnumRun enum attrs a.attnum (RenameKeeps ord a) labels s rows) {c : ColSummary}
    (hc : firstEntry s.cols a.attnum = some c) : ReadsAround ord a labels rows c := by
  induction h generalizing c with
  | build htyped h => exact buildLeafSummary_readsAround column htyped h hc
  | @insert labels session rows row s s' changed _ htyped h ih =>
      obtain ⟨⟨cols, _⟩, hcols, hs'⟩ := bind_eq_ok.mp (widenStable_eq_ok h)
      cases hs'
      obtain ⟨c₀, hc₀, -⟩ := Lib.Aligned.forall₂_find? (fun d d' hsame => by
        rw [hsame.attnum]) (widenSummaryFrom_sameColumn hcols) hc
      exact (widenStable_folding column htyped hc₀ (ih hc₀) h hc).reads
  | @fit labels rows s _ ih =>
      obtain ⟨d, hd, hdrop⟩ := Lib.Aligned.forall₂_find? (fun d d' hdrop => by
        rcases hdrop with rfl | ⟨-, rfl⟩ <;> rfl) (encodeFitting_dropped s) hc
      rcases hdrop with rfl | ⟨-, rfl⟩
      · exact ih hd
      · exact readsAround_of_noBounds (ih hd).collation (Or.inr rfl)
  | rename _ _ hlabel hok ih => exact (ih hc).rename hlabel hok hc

/-- The values are inside the bounds that an operator of the enum type reads. -/
theorem ReadsAround.encloses (htyp : a.typ = enum.typ) {c : ColSummary} {op : CompareOp} {g : Guc}
    (h : ReadsAround ord a labels rows c)
    (hparse : summaryParseType pg op.varType enum.typ = enum.typ)
    (hfamily : pg.defaultBtreeFamily op.varType = some (pg.columnFamily enum.typ))
    (hov : c.overlap = false) (hrow : row ∈ rows) {v : D} (hv : row a.attnum = some v) :
    Encloses (enum.order ord labels) g c op a.typ v := by
  intro lo hi family cmp hbounds hfamily' _
  obtain ⟨hunb, s, t, hs, ht, hlo, hhi⟩ := parsedBounds_spec hbounds
  have hparse' : summaryParseType (enum.server labels) op.varType a.typ = enum.typ := by
    rw [htyp]
    exact hparse
  rw [hparse'] at hlo hhi
  obtain ⟨hlomem, rfl⟩ := EnumType.of_server_textToDatum hlo
  obtain ⟨hhimem, rfl⟩ := EnumType.of_server_textToDatum hhi
  have hlov := h.lower hov hunb lo hlomem hs row hrow v hv
  have hvhi := h.upper hov hunb hi hhimem ht row hrow v hv
  obtain rfl : family = pg.columnFamily enum.typ := Option.some.inj (hfamily'.symm.trans hfamily)
  rw [htyp] at hlov hvhi
  rw [h.collation]
  exact @Comparison.Within.of_mem D (ord.order (pg.columnFamily enum.typ) a.collation) _ _ _ _
    ⟨hlov, hvhi⟩

/-- In every history whose renames are harmless, a prune on the column loses no row, and
no insert replaces a bound by a narrower one. -/
theorem enumRun_sound {ex : Executor D} (laws : ex.BtreeLaws ord) (column : EnumColumn enum attrs a)
    (h : EnumRun enum attrs a.attnum (RenameKeeps ord a) labels s rows) :
    (∀ (g : Guc) (node : Node D) (opno : Oid) (commuted : Bool) (op : CompareOp),
      ColumnLeaf a opno commuted node → compareOp pg opno commuted = some op →
      summaryParseType pg op.varType enum.typ = enum.typ →
      pg.defaultBtreeFamily op.varType = some (pg.columnFamily enum.typ) →
      leafProvesPrune (enum.server labels) g s.cols node = .ok true →
      ∀ row ∈ rows, ex.truth (enum.server labels) row node ≠ some true) ∧
    (∀ (session : Session) (row : Row D) (s' : IndexSummary) (changed : Bool) (c c' : ColSummary),
      EnumTyped enum a.attnum row →
      widenStable (enum.server labels) session attrs row s = .ok (s', changed) →
      firstEntry s.cols a.attnum = some c → firstEntry s'.cols a.attnum = some c' →
      NeverNarrower ord a labels row c c' ∧ ReadsAround ord a labels (row :: rows) c') := by
  constructor
  · intro g node opno commuted op hnode hop hparse hfamily hprune row hrow
    have laws' : ex.BtreeLaws (enum.order ord labels) :=
      ⟨laws.strict_left, laws.strict_right, laws.compare⟩
    refine hnode.sound laws' hop (fun c hc hov v hv => ?_) hprune
    exact (h.readsAround column hc).encloses column.typ hparse hfamily hov hrow hv
  · intro session row s' changed c c' htyped hwiden hc hc'
    have hfolding := widenStable_folding column htyped hc (h.readsAround column hc) hwiden hc'
    exact ⟨hfolding.narrower, hfolding.reads⟩

end Sound

section Mini

/-- An enum type of four values. -/
def letters : EnumType (Mini.pg fun _ _ => id) where
  typ := Mini.int4
  values := [0, 1, 2, 3]
  enumOut := Mini.int4
  enumIn := Mini.int4
  baseType := rfl
  typeOutput := rfl
  typeInput := rfl
  enumOut_valid := by decide
  enumIn_valid := by decide

def abcd : Labels letters.values where
  label v := if v = 0 then "a" else if v = 1 then "b" else if v = 2 then "c" else "d"
  injective := by decide
  noNul := by decide

/-- After `RENAME VALUE 'd' TO 'x'`. -/
def abcx : Labels letters.values where
  label := Function.update abcd.label 3 "x"
  injective := by decide
  noNul := by decide

/-- After `RENAME VALUE 'b' TO 'd'` as well. -/
def adcx : Labels letters.values where
  label := Function.update abcx.label 1 "d"
  injective := by decide
  noNul := by decide

/-- After `RENAME VALUE 'b' TO 'y'` alone. -/
def aycd : Labels letters.values where
  label := Function.update abcd.label 1 "y"
  injective := by decide
  noNul := by decide

/-- The entry with the bounds `s` and `t`. -/
def letterEntry (s t : String) : ColSummary :=
  { Mini.entry 0 0 with min := some s, max := some t }

theorem letters_build (ok : IndexSummary → List (Row Int) → Int → String → Prop) :
    EnumRun letters Mini.index.attrs 1 ok abcd ⟨[letterEntry "a" "d"]⟩
      [Mini.row 0, Mini.row 3] := by
  have htyped : ∀ row ∈ [Mini.row 0, Mini.row 3], EnumTyped letters 1 row := by
    intro row hrow v hv
    rcases List.mem_pair.mp hrow with rfl | rfl <;> cases hv <;> decide
  have hbuilt : buildLeafSummary (letters.server abcd) Mini.session Mini.index.attrs
      [Mini.row 0, Mini.row 3] = .ok ⟨[letterEntry "a" "d"]⟩ := by decide +kernel
  exact .build htyped hbuilt

/-- The second value has become the one with the label 'd', and the fourth one is
pruned away; an insert of the third one makes the upper bound smaller. -/
theorem not_enumRun_sound_reusedLabel :
    EnumRun letters Mini.index.attrs 1 (fun _ _ _ _ => True) adcx ⟨[letterEntry "a" "d"]⟩
        [Mini.row 0, Mini.row 3] ∧
      leafProvesPrune (letters.server adcx) Mini.session.guc [letterEntry "a" "d"]
        (Mini.compareNode 3 3) = .ok true ∧
      (Mini.executor fun _ _ => id).truth (letters.server adcx) (Mini.row 3)
        (Mini.compareNode 3 3) = some true ∧
      widenStable (letters.server adcx) Mini.session Mini.index.attrs (Mini.row 2)
        ⟨[letterEntry "a" "d"]⟩ = .ok (⟨[letterEntry "a" "c"]⟩, true) ∧
      abcd.label 2 = "c" ∧ abcd.label 3 = "d" := by
  refine ⟨?_, by decide +kernel, by decide +kernel, by decide +kernel, rfl, rfl⟩
  have habcx : EnumRun letters Mini.index.attrs 1 (fun _ _ _ _ => True) abcx
      ⟨[letterEntry "a" "d"]⟩ [Mini.row 0, Mini.row 3] :=
    .rename (letters_build _) (v := 3) (by decide) rfl trivial
  exact .rename habcx (v := 1) (by decide) rfl trivial

/-- A rename to a new label. -/
theorem enumRun_sound_newLabel :
    leafProvesPrune (letters.server aycd) Mini.session.guc [letterEntry "a" "d"]
        (Mini.compareNode 5 3) = .ok true ∧
      (Mini.executor fun _ _ => id).truth (letters.server aycd) (Mini.row 3)
        (Mini.compareNode 5 3) ≠ some true := by
  have hprune : leafProvesPrune (letters.server aycd) Mini.session.guc [letterEntry "a" "d"]
      (Mini.compareNode 5 3) = .ok true := by decide +kernel
  have hrun : EnumRun letters Mini.index.attrs 1
      (RenameKeeps (Mini.order fun _ _ => id) (Mini.index.attrs.head (by decide))) aycd
      ⟨[letterEntry "a" "d"]⟩ [Mini.row 0, Mini.row 3] := by
    refine .rename (letters_build _) (v := 1) (by decide) rfl fun c hc => ?_
    cases hc
    exact ⟨fun hno => absurd hno (by decide), fun hno => absurd hno (by decide)⟩
  have hcolumn : EnumColumn letters Mini.index.attrs (Mini.index.attrs.head (by decide)) := by
    refine ⟨by simp [Mini.index, summarized], rfl, fun b hb _ => ?_⟩
    obtain rfl := List.mem_singleton.mp hb
    exact ⟨rfl, rfl⟩
  have hvc : varConst (.var 1 Mini.int4) (.const Mini.int4 (some (3 : Int))) =
      some ⟨1, Mini.int4, Mini.int4, some 3, false⟩ := rfl
  refine ⟨hprune, (enumRun_sound (Mini.btreeLaws fun _ _ => id) hcolumn hrun).1 _ _
    (Mini.op Mini.int4 5) false _
    (.compare hvc rfl rfl) rfl rfl rfl hprune (Mini.row 3) (by simp)⟩

end Mini

end TableRange
