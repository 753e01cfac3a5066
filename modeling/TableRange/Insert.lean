import TableRange.Build

/-!
# Widening a summary on insert

`src/index_am.rs`: `widenColumn` and the two folds it dispatches to,
`widenSummary` over the index's columns, and one pass of the loop of
`widen_on_insert`.

A fold returns `none` when it could not take the value in; the column then
becomes unbounded.  `widenAttempt` is what a pass does between reading the page
and swapping it, and it touches nothing shared.
-/

namespace TableRange

open Lib.Fallible

variable {D : Type}

/-! ## One column -/

/-- `none`: the value could not be compared against the stored bounds. -/
def widenMinmax (pg : Pg D) (g : Guc) (col : ColSummary) (typ collation : Oid) (value : D) :
    PgResult (Option (ColSummary × Bool)) := do
  -- domains compare and parse as their base type
  let base := pg.getBaseType typ
  match ← pg.datumToText g typ value with
  | none => .ok none
  | some newText =>
      match col.min, col.max with
      | some min, some max =>
          match pg.btreeCmpProc base with
          | none => .ok none
          | some cmp =>
              match ← pg.textToDatum g base min with
              | none => .ok none
              | some minD =>
                  match ← pg.textToDatum g base max with
                  | none => .ok none
                  | some maxD => do
                      let below ← pg.compareCall cmp collation value minD
                      let above ← pg.compareCall cmp collation value maxD
                      .ok (some
                        ({ col with
                            min := if below < 0 then some newText else some min
                            max := if 0 < above then some newText else some max },
                          decide (below < 0) || decide (0 < above)))
      -- no range yet: seed it with this value
      | none, none => .ok (some ({ col with min := some newText, max := some newText }, true))
      | _, _ => .ok none

/-- The character `'` is doubled. -/
def sqlLiteral (s : String) : String :=
  let body := s.toList.flatMap fun c => if c = '\'' then ['\'', '\''] else [c]
  "'" ++ String.ofList body ++ "'"

/-- The query of `geometry_extent_with` over the given values. -/
def extentQuery (ns tn : String) (texts : List String) : String :=
  let rows := ", ".intercalate (texts.map fun t => "(CAST(" ++ sqlLiteral t ++ " AS " ++ tn ++ "))")
  s!"SELECT {ns}.st_extent(g)::{tn}::pg_catalog.text FROM (VALUES {rows}) v(g)"

/-- `some none` if neither the stored extent nor `value` has one. -/
def geometryExtentWith (pg : Pg D) (g : Guc) (col : ColSummary) (typ : Oid) (value : D) :
    PgResult (Option (Option String)) := do
  match ← pg.datumToText g typ value with
  | none => .ok none
  | some newText =>
      let ns := geometrySchema col.typeName
      let extent ← pg.spiValue (extentQuery ns col.typeName (newText :: col.min.toList))
      .ok (some extent)

/-- The stored extent merged with `value`; without one, `value` itself. -/
def mergedExtent (pg : Pg D) (g : Guc) (col : ColSummary) (typ : Oid) (value : D) :
    PgResult (Option D) :=
  match col.min with
  | none => .ok (some value)
  | some ext => do
      match ← pg.textToDatum g (pg.getBaseType typ) ext with
      | none => .ok none
      | some ext => do
          let merged ← pg.rangeMerge ext value
          .ok (some merged)

/-- The `range_merge` branch of `widen_overlap`. -/
def rangeExtentWith (pg : Pg D) (g : Guc) (col : ColSummary) (typ : Oid) (value : D) :
    PgResult (Option (Option String)) := do
  match ← mergedExtent pg g col typ value with
  | none => .ok none
  | some merged =>
      match ← pg.datumToText g typ merged with
      | none => .ok none
      | some text => .ok (some (some text))

/-- The `is_geometry` test of `widen_overlap`. -/
def extentWith (pg : Pg D) (g : Guc) (col : ColSummary) (typ : Oid) (value : D) :
    PgResult (Option (Option String)) :=
  if endsWith col.typeName ".geometry" then geometryExtentWith pg g col typ value
  else rangeExtentWith pg g col typ value

/-- `none`: the new extent could not be computed. -/
def widenOverlap (pg : Pg D) (g : Guc) (col : ColSummary) (typ : Oid) (value : D) :
    PgResult (Option (ColSummary × Bool)) := do
  match ← extentWith pg g col typ value with
  | none => .ok none
  | some (some w) =>
      if col.min ≠ some w then .ok (some ({ col with min := some w }, true))
      else .ok (some (col, false))
  -- an empty geometry has no extent: nothing to cover
  | some none => .ok (some (col, false))

/-- The dispatch of `widen_column`. -/
def widenBounds (pg : Pg D) (g : Guc) (col : ColSummary) (typ collation : Oid) (value : D) :
    PgResult (Option (ColSummary × Bool)) :=
  if col.overlap then widenOverlap pg g col typ value
  else widenMinmax pg g col typ collation value

/-- The widened column, and whether it changed. -/
def widenColumn (pg : Pg D) (g : Guc) (col : ColSummary) (typ collation : Oid)
    (value : Option D) : PgResult (ColSummary × Bool) :=
  match value with
  | none =>
      if !col.hasNulls then .ok ({ col with hasNulls := true }, true)
      else .ok (col, false)
  | some value =>
      let changed := col.allNulls
      let col := { col with allNulls := false }
      if col.unbounded then .ok (col, changed)
      else do
        match ← widenBounds pg g col typ collation value with
        | some (col, c) => .ok (col, changed || c)
        | none => .ok (col.makeUnbounded, true)

/-! ### What a fold leaves alone -/

/-- What a fold into btree bounds has found and done. -/
theorem widenMinmax_cases {pg : Pg D} {g : Guc} {c c' : ColSummary} {typ collation : Oid}
    {value : D}
    {changed : Bool} (h : widenMinmax pg g c typ collation value = .ok (some (c', changed))) :
    ∃ newText, pg.datumToText g typ value = .ok (some newText) ∧
      ((c.min = none ∧ c.max = none ∧ changed = true ∧
          c' = { c with min := some newText, max := some newText }) ∨
        ∃ s t cmp lo hi below above, c.min = some s ∧ c.max = some t ∧
          pg.btreeCmpProc (pg.getBaseType typ) = some cmp ∧
          pg.textToDatum g (pg.getBaseType typ) s = .ok (some lo) ∧
          pg.textToDatum g (pg.getBaseType typ) t = .ok (some hi) ∧
          pg.compareCall cmp collation value lo = .ok below ∧
          pg.compareCall cmp collation value hi = .ok above ∧
          changed = (decide (below < 0) || decide (0 < above)) ∧
          c' = { c with
            min := some (if below < 0 then newText else s)
            max := some (if 0 < above then newText else t) }) := by
  obtain ⟨text, htext, h⟩ := bind_eq_ok.mp h
  cases text with
  | none => cases h
  | some newText =>
      refine ⟨newText, htext, ?_⟩
      simp only at h
      split at h
      · rename_i s t hs ht
        split at h
        · cases h
        · rename_i cmp hcmp
          obtain ⟨minD, hmin, h⟩ := bind_eq_ok.mp h
          cases minD with
          | none => cases h
          | some lo =>
              obtain ⟨maxD, hmax, h⟩ := bind_eq_ok.mp h
              cases maxD with
              | none => cases h
              | some hi =>
                  obtain ⟨below, hbelow, h⟩ := bind_eq_ok.mp h
                  obtain ⟨above, habove, h⟩ := bind_eq_ok.mp h
                  cases h
                  refine Or.inr ⟨s, t, cmp, lo, hi, below, above, hs, ht, hcmp, hmin, hmax, hbelow,
                    habove, rfl, ?_⟩
                  congr 1 <;> split <;> rfl
      · rename_i hs ht
        cases h
        exact Or.inl ⟨hs, ht, rfl, rfl⟩
      · cases h

theorem widenMinmax_frame {pg : Pg D} {g : Guc} {c c' : ColSummary} {typ collation : Oid}
    {value : D}
    {changed : Bool} (h : widenMinmax pg g c typ collation value = .ok (some (c', changed))) :
    c' = { c with min := c'.min, max := c'.max } := by
  obtain ⟨newText, -, ⟨-, -, -, rfl⟩ | ⟨s, t, cmp, lo, hi, below, above, -, -, -, -, -, -, -, -,
    rfl⟩⟩ :=
    widenMinmax_cases h
  · rfl
  · rfl

theorem widenOverlap_frame {pg : Pg D} {g : Guc} {c c' : ColSummary} {typ : Oid} {value : D}
    {changed : Bool} (h : widenOverlap pg g c typ value = .ok (some (c', changed))) :
    c' = { c with min := c'.min, max := c'.max } := by
  obtain ⟨extent, -, h⟩ := bind_eq_ok.mp h
  cases extent with
  | none => cases h
  | some extent =>
      cases extent with
      | none =>
          cases h
          rfl
      | some w =>
          simp only at h
          split at h <;> cases h <;> rfl

/-- A fold changes the bounds and nothing else. -/
theorem widenBounds_frame {pg : Pg D} {g : Guc} {c c' : ColSummary} {typ collation : Oid}
    {value : D}
    {changed : Bool} (h : widenBounds pg g c typ collation value = .ok (some (c', changed))) :
    c' = { c with min := c'.min, max := c'.max } := by
  unfold widenBounds at h
  split at h
  · exact widenOverlap_frame h
  · exact widenMinmax_frame h

theorem widenMinmax_unchanged {pg : Pg D} {g : Guc} {c c' : ColSummary} {typ collation : Oid}
    {value : D} (h : widenMinmax pg g c typ collation value = .ok (some (c', false))) : c' = c := by
  obtain ⟨newText, -, ⟨-, -, hno, -⟩ | ⟨s, t, cmp, lo, hi, below, above, hs, ht, -, -, -, -, -, hno,
    rfl⟩⟩ := widenMinmax_cases h
  · cases hno
  · have hno := hno.symm
    simp only [Bool.or_eq_false_iff, decide_eq_false_iff_not] at hno
    rw [if_neg hno.1, if_neg hno.2, ← hs, ← ht]

theorem widenOverlap_unchanged {pg : Pg D} {g : Guc} {c c' : ColSummary} {typ : Oid} {value : D}
    (h : widenOverlap pg g c typ value = .ok (some (c', false))) : c' = c := by
  obtain ⟨extent, -, h⟩ := bind_eq_ok.mp h
  cases extent with
  | none => cases h
  | some extent =>
      cases extent with
      | none =>
          cases h
          rfl
      | some w =>
          simp only at h
          split at h
          · cases h
          · cases h
            rfl

/-- A column that is reported unchanged is. -/
theorem widenColumn_unchanged {pg : Pg D} {g : Guc} {c c' : ColSummary} {typ collation : Oid}
    {value : Option D} (h : widenColumn pg g c typ collation value = .ok (c', false)) : c' = c := by
  cases value with
  | none =>
      simp only [widenColumn] at h
      split at h
      · cases h
      · cases h
        rfl
  | some value =>
      simp only [widenColumn] at h
      split at h
      · simp only [Except.ok.injEq, Prod.mk.injEq] at h
        obtain ⟨rfl, hall⟩ := h
        rw [← hall]
      · obtain ⟨widened, hwidened, h⟩ := bind_eq_ok.mp h
        cases widened with
        | none => cases h
        | some r =>
            obtain ⟨w, ch⟩ := r
            simp only [Except.ok.injEq, Prod.mk.injEq, Bool.or_eq_false_iff] at h
            obtain ⟨rfl, hall, rfl⟩ := h
            have hsame : w = { c with allNulls := false } := by
              unfold widenBounds at hwidened
              split at hwidened
              · exact widenOverlap_unchanged hwidened
              · exact widenMinmax_unchanged hwidened
            rw [hsame, ← hall]

/-- What no update of an entry changes. -/
structure SameColumn (c c' : ColSummary) : Prop where
  attnum : c'.attnum = c.attnum
  overlap : c'.overlap = c.overlap
  typeName : c'.typeName = c.typeName
  collation : c'.collation = c.collation
  /-- Bounds that have been given up do not come back. -/
  unbounded : c.unbounded = true → c'.unbounded = true

theorem SameColumn.refl (c : ColSummary) : SameColumn c c :=
  ⟨rfl, rfl, rfl, rfl, id⟩

theorem SameColumn.trans {c c' c'' : ColSummary} (h : SameColumn c c') (h' : SameColumn c' c'') :
    SameColumn c c'' :=
  ⟨h'.attnum.trans h.attnum, h'.overlap.trans h.overlap, h'.typeName.trans h.typeName,
    h'.collation.trans h.collation, fun hunb => h'.unbounded (h.unbounded hunb)⟩

/-- An entry stays the entry of its column. -/
theorem widenColumn_sameColumn {pg : Pg D} {g : Guc} {c c' : ColSummary} {typ collation : Oid}
    {value : Option D} {changed : Bool}
    (h : widenColumn pg g c typ collation value = .ok (c', changed)) : SameColumn c c' := by
  cases value with
  | none =>
      simp only [widenColumn] at h
      split at h <;> cases h <;> exact ⟨rfl, rfl, rfl, rfl, id⟩
  | some value =>
      simp only [widenColumn] at h
      split at h
      · cases h
        exact ⟨rfl, rfl, rfl, rfl, id⟩
      · obtain ⟨widened, hwidened, h⟩ := bind_eq_ok.mp h
        cases widened with
        | none =>
            cases h
            exact ⟨rfl, rfl, rfl, rfl, fun _ => rfl⟩
        | some r =>
            obtain ⟨w, ch⟩ := r
            cases h
            rw [widenBounds_frame hwidened]
            exact ⟨rfl, rfl, rfl, rfl, id⟩

/-! ## The whole summary -/

/-- `summary.cols.iter_mut().find(|c| c.attnum == heap_attnum)`, and the update
of the column that is found.  Without one the loop continues. -/
def widenFirst (attnum : Int16) (f : ColSummary → PgResult (ColSummary × Bool)) :
    List ColSummary → PgResult (List ColSummary × Bool)
  | [] => .ok ([], false)
  | c :: cs =>
      if c.attnum = attnum then do
        let (c, changed) ← f c
        .ok (c :: cs, changed)
      else do
        let (cs, changed) ← widenFirst attnum f cs
        .ok (c :: cs, changed)

/-- The loop of `widen_summary` from index position `pos` on. -/
def widenSummaryFrom (pg : Pg D) (g : Guc) (tuple : Nat → Option D) :
    Nat → List (IndexAttr D) → List ColSummary → PgResult (List ColSummary × Bool)
  | _, [], cols => .ok (cols, false)
  | pos, a :: attrs, cols => do
      let (cols, c) ←
        widenFirst a.attnum (fun col => widenColumn pg g col a.typ a.collation (tuple pos)) cols
      let (cols, changed) ← widenSummaryFrom pg g tuple (pos + 1) attrs cols
      .ok (cols, c || changed)

def widenSummary (pg : Pg D) (g : Guc) (attrs : List (IndexAttr D)) (row : Row D)
    (summary : IndexSummary) : PgResult (IndexSummary × Bool) := do
  let (cols, changed) ← widenSummaryFrom pg g (indexTuple attrs row) 0 attrs summary.cols
  .ok (⟨cols⟩, changed)

/-- The entries stay in place. -/
theorem widenFirst_sameColumn {attnum : Int16} {f : ColSummary → PgResult (ColSummary × Bool)}
    (hf : ∀ c c' changed, f c = .ok (c', changed) → SameColumn c c') {cols cols' : List ColSummary}
    {changed : Bool} (h : widenFirst attnum f cols = .ok (cols', changed)) :
    List.Forall₂ SameColumn cols cols' := by
  induction cols generalizing cols' with
  | nil =>
      cases h
      exact .nil
  | cons c cols ih =>
      rw [widenFirst] at h
      split at h
      · obtain ⟨⟨c', _⟩, hc', h⟩ := bind_eq_ok.mp h
        cases h
        exact .cons (hf _ _ _ hc') (List.forall₂_same.mpr fun c _ => .refl c)
      · obtain ⟨⟨rest, _⟩, hrest, h⟩ := bind_eq_ok.mp h
        cases h
        exact .cons (.refl c) (ih hrest)

theorem widenSummaryFrom_sameColumn {pg : Pg D} {g : Guc} {tuple : Nat → Option D} {pos : Nat}
    {attrs : List (IndexAttr D)} {cols cols' : List ColSummary} {changed : Bool}
    (h : widenSummaryFrom pg g tuple pos attrs cols = .ok (cols', changed)) :
    List.Forall₂ SameColumn cols cols' := by
  induction attrs generalizing pos cols cols' changed with
  | nil =>
      cases h
      exact List.forall₂_same.mpr fun c _ => .refl c
  | cons a attrs ih =>
      obtain ⟨⟨cols₁, _⟩, hfirst, h⟩ := bind_eq_ok.mp h
      obtain ⟨⟨cols₂, _⟩, hrest, h⟩ := bind_eq_ok.mp h
      cases h
      exact Lib.Aligned.forall₂_comp (fun _ _ _ h h' => h.trans h')
        (widenFirst_sameColumn (fun _ _ _ hc => widenColumn_sameColumn hc) hfirst) (ih hrest)

theorem SameColumn.attnums {cols cols' : List ColSummary} (h : List.Forall₂ SameColumn cols cols') :
    cols'.map ColSummary.attnum = cols.map ColSummary.attnum :=
  (Lib.Aligned.forall₂_map_eq (fun _ _ hsame => hsame.attnum.symm) h).symm

theorem widenFirst_unchanged {attnum : Int16} {f : ColSummary → PgResult (ColSummary × Bool)}
    (hf : ∀ c c', f c = .ok (c', false) → c' = c) {cols cols' : List ColSummary}
    (h : widenFirst attnum f cols = .ok (cols', false)) : cols' = cols := by
  induction cols generalizing cols' with
  | nil =>
      cases h
      rfl
  | cons c cols ih =>
      rw [widenFirst] at h
      split at h
      · obtain ⟨⟨c', _⟩, hc', h⟩ := bind_eq_ok.mp h
        cases h
        rw [hf _ _ hc']
      · obtain ⟨⟨rest, _⟩, hrest, h⟩ := bind_eq_ok.mp h
        cases h
        rw [ih hrest]

/-- A summary that is reported unchanged is. -/
theorem widenSummary_unchanged {pg : Pg D} {g : Guc} {attrs : List (IndexAttr D)} {row : Row D}
    {s s' : IndexSummary} (h : widenSummary pg g attrs row s = .ok (s', false)) : s' = s := by
  have hloop : ∀ {attrs : List (IndexAttr D)} {tuple : Nat → Option D} {pos : Nat}
      {cols cols' : List ColSummary},
      widenSummaryFrom pg g tuple pos attrs cols = .ok (cols', false) → cols' = cols := by
    intro attrs tuple
    induction attrs with
    | nil =>
        intro pos cols cols' h
        cases h
        rfl
    | cons a attrs ih =>
        intro pos cols cols' h
        obtain ⟨⟨cols₁, c⟩, hfirst, h⟩ := bind_eq_ok.mp h
        obtain ⟨⟨cols₂, changed⟩, hrest, h⟩ := bind_eq_ok.mp h
        simp only [Except.ok.injEq, Prod.mk.injEq, Bool.or_eq_false_iff] at h
        obtain ⟨rfl, rfl, rfl⟩ := h
        rw [ih hrest, widenFirst_unchanged (fun _ _ hc => widenColumn_unchanged hc) hfirst]
  obtain ⟨⟨cols, changed⟩, hcols, h⟩ := bind_eq_ok.mp h
  cases h
  rw [hloop hcols]

/-! ## One pass of the loop -/

/-- What a pass decides from the blob it has read: to return, or to swap the
blob `before` for `after`. -/
inductive Attempt
  | done
  | swap (before after : Bytes)
deriving DecidableEq, Repr

/-- The `with_stable_io` call of `widen_on_insert`. -/
def widenStable (pg : Pg D) (session : Session) (attrs : List (IndexAttr D)) (row : Row D)
    (summary : IndexSummary) : PgResult (IndexSummary × Bool) :=
  match withStableIo session fun g => widenSummary pg g attrs row summary with
  | some widened => widened
  | none => .error "table_range: cannot maintain a summary in parallel mode"

/-- The summary is widened under the pinned settings. -/
theorem widenStable_eq_ok {pg : Pg D} {session : Session} {attrs : List (IndexAttr D)} {row : Row D}
    {s : IndexSummary} {r : IndexSummary × Bool} (h : widenStable pg session attrs row s = .ok r) :
    widenSummary pg session.guc.pin attrs row s = .ok r := by
  unfold widenStable at h
  split at h
  · rename_i hpinned
    exact (withStableIo_eq_some hpinned).symm.trans h
  · cases h

/-- The part of a pass between `read_blob` and `replace_blob_if`. -/
def widenAttempt (pg : Pg D) (session : Session) (attrs : List (IndexAttr D)) (row : Row D)
    (blob : Option Bytes) : PgResult Attempt :=
  match blob with
  | none => .ok .done
  | some before =>
      match deserialize before with
      -- no readable summary: the planner never prunes with it
      | none => .ok .done
      | some summary => do
          let (summary, changed) ← widenStable pg session attrs row summary
          if changed then .ok (.swap before (encodeFitting summary).2) else .ok .done

/-- One pass of the loop on a page nobody else writes meanwhile.  `false`: the
blob was not the one read, and the loop starts again. -/
def widenPass (pg : Pg D) (session : Session) (attrs : List (IndexAttr D)) (row : Row D)
    (file : IndexFile) : PgResult Bool × IndexFile :=
  match widenAttempt pg session attrs row (readBlob file) with
  | .error e => (.error e, file)
  | .ok .done => (.ok true, file)
  | .ok (.swap before after) => replaceBlobIf file before after

/-- `am_insert` when nobody else writes the page: passes until one returns. -/
inductive AmInsert (pg : Pg D) (session : Session) (attrs : List (IndexAttr D)) (row : Row D) :
    IndexFile → PgResult Unit → IndexFile → Prop
  | done {file file' : IndexFile} (h : widenPass pg session attrs row file = (.ok true, file')) :
      AmInsert pg session attrs row file (.ok ()) file'
  | error {file file' : IndexFile} {e : String}
      (h : widenPass pg session attrs row file = (.error e, file')) :
      AmInsert pg session attrs row file (.error e) file'
  | retry {file file' file'' : IndexFile} {r : PgResult Unit}
      (h : widenPass pg session attrs row file = (.ok false, file'))
      (hrest : AmInsert pg session attrs row file' r file'') :
      AmInsert pg session attrs row file r file''

/-! ## Without contention one pass is enough -/

/-- The summary that is read is the decoded blob. -/
theorem readSummary_eq_some {file : IndexFile} {s : IndexSummary} (h : readSummary file = some s) :
    ∃ before, readBlob file = some before ∧ deserialize before = some s :=
  Option.bind_eq_some_iff.mp h

/-- A row that widens the summary, when the result fits as it is. -/
theorem amInsert_widened {pg : Pg D} {session : Session} {attrs : List (IndexAttr D)}
    {row : Row D} {file : IndexFile} {s s' : IndexSummary} (hs : readSummary file = some s)
    (hwiden : widenStable pg session attrs row s = .ok (s', true))
    (hfits : (serialize s').length ≤ maxBlobLen) :
    ∃ file', AmInsert pg session attrs row file (.ok ()) file' ∧ readSummary file' = some s' := by
  obtain ⟨before, hbefore, hdecode⟩ := readSummary_eq_some hs
  have hattempt : widenAttempt pg session attrs row (readBlob file) =
      .ok (.swap before (serialize s')) := by
    simp [widenAttempt, hbefore, hdecode, hwiden, encodeFitting_of_fits hfits, bind, Except.bind]
  rcases replaceBlobIf_cases file before (serialize s') with ⟨hbig, -⟩ | ⟨-, hno, -⟩ |
    ⟨-, -, page, hswap, hread⟩
  · omega
  · exact absurd hbefore hno
  · refine ⟨some page, .done (by rw [widenPass, hattempt]; exact hswap), ?_⟩
    rw [readSummary, show readBlob (some page) = some (serialize s') from hread
      (serialize_ne_nil s')]
    exact deserialize_of_fits hfits

end TableRange
