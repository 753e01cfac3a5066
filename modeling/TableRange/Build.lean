import TableRange.Postgres
import TableRange.Storage.Fitting

/-!
# Building a leaf's summary

`src/summary_build.rs` and `am_build` of `src/index_am.rs`.  The index-build
scan hands every row to `buildCallback`, each column folds the value at its
index position into its `Accumulator`, and `finish` renders the accumulators.

The scan runs under the session's own settings; only `finish` runs under the
pinned ones.
-/

namespace TableRange

open Lib.Fallible

variable {D : Type}

/-- Values collected before `ST_Extent` is called. -/
def geometryBatch : Nat := 1000

inductive Accumulator (D : Type)
  | minMax (cmp : Oid) (min max : Option D)
  | range (extent : Option D)
  | geometry (batch : List D) (extent : Option String)
  /-- Stored as unbounded. -/
  | unsupported

structure ColumnBuild (D : Type) where
  /-- Index into the build callback's `values`. -/
  indexPos : Nat
  attnum : Int16
  typ : Oid
  typeName : String
  collation : Oid
  nonnull : Nat
  nulls : Nat
  acc : Accumulator D

/-! ## Type names -/

/-- `str::strip_suffix`. -/
def stripSuffix (s suffix : String) : Option String :=
  if suffix.toList.isSuffixOf s.toList then
    some (String.ofList (s.toList.take (s.toList.length - suffix.toList.length)))
  else none

def endsWith (s suffix : String) : Bool := (stripSuffix s suffix).isSome

/-- PostGIS functions live in the same schema as its `geometry` type. -/
def geometrySchema (typeName : String) : String :=
  (stripSuffix typeName ".geometry").getD "public"

/-! ## Planning the columns -/

/-- The accumulator a column of this type gets. -/
def planAccumulator (pg : Pg D) (typ : Oid) : Accumulator D :=
  let base := pg.getBaseType typ
  if pg.getTyplen typ = -2 then .unsupported
  else if pg.getTyptype base = 'r' then .range none
  else if (pg.typeNameParts base).any fun parts => parts.2 == "geometry" then .geometry [] none
  else
    match pg.btreeCmpProc base with
    | some proc => .minMax proc none none
    | none => .unsupported

/-- The columns from index position `pos` on.  Expression columns are not
summarized. -/
def planColumnsFrom (pg : Pg D) (quoteAll : Bool) :
    Nat → List (IndexAttr D) → PgResult (List (ColumnBuild D))
  | _, [] => .ok []
  | pos, a :: attrs =>
      if a.attnum ≤ 0 then planColumnsFrom pg quoteAll (pos + 1) attrs
      else do
        let typeName ← pg.qualifiedTypeName quoteAll a.typ
        let cols ← planColumnsFrom pg quoteAll (pos + 1) attrs
        .ok ({ indexPos := pos, attnum := a.attnum, typ := a.typ, typeName
               collation := a.collation, nonnull := 0, nulls := 0
               acc := planAccumulator pg a.typ } :: cols)

def planColumns (pg : Pg D) (session : Session) (attrs : List (IndexAttr D)) :
    PgResult (List (ColumnBuild D)) :=
  planColumnsFrom pg session.quoteAllIdentifiers 0 attrs

/-! ## Folding in the rows -/

/-- The query of `flush_geometry`. -/
def flushQuery (ns ty : String) : String :=
  s!"SELECT {ns}.st_extent(g)::{ty}::pg_catalog.text FROM pg_catalog.unnest($1) AS g"

/-- The previous extent joins the batch as one more element. -/
def flushBatch (pg : Pg D) (g : Guc) (typ : Oid) (batch : List D) :
    Option String → PgResult (List D)
  | none => .ok batch
  | some text => do
      match ← pg.textToDatum g typ text with
      | some d => .ok (batch ++ [d])
      | none => .error "table_range: cannot re-read geometry extent"

def flushGeometry (pg : Pg D) (g : Guc) (col : ColumnBuild D) : PgResult (ColumnBuild D) :=
  match col.acc with
  | .geometry batch extent => do
      let batch ← flushBatch pg g (pg.getBaseType col.typ) batch extent
      if batch.isEmpty then .ok col
      else do
        let result ←
          pg.spiExecuteWithArgs (flushQuery (geometrySchema col.typeName) col.typeName) batch
        -- NULL: every value was empty, so there is nothing to cover yet
        .ok { col with acc := .geometry [] (result.bind fromUtf8) }
  | _ => .ok col

/-- `ColumnBuild::add`. -/
def addValue (pg : Pg D) (g : Guc) (col : ColumnBuild D) (value : D) : PgResult (ColumnBuild D) :=
  match col.acc with
  | .minMax cmp (some lo) (some hi) => do
      let below ← pg.compareCall cmp col.collation value lo
      let above ← pg.compareCall cmp col.collation value hi
      .ok { col with
            acc := .minMax cmp (some (if below < 0 then value else lo))
              (some (if 0 < above then value else hi)) }
  | .minMax cmp _ _ => .ok { col with acc := .minMax cmp (some value) (some value) }
  | .range none => .ok { col with acc := .range (some value) }
  | .range (some old) => do
      let merged ← pg.rangeMerge old value
      .ok { col with acc := .range (some merged) }
  | .geometry batch extent =>
      let col := { col with acc := .geometry (batch ++ [value]) extent }
      if geometryBatch ≤ (batch ++ [value]).length then flushGeometry pg g col else .ok col
  | .unsupported => .ok col

/-- `values` and `isnull` of the scan's callback. -/
def indexTuple (attrs : List (IndexAttr D)) (row : Row D) : Nat → Option D := fun i =>
  attrs[i]?.bind fun a => a.value row

theorem indexTuple_eq {attrs : List (IndexAttr D)} {i : Nat} {a : IndexAttr D}
    (h : attrs[i]? = some a) (row : Row D) : indexTuple attrs row i = a.value row := by
  simp [indexTuple, h]

/-- The body of the loop of `build_callback`. -/
def buildColumn (pg : Pg D) (g : Guc) (tuple : Nat → Option D) (col : ColumnBuild D) :
    PgResult (ColumnBuild D) :=
  match tuple col.indexPos with
  | none => .ok { col with nulls := col.nulls + 1 }
  | some value => addValue pg g { col with nonnull := col.nonnull + 1 } value

def buildCallback (pg : Pg D) (g : Guc) (cols : List (ColumnBuild D)) (tuple : Nat → Option D) :
    PgResult (List (ColumnBuild D)) :=
  cols.mapM (buildColumn pg g tuple)

/-! ### What a fold leaves alone -/

/-- The algorithm an accumulator stands for. -/
inductive Kind
  | minMax | range | geometry | unsupported
deriving DecidableEq, Repr

def Accumulator.kind : Accumulator D → Kind
  | .minMax .. => .minMax
  | .range _ => .range
  | .geometry .. => .geometry
  | .unsupported => .unsupported

/-- The same column, with an accumulator of the same kind. -/
structure SameBuild (col col' : ColumnBuild D) : Prop where
  indexPos : col'.indexPos = col.indexPos
  attnum : col'.attnum = col.attnum
  typ : col'.typ = col.typ
  typeName : col'.typeName = col.typeName
  collation : col'.collation = col.collation
  nonnull : col'.nonnull = col.nonnull
  nulls : col'.nulls = col.nulls
  kind : col'.acc.kind = col.acc.kind

theorem SameBuild.of_acc (col : ColumnBuild D) {acc : Accumulator D} (h : acc.kind = col.acc.kind) :
    SameBuild col { col with acc } :=
  ⟨rfl, rfl, rfl, rfl, rfl, rfl, rfl, h⟩

theorem flushGeometry_same {pg : Pg D} {g : Guc} {col col' : ColumnBuild D}
    (h : flushGeometry pg g col = .ok col') : SameBuild col col' := by
  unfold flushGeometry at h
  split at h
  · rename_i hacc
    obtain ⟨batch, -, h⟩ := bind_eq_ok.mp h
    split at h
    · cases h
      exact .of_acc col rfl
    · obtain ⟨result, -, h⟩ := bind_eq_ok.mp h
      cases h
      exact .of_acc col (by rw [hacc]; rfl)
  · cases h
    exact .of_acc col rfl

theorem addValue_same {pg : Pg D} {g : Guc} {col col' : ColumnBuild D} {value : D}
    (h : addValue pg g col value = .ok col') : SameBuild col col' := by
  unfold addValue at h
  split at h
  · rename_i hacc
    obtain ⟨below, -, h⟩ := bind_eq_ok.mp h
    obtain ⟨above, -, h⟩ := bind_eq_ok.mp h
    cases h
    exact .of_acc col (by rw [hacc]; rfl)
  · rename_i hacc
    cases h
    exact .of_acc col (by rw [hacc]; rfl)
  · rename_i hacc
    cases h
    exact .of_acc col (by rw [hacc]; rfl)
  · rename_i hacc
    obtain ⟨merged, -, h⟩ := bind_eq_ok.mp h
    cases h
    exact .of_acc col (by rw [hacc]; rfl)
  · rename_i batch extent hacc
    simp only at h
    split at h
    · have hsame := flushGeometry_same h
      exact ⟨hsame.indexPos, hsame.attnum, hsame.typ, hsame.typeName, hsame.collation,
        hsame.nonnull, hsame.nulls, by rw [hsame.kind, hacc]; rfl⟩
    · cases h
      exact .of_acc col (by rw [hacc]; rfl)
  · cases h
    exact .of_acc col rfl

/-! ## Rendering the summary -/

/-- `and_then(|d| datum_to_text(col.typ, d))`. -/
def renderBound (pg : Pg D) (g : Guc) (typ : Oid) : Option D → PgResult (Option String)
  | some d => pg.datumToText g typ d
  | none => .ok none

/-- `overlap`, the two bounds and `unbounded`, before lost bounds are noticed. -/
def renderBounds (pg : Pg D) (g : Guc) (col : ColumnBuild D) :
    PgResult (Bool × Option String × Option String × Bool) :=
  match col.acc with
  | .minMax _ min max => do
      let min ← renderBound pg g col.typ min
      let max ← renderBound pg g col.typ max
      .ok (false, min, max, false)
  | .range extent => do
      let min ← renderBound pg g col.typ extent
      .ok (true, min, none, false)
  | .geometry _ extent => .ok (true, extent, none, false)
  | .unsupported => .ok (false, none, none, true)

/-- A bound that could not be rendered is unknown, not absent. -/
def Accumulator.lostBound (acc : Accumulator D) (min max : Option String) : Bool :=
  match acc with
  | .minMax _ _ _ => min.isNone || max.isNone
  | .range _ => min.isNone
  | _ => false

/-- The entry of a column, before lost bounds are noticed. -/
def ColumnBuild.entry (col : ColumnBuild D) (overlap : Bool) (min max : Option String)
    (unbounded : Bool) : ColSummary :=
  { attnum := col.attnum, overlap, typeName := col.typeName, collation := col.collation, min, max
    hasNulls := decide (0 < col.nulls)
    allNulls := decide (col.nonnull = 0 ∧ 0 < col.nulls)
    unbounded }

def ColumnBuild.settle (col : ColumnBuild D) (out : ColSummary) : ColSummary :=
  if out.unbounded || (decide (0 < col.nonnull) && col.acc.lostBound out.min out.max) then
    out.makeUnbounded
  else out

/-- The body of the loop of `finish`. -/
def finishColumn (pg : Pg D) (g : Guc) (col : ColumnBuild D) : PgResult ColSummary := do
  let col ← flushGeometry pg g col
  let (overlap, min, max, unbounded) ← renderBounds pg g col
  .ok (col.settle (col.entry overlap min max unbounded))

def finish (pg : Pg D) (g : Guc) (cols : List (ColumnBuild D)) : PgResult IndexSummary := do
  let cols ← cols.mapM (finishColumn pg g)
  .ok ⟨cols⟩

/-- The scan visits `rows`, recently dead ones included. -/
def buildLeafSummary (pg : Pg D) (session : Session) (attrs : List (IndexAttr D))
    (rows : List (Row D)) : PgResult IndexSummary := do
  let planned ← planColumns pg session attrs
  let cols ← (rows.map (indexTuple attrs)).foldlM (buildCallback pg session.guc) planned
  match withStableIo session fun g => finish pg g cols with
  | some summary => summary
  | none => .error "table_range: cannot build a summary in parallel mode"

/-- What `CREATE INDEX` says about the index: its columns, and whether it has a
predicate. -/
structure IndexDef (D : Type) where
  attrs : List (IndexAttr D)
  hasPredicate : Bool

/-- The file of the new index.  An `ERROR` fails `CREATE INDEX`. -/
def amBuild (pg : Pg D) (session : Session) (index : IndexDef D) (file : IndexFile)
    (rows : List (Row D)) : PgResult IndexFile :=
  if index.hasPredicate then .error "table_range indexes cannot be partial"
  else do
    let built ← buildLeafSummary pg session index.attrs rows
    match writeSummary file built with
    | (.ok (), file') => .ok file'
    | (.error e, _) => .error e

/-- A summary that fits is on the page after the build. -/
theorem amBuild_eq_ok {pg : Pg D} {session : Session} {index : IndexDef D} {rows : List (Row D)}
    {summary : IndexSummary} (hpred : index.hasPredicate = false)
    (hbuilt : buildLeafSummary pg session index.attrs rows = .ok summary)
    (hfits : (serialize summary).length ≤ maxBlobLen) (file : IndexFile) :
    ∃ file', amBuild pg session index file rows = .ok file' ∧ readSummary file' = some summary := by
  have hwrite : writeSummary file summary =
      (.ok (), some (putBlob (file.getD .new) (serialize summary) hfits)) := by
    rw [writeSummary, encodeFitting_of_fits hfits, writeBlob, dif_pos hfits]
  refine ⟨some (putBlob (file.getD .new) (serialize summary) hfits), ?_, ?_⟩
  · simp [amBuild, hpred, hbuilt, hwrite, bind, Except.bind]
  · rw [readSummary_writeSummary hwrite, encodeFitting_of_fits hfits]

end TableRange
