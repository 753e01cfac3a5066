import TableRange.Coverage.Build
import TableRange.Lib.Ownership
import TableRange.MiniPg

/-!
# The memory of a build

`Build.lean` takes a datum for its value.  Here a datum of a type that is passed by
reference is a pointer, and the rows that the scan hands over are gone after the callback:
`src/summary_build.rs` copies what it keeps, frees what it no longer needs, and gets from
`range_merge` a pointer that may be one of the arguments.

`buildLeafSummary_memory` says that the build with pointers is the build with values: no
pointer is used after it was freed, nothing is freed twice, and the build leaves nothing
behind.  `scanRows_blocks` bounds what it holds meanwhile, however many rows it has seen.

The blocks of `FmgrInfo`, which live as long as the build, are left out.  So is what the
server's functions allocate and free on their own.
-/

namespace TableRange

open Lib.Ownership Lib.Fallible

variable {D : Type}

/-! ## Datums in memory -/

/-- `build_cxt`, the context of the scan that is reset for every row, and all others. -/
inductive BuildContext
  | build | tuple | other
deriving DecidableEq, Repr

inductive Content (D : Type)
  | datum (d : D)
  | array (elems : List D)

structure Block (D : Type) where
  cxt : BuildContext
  content : Content D

/-- A `Datum`: the value itself, or a pointer to it. -/
inductive Word (D : Type)
  | val (d : D)
  | ptr (p : Ptr)
deriving DecidableEq, Repr

abbrev MemProg (D : Type) := Prog (Block D) String

/-- What `range_merge` hands back: one of its arguments, or a range of its own. -/
inductive Merged (D : Type)
  | left
  | right
  | fresh (d : D)

def Merged.value (a b : D) : Merged D → D
  | .left => a
  | .right => b
  | .fresh d => d

/-- How the server passes datums. -/
structure Passing (pg : Pg D) where
  typbyval : Oid → Bool
  /-- A domain is passed as its base type is. -/
  typbyval_base : ∀ typ, typbyval (pg.getBaseType typ) = typbyval typ
  merge : D → D → PgResult (Merged D)
  rangeMerge : ∀ a b, pg.rangeMerge a b = (merge a b).map (Merged.value a b)

/-! ## The build -/

def Word.read : Word D → MemProg D D
  | .val d => pure d
  | .ptr p => do
      match (← Lib.Ownership.read p).content with
      | .datum d => pure d
      | .array _ => fault

/-- Runs in the build's context. -/
def copyDatum (value : Word D) (typbyval : Bool) : MemProg D (Word D) :=
  if typbyval then pure value
  else do
    let d ← value.read
    let copy ← alloc ⟨.build, .datum d⟩
    pure (.ptr copy)

def freeDatum (value : Word D) (typbyval : Bool) : MemProg D Unit :=
  if typbyval then pure ()
  else
    match value with
    | .ptr p => free p
    | .val _ => fault

/-- `value` takes the place of `old`. -/
def replaceDatum (old value : Word D) (typbyval : Bool) : MemProg D (Word D) := do
  freeDatum old typbyval
  copyDatum value typbyval

def callCmp (pg : Pg D) (cmp collation : Oid) (a b : Word D) : MemProg D Int := do
  let a ← a.read
  let b ← b.read
  lift (pg.compareCall cmp collation a b)

/-- A datum that a function of the server has made, in the context it was called in. -/
def newDatum (cxt : BuildContext) (typbyval : Bool) (d : D) : MemProg D (Word D) :=
  if typbyval then pure (.val d)
  else do
    let p ← alloc ⟨cxt, .datum d⟩
    pure (.ptr p)

/-- The elements that the query of `flush_geometry` sees. -/
def readArray (p : Ptr) : MemProg D (List D) := do
  match (← Lib.Ownership.read p).content with
  | .datum _ => fault
  | .array elems => pure elems

def Accumulator.map {E : Type} (f : D → E) : Accumulator D → Accumulator E
  | .minMax cmp min max => .minMax cmp (min.map f) (max.map f)
  | .range extent => .range (extent.map f)
  | .geometry batch extent => .geometry (batch.map f) extent
  | .unsupported => .unsupported

/-- The same column with another accumulator. -/
def ColumnBuild.withAcc {E : Type} (col : ColumnBuild D) (acc : Accumulator E) : ColumnBuild E :=
  { col with acc := acc }

namespace Passing

variable {pg : Pg D} (pass : Passing pg)

/-- `range_merge`, called in the build's context. -/
def callMerge [DecidableEq D] (typ : Oid) (old value : Word D) : MemProg D (Word D) := do
  let a ← old.read
  let b ← value.read
  match ← lift (pass.merge a b) with
  | .left => pure old
  | .right => pure value
  | .fresh d => newDatum .build (pass.typbyval typ) d

def flushBatch (g : Guc) (typ : Oid) (batch : List (Word D)) :
    Option String → MemProg D (List (Word D))
  | none => pure batch
  | some text => do
      match ← lift (pg.textToDatum g typ text) with
      | some d => do
          let w ← newDatum .build (pass.typbyval typ) d
          pure (batch ++ [w])
      | none => lift (.error "table_range: cannot re-read geometry extent")

def flushGeometry (g : Guc) (col : ColumnBuild (Word D)) : MemProg D (ColumnBuild (Word D)) :=
  match col.acc with
  | .geometry batch extent => do
      let batch ← pass.flushBatch g (pg.getBaseType col.typ) batch extent
      if batch.isEmpty then pure col
      else do
        let elems ← batch.mapM Word.read
        let array ← alloc ⟨.build, .array elems⟩
        let elems ← readArray array
        let result ← lift
          (pg.spiExecuteWithArgs (flushQuery (geometrySchema col.typeName) col.typeName) elems)
        batch.forM fun d => freeDatum d (pass.typbyval col.typ)
        free array
        pure { col with acc := .geometry [] (result.bind fromUtf8) }
  | _ => pure col

/-- `ColumnBuild::add`. -/
def addValue [DecidableEq D] (g : Guc) (col : ColumnBuild (Word D)) (value : Word D) :
    MemProg D (ColumnBuild (Word D)) :=
  let typbyval := pass.typbyval col.typ
  match col.acc with
  | .minMax cmp (some lo) (some hi) => do
      let below ← callCmp pg cmp col.collation value lo
      let min ← (if below < 0 then replaceDatum lo value typbyval else pure lo)
      let above ← callCmp pg cmp col.collation value hi
      let max ← (if 0 < above then replaceDatum hi value typbyval else pure hi)
      pure { col with acc := .minMax cmp (some min) (some max) }
  | .minMax cmp _ _ => do
      let min ← copyDatum value typbyval
      let max ← copyDatum value typbyval
      pure { col with acc := .minMax cmp (some min) (some max) }
  | .range none => do
      let extent ← copyDatum value typbyval
      pure { col with acc := .range (some extent) }
  | .range (some old) => do
      let merged ← pass.callMerge col.typ old value
      -- `range_merge` may hand back one of its inputs unchanged
      let extent ←
        (if merged = value then replaceDatum old value typbyval
        else if merged ≠ old then do
          freeDatum old typbyval
          pure merged
        else pure merged)
      pure { col with acc := .range (some extent) }
  | .geometry batch extent => do
      let copy ← copyDatum value typbyval
      let col := { col with acc := .geometry (batch ++ [copy]) extent }
      if geometryBatch ≤ (batch ++ [copy]).length then pass.flushGeometry g col else pure col
  | .unsupported => pure col

def buildColumn [DecidableEq D] (g : Guc) (tuple : Nat → Option (Word D))
    (col : ColumnBuild (Word D)) : MemProg D (ColumnBuild (Word D)) :=
  match tuple col.indexPos with
  | none => pure { col with nulls := col.nulls + 1 }
  | some value => pass.addValue g { col with nonnull := col.nonnull + 1 } value

def buildCallback [DecidableEq D] (g : Guc) (cols : List (ColumnBuild (Word D)))
    (tuple : Nat → Option (Word D)) : MemProg D (List (ColumnBuild (Word D))) :=
  cols.mapM (pass.buildColumn g tuple)

/-- The values of the index columns, in the context of the scan. -/
def formTuple (row : Row D) (attrs : List (IndexAttr D)) : MemProg D (List (Option (Word D))) :=
  attrs.mapM fun a =>
    match a.value row with
    | none => pure none
    | some d => do
        let w ← newDatum .tuple (pass.typbyval a.typ) d
        pure (some w)

/-- One row of the scan, which resets its context after the callback. -/
def scanRow [DecidableEq D] (g : Guc) (attrs : List (IndexAttr D))
    (cols : List (ColumnBuild (Word D))) (row : Row D) :
    MemProg D (List (ColumnBuild (Word D))) := do
  let tuple ← pass.formTuple row attrs
  let cols ← pass.buildCallback g cols fun i => (tuple[i]?).join
  release fun b => b.cxt != .tuple
  pure cols

/-- A planned column holds no datum yet. -/
def planColumns (pg : Pg D) (session : Session) (attrs : List (IndexAttr D)) :
    MemProg D (List (ColumnBuild (Word D))) := do
  let cols ← lift (TableRange.planColumns pg session attrs)
  pure (cols.map fun col => col.withAcc (col.acc.map Word.val))

def renderBound (pg : Pg D) (g : Guc) (typ : Oid) : Option (Word D) → MemProg D (Option String)
  | some w => do
      let d ← w.read
      lift (pg.datumToText g typ d)
  | none => pure none

def renderBounds (pg : Pg D) (g : Guc) (col : ColumnBuild (Word D)) :
    MemProg D (Bool × Option String × Option String × Bool) :=
  match col.acc with
  | .minMax _ min max => do
      let min ← renderBound pg g col.typ min
      let max ← renderBound pg g col.typ max
      pure (false, min, max, false)
  | .range extent => do
      let min ← renderBound pg g col.typ extent
      pure (true, min, none, false)
  | .geometry _ extent => pure (true, extent, none, false)
  | .unsupported => pure (false, none, none, true)

def finishColumn (g : Guc) (col : ColumnBuild (Word D)) : MemProg D ColSummary := do
  let col ← pass.flushGeometry g col
  let (overlap, min, max, unbounded) ← renderBounds pg g col
  pure (col.settle (col.entry overlap min max unbounded))

def finish (g : Guc) (cols : List (ColumnBuild (Word D))) : MemProg D IndexSummary := do
  let cols ← cols.mapM (pass.finishColumn g)
  pure ⟨cols⟩

/-- The columns after the rows have been scanned. -/
def scanRows [DecidableEq D] (session : Session) (attrs : List (IndexAttr D))
    (rows : List (Row D)) : MemProg D (List (ColumnBuild (Word D))) := do
  let planned ← planColumns pg session attrs
  rows.foldlM (pass.scanRow session.guc attrs) planned

/-- The build's context is dropped at the end. -/
def buildLeafSummary [DecidableEq D] (session : Session) (attrs : List (IndexAttr D))
    (rows : List (Row D)) : MemProg D IndexSummary := do
  let cols ← pass.scanRows session attrs rows
  match withStableIo session fun g => pass.finish g cols with
  | some finished => do
      let summary ← finished
      release fun b => b.cxt != .build
      pure summary
  | none => lift (.error "table_range: cannot build a summary in parallel mode")

end Passing

/-! ## Words and values -/

abbrev Blocks (D : Type) := List (Ptr × Block D)

/-- The word stands for the value, and owns the block that it points to. -/
inductive WordRep (cxt : BuildContext) : Bool → Word D → D → Blocks D → Prop
  | val (d : D) : WordRep cxt true (.val d) d []
  | ptr (p : Ptr) (d : D) : WordRep cxt false (.ptr p) d [(p, ⟨cxt, .datum d⟩)]

/-- The program returns what the computation returns, and the heap is as before. -/
def Keeps {α : Type} (L : Blocks D) (a b : α) (L' : Blocks D) : Prop := a = b ∧ L' = L

section Words

variable {cxt cxt' : BuildContext} {typbyval : Bool} {w w' : Word D} {d d' : D}
  {L L' Lw Lw' : Blocks D} {other : Block D → Prop}

theorem WordRep.read (hw : WordRep cxt typbyval w d Lw) (hsub : Lw ⊆ L) :
    Refines other L w.read (.ok d) (Keeps L) := by
  cases hw with
  | val d => exact .pure ⟨rfl, rfl⟩
  | ptr p d => exact .read_bind (hsub (List.mem_singleton_self _)) (.pure ⟨rfl, rfl⟩)

theorem newDatum_refines (cxt : BuildContext) (typbyval : Bool) (d : D) :
    Refines other L (newDatum cxt typbyval d) (.ok d) fun w b L' =>
      ∃ Lw, L' = Lw ++ L ∧ WordRep cxt typbyval w b Lw := by
  cases typbyval with
  | true => exact .pure ⟨[], rfl, .val d⟩
  | false => exact .alloc_bind fun p => .pure ⟨[(p, ⟨cxt, .datum d⟩)], rfl, .ptr p d⟩

/-- The copy has a block of its own. -/
theorem WordRep.copyDatum (hw : WordRep cxt typbyval w d Lw) (hsub : Lw ⊆ L) :
    Refines other L (copyDatum w typbyval) (.ok d) fun w' b L' =>
      ∃ Lw', L' = Lw' ++ L ∧ WordRep .build typbyval w' b Lw' := by
  have hread : Refines other L w.read (.ok d) (Keeps L) := hw.read hsub
  cases hw with
  | val d => exact .pure ⟨[], rfl, .val d⟩
  | ptr p d =>
      refine hread.step ?_
      rintro d _ ⟨rfl, rfl⟩
      exact .alloc_bind fun p => .pure ⟨[(p, ⟨.build, .datum d⟩)], rfl, .ptr p d⟩

theorem WordRep.freeDatum (hw : WordRep cxt typbyval w d Lw) (hL : L.Perm (Lw ++ L')) :
    Refines other L (freeDatum w typbyval) (.ok ()) (fun _ _ L'' => L'' = L') := by
  cases hw with
  | val d => exact Refines.perm (.pure rfl) hL
  | ptr p d => exact .free hL rfl

/-- Two words that are equal stand for the same value, and only one of two blocks can be
at a pointer. -/
theorem WordRep.eq_of_nodup (hw : WordRep cxt typbyval w d Lw)
    (hw' : WordRep cxt' typbyval w d' Lw') (hnodup : ((Lw ++ L).map Prod.fst).Nodup)
    (hsub : Lw' ⊆ L) : d = d' ∧ Lw = [] := by
  cases hw with
  | val d =>
      cases hw'
      exact ⟨rfl, rfl⟩
  | ptr p d =>
      cases hw'
      rw [List.singleton_append, List.map_cons, List.nodup_cons] at hnodup
      refine absurd ?_ hnodup.1
      exact List.mem_map.mpr ⟨_, hsub (List.mem_singleton_self _), rfl⟩

theorem WordRep.callCmp {pg : Pg D} (cmp collation : Oid) (hw : WordRep cxt typbyval w d Lw)
    (hw' : WordRep cxt' typbyval w' d' Lw') (hsub : Lw ⊆ L) (hsub' : Lw' ⊆ L) :
    Refines other L (callCmp pg cmp collation w w') (pg.compareCall cmp collation d d')
      (Keeps L) := by
  refine (hw.read hsub).step ?_
  rintro _ _ ⟨rfl, rfl⟩
  refine (hw'.read hsub').step ?_
  rintro _ _ ⟨rfl, rfl⟩
  exact .lift fun _ _ => ⟨rfl, rfl⟩

/-- What `range_merge` has handed back, by which pointer it is. -/
structure MergedRep (typbyval : Bool) (L : Blocks D) (old value : Word D) (a b : D) (w : Word D)
    (d : D) (L' : Blocks D) : Prop where
  right : w = value → d = b ∧ L' = L
  left : w = old → d = a ∧ L' = L
  fresh : w ≠ value → w ≠ old → ∃ Lw, L' = Lw ++ L ∧ WordRep .build typbyval w d Lw

theorem callMerge_refines [DecidableEq D] {pg : Pg D} (pass : Passing pg) {typ : Oid}
    {old value : Word D} {a b : D} {La Lb G : Blocks D}
    (hold : WordRep .build (pass.typbyval typ) old a La)
    (hvalue : WordRep .tuple (pass.typbyval typ) value b Lb) (hsub : Lb ⊆ G) :
    Refines other (La ++ G) (pass.callMerge typ old value) (pg.rangeMerge a b)
      (MergedRep (pass.typbyval typ) (La ++ G) old value a b) := by
  have hLa : La ⊆ La ++ G := List.subset_append_left La G
  have hLb : Lb ⊆ La ++ G := List.Subset.trans hsub (List.subset_append_right La G)
  have hmap : (pass.merge a b).map (Merged.value a b) =
      pass.merge a b >>= fun merged => .ok (merged.value a b) := by
    cases pass.merge a b <;> rfl
  rw [pass.rangeMerge, hmap]
  refine .of_nodup fun hnodup => ?_
  have hsame (h : old = value) : a = b := (hold.eq_of_nodup (h ▸ hvalue) hnodup hsub).1
  refine (hold.read hLa).step ?_
  rintro a _ ⟨rfl, rfl⟩
  refine (hvalue.read hLb).step ?_
  rintro b _ ⟨rfl, rfl⟩
  refine .lift_bind fun merged _ => ?_
  cases merged with
  | left => exact .pure ⟨fun h => ⟨hsame h, rfl⟩, fun _ => ⟨rfl, rfl⟩, fun _ h => absurd rfl h⟩
  | right =>
      exact .pure ⟨fun _ => ⟨rfl, rfl⟩, fun h => ⟨(hsame h.symm).symm, rfl⟩, fun h => absurd rfl h⟩
  | fresh d =>
      refine (newDatum_refines .build (pass.typbyval typ) d).with_nodup.weaken ?_
      rintro w d' _ ⟨⟨Lw, rfl, hw⟩, hnodup⟩
      refine ⟨_, .refl _, fun h => ?_, fun h => ?_, fun _ _ => ⟨Lw, rfl, hw⟩⟩
      · subst h
        obtain ⟨rfl, rfl⟩ := hw.eq_of_nodup hvalue hnodup hLb
        exact ⟨rfl, rfl⟩
      · subst h
        obtain ⟨rfl, rfl⟩ := hw.eq_of_nodup hold hnodup hLa
        exact ⟨rfl, rfl⟩

end Words

/-! ## Accumulators and columns -/

/-- The accumulator owns a copy of each datum that it keeps. -/
inductive AccumulatorRep (typbyval : Bool) :
    Accumulator (Word D) → Accumulator D → Blocks D → Prop
  | minMaxNone (cmp : Oid) :
      AccumulatorRep typbyval (.minMax cmp none none) (.minMax cmp none none) []
  | minMax (cmp : Oid) {lo hi : Word D} {dlo dhi : D} {Llo Lhi : Blocks D}
      (hlo : WordRep .build typbyval lo dlo Llo) (hhi : WordRep .build typbyval hi dhi Lhi) :
      AccumulatorRep typbyval (.minMax cmp (some lo) (some hi)) (.minMax cmp (some dlo) (some dhi))
        (Llo ++ Lhi)
  | rangeNone : AccumulatorRep typbyval (.range none) (.range none) []
  | range {w : Word D} {d : D} {L : Blocks D} (hw : WordRep .build typbyval w d L) :
      AccumulatorRep typbyval (.range (some w)) (.range (some d)) L
  | geometry {ws : List (Word D)} {ds : List D} {L : Blocks D} (extent : Option String)
      (hws : Each (WordRep .build typbyval) ws ds L) (hlen : ds.length < geometryBatch) :
      AccumulatorRep typbyval (.geometry ws extent) (.geometry ds extent) L
  | unsupported : AccumulatorRep typbyval .unsupported .unsupported []

/-- The column with pointers and the column with values. -/
structure ColumnRep {pg : Pg D} (pass : Passing pg) (wcol : ColumnBuild (Word D))
    (col : ColumnBuild D) (L : Blocks D) : Prop where
  same : wcol = col.withAcc wcol.acc
  acc : AccumulatorRep (pass.typbyval col.typ) wcol.acc col.acc L

section Columns

variable {pg : Pg D} {pass : Passing pg} {typbyval : Bool} {L L' G : Blocks D}
  {other : Block D → Prop}

theorem each_read {cxt : BuildContext} {ws : List (Word D)} {ds : List D} {Lws : Blocks D}
    (h : Each (WordRep cxt typbyval) ws ds Lws) (hsub : Lws ⊆ L) :
    Refines other L (ws.mapM Word.read) (.ok ds) (Keeps L) := by
  induction h with
  | nil => exact .pure ⟨rfl, rfl⟩
  | cons hw h ih =>
      rw [List.mapM_cons]
      refine (hw.read (List.append_subset.mp hsub).1).step ?_
      rintro d _ ⟨rfl, rfl⟩
      refine (ih (List.append_subset.mp hsub).2).step ?_
      rintro ds _ ⟨rfl, rfl⟩
      exact .pure ⟨rfl, rfl⟩

theorem each_free {cxt : BuildContext} {ws : List (Word D)} {ds : List D} {Lws : Blocks D}
    (h : Each (WordRep cxt typbyval) ws ds Lws) :
    Refines other (Lws ++ L) (ws.forM fun w => freeDatum w typbyval) (.ok ())
      (fun _ _ L' => L' = L) := by
  induction h with
  | nil => exact .pure rfl
  | @cons w d ws ds Lw Lws hw h ih =>
      show Refines other (Lw ++ Lws ++ L)
        (freeDatum w typbyval >>= fun _ => ws.forM fun w => freeDatum w typbyval) _ _
      have hperm : (Lw ++ Lws ++ L).Perm (Lw ++ (Lws ++ L)) := by rw [List.append_assoc]
      refine (hw.freeDatum hperm).step ?_
      rintro _ _ rfl
      exact ih

theorem readArray_refines {p : Ptr} {cxt : BuildContext} {elems : List D}
    (h : (p, ⟨cxt, .array elems⟩) ∈ L) : Refines other L (readArray p) (.ok elems) (Keeps L) :=
  .read_bind h (.pure ⟨rfl, rfl⟩)

theorem flushBatch_refines (g : Guc) {typ : Oid} {ws : List (Word D)} {ds : List D}
    {Lws : Blocks D} (h : Each (WordRep .build (pass.typbyval typ)) ws ds Lws)
    (extent : Option String) :
    Refines other (Lws ++ G) (pass.flushBatch g typ ws extent) (flushBatch pg g typ ds extent)
      fun ws' ds' L' => ∃ Lws', L' = Lws' ++ G ∧
        Each (WordRep .build (pass.typbyval typ)) ws' ds' Lws' ∧ ds.length ≤ ds'.length := by
  cases extent with
  | none => exact .pure ⟨Lws, rfl, h, le_refl _⟩
  | some text =>
      refine .lift_bind fun read _ => ?_
      cases read with
      | none => exact .error _
      | some d =>
          refine (newDatum_refines .build (pass.typbyval typ) d).step ?_
          rintro w _ ⟨Lw, rfl, hw⟩
          have hperm : (Lw ++ (Lws ++ G)).Perm (Lws ++ Lw ++ G) := by
            rw [← List.append_assoc]
            exact List.perm_append_comm.append_right G
          exact Refines.perm (.pure ⟨Lws ++ Lw, rfl, h.append (.singleton hw), by simp⟩) hperm

/-- The batch is freed, and nothing is kept of it but the text of its extent. -/
theorem flushGeometry_refines (g : Guc) {wcol : ColumnBuild (Word D)} {col : ColumnBuild D}
    {ws : List (Word D)} {ds : List D} {extent : Option String} {Lws : Blocks D}
    (hw : wcol = col.withAcc (.geometry ws extent)) (hcol : col.acc = .geometry ds extent)
    (hws : Each (WordRep .build (pass.typbyval col.typ)) ws ds Lws) :
    Refines other (Lws ++ G) (pass.flushGeometry g wcol) (flushGeometry pg g col)
      fun wcol' col' L' => ∃ L'', L' = L'' ++ G ∧ ColumnRep pass wcol' col' L'' := by
  subst hw
  simp only [Passing.flushGeometry, flushGeometry, hcol, ColumnBuild.withAcc]
  rw [← pass.typbyval_base] at hws
  refine (flushBatch_refines g hws extent).bind ?_
  rintro ws' ds' _ ⟨Lws', rfl, hws', hlen⟩
  rw [pass.typbyval_base] at hws hws'
  cases hws' with
  | nil =>
      obtain rfl : ds = [] := List.eq_nil_of_length_eq_zero (Nat.le_zero.mp hlen)
      cases hws
      refine .pure ⟨[], rfl, rfl, ?_⟩
      rw [hcol]
      exact .geometry extent .nil (by simp [geometryBatch])
  | @cons w d ws' ds' Lw Lws' hw hws' =>
      have heach := Each.cons hw hws'
      simp only [List.isEmpty_cons, Bool.false_eq_true, if_false]
      refine (each_read heach (List.subset_append_left _ _)).step ?_
      rintro _ _ ⟨rfl, rfl⟩
      refine .alloc_bind fun array => ?_
      refine (readArray_refines List.mem_cons_self).step ?_
      rintro _ _ ⟨rfl, rfl⟩
      refine .lift_bind fun result _ => ?_
      refine ((each_free heach).perm List.perm_middle.symm).step ?_
      rintro _ _ rfl
      refine .free_bind (.refl _) (.pure ⟨[], rfl, rfl, ?_⟩)
      exact .geometry (result.bind fromUtf8) .nil (by simp [geometryBatch])

/-- The block of the old datum is given up for that of the copy. -/
theorem replaceDatum_refines {cxt : BuildContext} {old value : Word D} {dold d : D}
    {Lold Lv : Blocks D} (hold : WordRep .build typbyval old dold Lold)
    (hvalue : WordRep cxt typbyval value d Lv) (hL : L.Perm (Lold ++ L')) (hsub : Lv ⊆ L') :
    Refines other L (replaceDatum old value typbyval) (.ok d) fun w d' L'' =>
      ∃ Lw, L'' = Lw ++ L' ∧ WordRep .build typbyval w d' Lw := by
  refine (hold.freeDatum hL).step ?_
  rintro _ _ rfl
  exact hvalue.copyDatum hsub

theorem replaceDatum_if_refines (c : Prop) [Decidable c] {cxt : BuildContext} {old value : Word D}
    {dold d : D} {Lold Lv : Blocks D} (hold : WordRep .build typbyval old dold Lold)
    (hvalue : WordRep cxt typbyval value d Lv) (hL : L.Perm (Lold ++ L')) (hsub : Lv ⊆ L') :
    Refines other L (if c then replaceDatum old value typbyval else pure old)
      (.ok (if c then d else dold)) fun w d' L'' =>
        ∃ Lw, L'' = Lw ++ L' ∧ WordRep .build typbyval w d' Lw := by
  split
  · exact replaceDatum_refines hold hvalue hL hsub
  · exact Refines.perm (.pure ⟨Lold, rfl, hold⟩) hL

/-- One value, from the context of the scan. -/
theorem addValue_refines [DecidableEq D] (g : Guc) {wcol : ColumnBuild (Word D)}
    {col : ColumnBuild D} {value : Word D} {d : D} {Lv : Blocks D}
    (hcol : ColumnRep pass wcol col L)
    (hvalue : WordRep .tuple (pass.typbyval col.typ) value d Lv) (hsub : Lv ⊆ G) :
    Refines other (L ++ G) (pass.addValue g wcol value) (addValue pg g col d)
      fun wcol' col' L' => ∃ L'', L' = L'' ++ G ∧ ColumnRep pass wcol' col' L'' := by
  obtain ⟨hsame, hacc⟩ := hcol
  generalize wcol.acc = acc at hsame hacc
  subst hsame
  have htyp : (col.withAcc acc).typ = col.typ := rfl
  generalize hcolacc : col.acc = acc' at hacc
  have hsubL {L : Blocks D} : Lv ⊆ L ++ G :=
    List.Subset.trans hsub (List.subset_append_right _ _)
  unfold Passing.addValue addValue
  rw [hcolacc, htyp]
  cases hacc with
  | minMaxNone cmp =>
      refine (hvalue.copyDatum hsubL).step ?_
      rintro lo _ ⟨Llo, rfl, hlo⟩
      refine (hvalue.copyDatum (List.subset_append_of_subset_right Llo hsubL)).step ?_
      rintro hi _ ⟨Lhi, rfl, hhi⟩
      have hperm : (Lhi ++ (Llo ++ G)).Perm (Llo ++ Lhi ++ G) := by
        rw [List.append_assoc]
        exact List.perm_append_comm_assoc Lhi Llo G
      exact Refines.perm (.pure ⟨_, rfl, rfl, .minMax cmp hlo hhi⟩) hperm
  | @minMax cmp lo hi dlo dhi Llo Lhi hlo hhi =>
      refine (hvalue.callCmp cmp col.collation hlo hsubL ?_).bind ?_
      · exact List.subset_append_of_subset_left _ (List.subset_append_left _ _)
      rintro below _ _ ⟨rfl, rfl⟩
      have hperm : (Llo ++ Lhi ++ G).Perm (Llo ++ (Lhi ++ G)) := by rw [List.append_assoc]
      refine (replaceDatum_if_refines (below < 0) hlo hvalue hperm hsubL).step ?_
      rintro lo' _ ⟨Llo', rfl, hlo'⟩
      refine (hvalue.callCmp cmp col.collation hhi ?_ ?_).bind ?_
      · exact List.subset_append_of_subset_right _ hsubL
      · exact List.subset_append_of_subset_right _ (List.subset_append_left _ _)
      rintro above _ _ ⟨rfl, rfl⟩
      have hperm' : (Llo' ++ (Lhi ++ G)).Perm (Lhi ++ (Llo' ++ G)) :=
        List.perm_append_comm_assoc Llo' Lhi G
      refine (replaceDatum_if_refines (0 < above) hhi hvalue hperm' hsubL).step ?_
      rintro hi' _ ⟨Lhi', rfl, hhi'⟩
      have hperm'' : (Lhi' ++ (Llo' ++ G)).Perm (Llo' ++ Lhi' ++ G) := by
        rw [List.append_assoc]
        exact List.perm_append_comm_assoc Lhi' Llo' G
      exact Refines.perm (.pure ⟨_, rfl, rfl, .minMax cmp hlo' hhi'⟩) hperm''
  | rangeNone =>
      refine (hvalue.copyDatum hsubL).step ?_
      rintro extent _ ⟨Le, rfl, he⟩
      exact .pure ⟨Le, rfl, rfl, .range he⟩
  | @range old dold L hold =>
      refine (callMerge_refines pass hold hvalue hsub).bind ?_
      rintro merged dmerged L' hmerged
      split
      · rename_i hright
        obtain ⟨rfl, rfl⟩ := hmerged.right hright
        refine (replaceDatum_refines hold hvalue (.refl _) hsub).step ?_
        rintro extent _ ⟨Le, rfl, he⟩
        exact .pure ⟨Le, rfl, rfl, .range he⟩
      · rename_i hright
        split
        · rename_i hleft
          obtain ⟨Lm, rfl, hm⟩ := hmerged.fresh hright hleft
          have hperm : (Lm ++ (L ++ G)).Perm (L ++ (Lm ++ G)) := List.perm_append_comm_assoc Lm L G
          have hfree : Refines other (Lm ++ (L ++ G))
              (do
                freeDatum old (pass.typbyval col.typ)
                pure merged) (.ok dmerged) fun w d' L' => w = merged ∧ d' = dmerged ∧
                  L' = Lm ++ G := by
            refine (hold.freeDatum hperm).step ?_
            rintro _ _ rfl
            exact .pure ⟨rfl, rfl, rfl⟩
          refine hfree.step ?_
          rintro _ _ ⟨rfl, -, rfl⟩
          exact .pure ⟨Lm, rfl, rfl, .range hm⟩
        · rename_i hleft
          obtain ⟨rfl, rfl⟩ := hmerged.left (not_not.mp hleft)
          obtain rfl : merged = old := not_not.mp hleft
          exact .pure ⟨L, rfl, rfl, .range hold⟩
  | @geometry ws ds L extent hws hlen =>
      refine (hvalue.copyDatum hsubL).step ?_
      rintro copy _ ⟨Lc, rfl, hc⟩
      have heach := hws.append (.singleton hc)
      have hperm : (Lc ++ (L ++ G)).Perm (L ++ Lc ++ G) := by
        rw [List.append_assoc]
        exact List.perm_append_comm_assoc Lc L G
      have hsame : (ws ++ [copy]).length = (ds ++ [d]).length := heach.length_eq
      simp only [hsame]
      split
      · have hbatch : ({ col with acc := .geometry (ds ++ [d]) extent } : ColumnBuild D).acc =
          .geometry (ds ++ [d]) extent := rfl
        exact (flushGeometry_refines g rfl hbatch heach).perm hperm
      · rename_i hfew
        exact Refines.perm
          (.pure ⟨_, rfl, rfl, .geometry extent heach (Nat.lt_of_not_le hfew)⟩) hperm
  | unsupported => exact .pure ⟨[], rfl, rfl, by rw [hcolacc]; exact .unsupported⟩

/-! ## The scan -/

/-- A value of the row in the context of the scan. -/
inductive FieldRep (pass : Passing pg) (row : Row D) :
    Option (Word D) → IndexAttr D → Blocks D → Prop
  | null {a : IndexAttr D} (h : a.value row = none) : FieldRep pass row none a []
  | value {a : IndexAttr D} {w : Word D} {d : D} {L : Blocks D} (h : a.value row = some d)
      (hw : WordRep .tuple (pass.typbyval a.typ) w d L) : FieldRep pass row (some w) a L

theorem formTuple_refines (row : Row D) (attrs : List (IndexAttr D)) :
    Refines other L (pass.formTuple row attrs) (.ok attrs) fun tuple attrs L' =>
      ∃ G, L' = G ++ L ∧ Each (FieldRep pass row) tuple attrs G := by
  induction attrs generalizing L with
  | nil => exact .pure ⟨[], rfl, .nil⟩
  | cons a attrs ih =>
      rw [Passing.formTuple, List.mapM_cons]
      have hfield : Refines other L
          (match a.value row with
            | none => pure none
            | some d => do
                let w ← newDatum .tuple (pass.typbyval a.typ) d
                pure (some w)) (.ok a)
          fun w a L' => ∃ Lw, L' = Lw ++ L ∧ FieldRep pass row w a Lw := by
        cases hvalue : a.value row with
        | none => exact .pure ⟨[], rfl, .null hvalue⟩
        | some d =>
            refine (newDatum_refines .tuple (pass.typbyval a.typ) d).step ?_
            rintro w _ ⟨Lw, rfl, hw⟩
            exact .pure ⟨Lw, rfl, .value hvalue hw⟩
      refine hfield.step ?_
      rintro w _ ⟨Lw, rfl, hw⟩
      refine ih.step ?_
      rintro ws _ ⟨G, rfl, hws⟩
      have hperm : (G ++ (Lw ++ L)).Perm (Lw ++ G ++ L) := by
        rw [List.append_assoc]
        exact List.perm_append_comm_assoc G Lw L
      exact Refines.perm (.pure ⟨_, rfl, .cons hw hws⟩) hperm

theorem buildColumn_refines [DecidableEq D] (g : Guc) {attrs : List (IndexAttr D)}
    {a : IndexAttr D} {row : Row D} {tuple : List (Option (Word D))}
    (htuple : Each (FieldRep pass row) tuple attrs G) {wcol : ColumnBuild (Word D)}
    {col : ColumnBuild D} (hplan : PlannedFor pg attrs a col) (hcol : ColumnRep pass wcol col L) :
    Refines other (L ++ G) (pass.buildColumn g (fun i => (tuple[i]?).join) wcol)
      (buildColumn pg g (indexTuple attrs row) col)
      fun wcol' col' L' => ∃ L'', L' = L'' ++ G ∧ ColumnRep pass wcol' col' L'' := by
  obtain ⟨field, Lv, hfield, hrep, hsub⟩ := htuple.get hplan.indexPos
  have hpos : wcol.indexPos = col.indexPos := congrArg ColumnBuild.indexPos hcol.same
  rw [Passing.buildColumn, buildColumn, indexTuple_eq hplan.indexPos, hpos, hfield]
  cases hrep with
  | null hnone =>
      rw [hnone]
      refine .pure ⟨L, rfl, ?_, hcol.acc⟩
      rw [hcol.same]
      rfl
  | value hvalue hw =>
      rw [hvalue]
      rw [← hplan.typ] at hw
      refine addValue_refines g ⟨?_, hcol.acc⟩ hw hsub
      rw [hcol.same]
      rfl

/-- A column of the scan. -/
structure ScanRep (pass : Passing pg) (attrs : List (IndexAttr D)) (wcol : ColumnBuild (Word D))
    (col : ColumnBuild D) (L : Blocks D) : Prop where
  column : ColumnRep pass wcol col L
  planned : ∃ a, PlannedFor pg attrs a col

/-- Blocks of neither context. -/
def Foreign (b : Block D) : Prop := b.cxt = .other

theorem WordRep.cxt {cxt : BuildContext} {w : Word D} {d : D} (h : WordRep cxt typbyval w d L) :
    ∀ b ∈ L, b.2.cxt = cxt := by
  cases h <;> simp

theorem FieldRep.cxt {row : Row D} (w : Option (Word D)) (a : IndexAttr D) (L : Blocks D)
    (h : FieldRep pass row w a L) : ∀ b ∈ L, b.2.cxt = .tuple := by
  cases h with
  | null => simp
  | value _ hw => exact hw.cxt

theorem AccumulatorRep.cxt {acc : Accumulator (Word D)} {acc' : Accumulator D}
    (h : AccumulatorRep typbyval acc acc' L) : ∀ b ∈ L, b.2.cxt = .build := by
  cases h with
  | minMaxNone | rangeNone | unsupported => simp
  | minMax cmp hlo hhi =>
      intro b hb
      exact (List.mem_append.mp hb).elim (hlo.cxt b) (hhi.cxt b)
  | range hw => exact hw.cxt
  | geometry extent hws hlen => exact hws.forall_blocks fun _ _ _ hw => hw.cxt

theorem ScanRep.cxt {attrs : List (IndexAttr D)} (wcol : ColumnBuild (Word D))
    (col : ColumnBuild D) (L : Blocks D) (h : ScanRep pass attrs wcol col L) :
    ∀ b ∈ L, b.2.cxt = .build := h.column.acc.cxt

/-- After the reset only the copies are left. -/
theorem filter_tuple {attrs : List (IndexAttr D)} {row : Row D}
    {tuple : List (Option (Word D))} {wcols : List (ColumnBuild (Word D))}
    {cols : List (ColumnBuild D)} (htuple : Each (FieldRep pass row) tuple attrs G)
    (hcols : Each (ScanRep pass attrs) wcols cols L) :
    (L ++ G).filter (fun b => b.2.cxt != .tuple) = L := by
  have hL := hcols.forall_blocks ScanRep.cxt
  have hG := htuple.forall_blocks FieldRep.cxt
  rw [List.filter_append, List.filter_eq_self.mpr fun b hb => by simp [hL b hb],
    List.filter_eq_nil_iff.mpr fun b hb => by simp [hG b hb], List.append_nil]

theorem buildColumn_planned {g : Guc} {attrs : List (IndexAttr D)} {a : IndexAttr D}
    {tuple : Nat → Option D} {col col' : ColumnBuild D} (hplan : PlannedFor pg attrs a col)
    (h : buildColumn pg g tuple col = .ok col') : PlannedFor pg attrs a col' := by
  unfold buildColumn at h
  split at h
  · cases h
    exact hplan.of_eq _ _ _
  · exact (hplan.of_eq _ _ _).of_same (addValue_same h)

theorem scanRow_refines [DecidableEq D] (g : Guc) {attrs : List (IndexAttr D)}
    {wcols : List (ColumnBuild (Word D))} {cols : List (ColumnBuild D)}
    (hcols : Each (ScanRep pass attrs) wcols cols L) (row : Row D) :
    Refines Foreign L (pass.scanRow g attrs wcols row)
      (buildCallback pg g cols (indexTuple attrs row)) (Each (ScanRep pass attrs)) := by
  refine (formTuple_refines row attrs).step ?_
  rintro tuple _ ⟨G, rfl, htuple⟩
  have hcolumns : RefinesAnywhere (L ++ G)
      (pass.buildCallback g wcols fun i => (tuple[i]?).join)
      (buildCallback pg g cols (indexTuple attrs row))
      fun wcols' cols' L' => ∃ L'', L' = L'' ++ G ∧ Each (ScanRep pass attrs) wcols' cols' L'' := by
    refine Refines.mapM (fun wcol col L hcol => ?_) hcols
    obtain ⟨a, hplan⟩ := hcol.planned
    refine (buildColumn_refines g htuple hplan hcol.column).with_result.weaken ?_
    rintro wcol' col' _ ⟨⟨L'', rfl, hcol'⟩, hresult⟩
    exact ⟨_, .refl _, L'', rfl, hcol', a, buildColumn_planned hplan hresult⟩
  refine ((hcolumns.mono fun _ _ => trivial).perm List.perm_append_comm).followed ?_
  rintro wcols' cols' _ ⟨L'', rfl, hcols'⟩
  have hreset : Refines Foreign (L'' ++ G) (release fun b => b.cxt != .tuple : MemProg D Unit)
      (.ok ()) (fun _ _ L' => L' = L'') := by
    refine .release (fun b hb => ?_) (filter_tuple htuple hcols')
    rw [show b.cxt = .other from hb]
    rfl
  refine hreset.step ?_
  rintro _ _ rfl
  exact .pure hcols'

theorem AccumulatorRep.planned (typ : Oid) :
    AccumulatorRep typbyval ((planAccumulator pg typ).map Word.val) (planAccumulator pg typ)
      [] := by
  unfold planAccumulator
  simp only
  split
  · exact .unsupported
  split
  · exact .rangeNone
  split
  · exact .geometry none .nil (by simp [geometryBatch])
  split
  · exact .minMaxNone _
  · exact .unsupported

variable (pass) in
theorem planColumns_refines (session : Session) (attrs : List (IndexAttr D)) :
    Refines other [] (Passing.planColumns pg session attrs) (planColumns pg session attrs)
      (Each (ScanRep pass attrs)) := by
  have hlift : Refines other [] (lift (planColumns pg session attrs) : MemProg D _)
      (planColumns pg session attrs)
      fun cols cols' L => cols = cols' ∧ L = [] ∧ planColumns pg session attrs = .ok cols :=
    .lift fun _ h => ⟨rfl, rfl, h⟩
  refine hlift.followed ?_
  rintro cols _ _ ⟨rfl, rfl, hplanned⟩
  refine .pure ?_
  have hspec := Lib.Aligned.forall₂_mem_right (planColumns_spec hplanned)
  clear hlift hplanned
  induction cols with
  | nil => exact .nil
  | cons col cols ih =>
      obtain ⟨a, -, hplan, hfresh⟩ := hspec col List.mem_cons_self
      have hacc : AccumulatorRep (pass.typbyval col.typ) (col.acc.map Word.val) col.acc [] := by
        rw [hfresh.acc]
        exact .planned a.typ
      have hcol : ScanRep pass attrs (col.withAcc (col.acc.map Word.val)) col [] :=
        ⟨⟨rfl, hacc⟩, a, hplan⟩
      exact .cons hcol (ih fun col' hcol' => hspec col' (List.mem_cons_of_mem col hcol'))

variable (pass) in
/-- The scan of any rows. -/
theorem scanRows_refines [DecidableEq D] (session : Session) (attrs : List (IndexAttr D))
    (rows : List (Row D)) :
    Refines Foreign [] (pass.scanRows session attrs rows)
      (planColumns pg session attrs >>= fun planned =>
        (rows.map (indexTuple attrs)).foldlM (buildCallback pg session.guc) planned)
      (Each (ScanRep pass attrs)) := by
  refine (planColumns_refines pass session attrs).bind fun wcols cols L hcols => ?_
  rw [List.foldlM_map]
  exact .foldlM (fun _ _ _ row hcols => scanRow_refines session.guc hcols row) hcols rows

/-! ## The end of the build -/

theorem renderBound_refines {cxt : BuildContext} (g : Guc) (typ : Oid) {w : Word D} {d : D}
    {Lw : Blocks D} (hw : WordRep cxt typbyval w d Lw) (hsub : Lw ⊆ L) :
    Refines other L (Passing.renderBound pg g typ (some w)) (renderBound pg g typ (some d))
      (Keeps L) := by
  refine (hw.read hsub).step ?_
  rintro _ _ ⟨rfl, rfl⟩
  exact .lift fun _ _ => ⟨rfl, rfl⟩

theorem renderBounds_refines (g : Guc) {wcol : ColumnBuild (Word D)} {col : ColumnBuild D}
    (hcol : ColumnRep pass wcol col L) :
    Refines other L (Passing.renderBounds pg g wcol) (renderBounds pg g col) (Keeps L) := by
  obtain ⟨hsame, hacc⟩ := hcol
  generalize wcol.acc = acc at hsame hacc
  subst hsame
  generalize hcolacc : col.acc = acc' at hacc
  unfold Passing.renderBounds renderBounds
  rw [hcolacc]
  cases hacc with
  | minMaxNone cmp => exact .pure ⟨rfl, rfl⟩
  | @minMax cmp lo hi dlo dhi Llo Lhi hlo hhi =>
      refine (renderBound_refines g col.typ hlo (List.subset_append_left _ _)).bind ?_
      rintro min _ _ ⟨rfl, rfl⟩
      refine (renderBound_refines g col.typ hhi (List.subset_append_right _ _)).bind ?_
      rintro max _ _ ⟨rfl, rfl⟩
      exact .pure ⟨rfl, rfl⟩
  | rangeNone => exact .pure ⟨rfl, rfl⟩
  | range hw =>
      refine (renderBound_refines g col.typ hw (List.Subset.refl _)).bind ?_
      rintro min _ _ ⟨rfl, rfl⟩
      exact .pure ⟨rfl, rfl⟩
  | geometry extent hws hlen => exact .pure ⟨rfl, rfl⟩
  | unsupported => exact .pure ⟨rfl, rfl⟩

/-- A bound is lost or not whatever the datums are. -/
theorem AccumulatorRep.lostBound {acc : Accumulator (Word D)} {acc' : Accumulator D}
    (h : AccumulatorRep typbyval acc acc' L) (min max : Option String) :
    acc.lostBound min max = acc'.lostBound min max := by
  cases h <;> rfl

/-- The entry does not depend on where the datums are. -/
theorem ColumnRep.settle {wcol : ColumnBuild (Word D)} {col : ColumnBuild D}
    (hcol : ColumnRep pass wcol col L) (overlap : Bool) (min max : Option String)
    (unbounded : Bool) :
    wcol.settle (wcol.entry overlap min max unbounded) =
      col.settle (col.entry overlap min max unbounded) := by
  obtain ⟨hsame, hacc⟩ := hcol
  generalize wcol.acc = acc at hsame hacc
  subst hsame
  have hlost : acc.lostBound min max = col.acc.lostBound min max := hacc.lostBound min max
  unfold ColumnBuild.settle
  exact congrArg
    (fun lost => if unbounded || (decide (0 < col.nonnull) && lost) then
      (col.entry overlap min max unbounded).makeUnbounded
      else col.entry overlap min max unbounded) hlost

/-- Only a geometry column has anything to flush. -/
theorem ColumnRep.flush (g : Guc) {wcol : ColumnBuild (Word D)} {col : ColumnBuild D}
    (hcol : ColumnRep pass wcol col L) :
    Refines other (L ++ G) (pass.flushGeometry g wcol) (flushGeometry pg g col)
      fun wcol' col' L' => ∃ L'', L' = L'' ++ G ∧ ColumnRep pass wcol' col' L'' := by
  have hkept := hcol
  obtain ⟨hsame, hacc⟩ := hcol
  generalize hwacc : wcol.acc = acc at hsame hacc
  generalize hcolacc : col.acc = acc' at hacc
  cases hacc with
  | geometry extent hws hlen => exact flushGeometry_refines g hsame hcolacc hws
  | minMaxNone | minMax | rangeNone | range | unsupported =>
      simp only [Passing.flushGeometry, flushGeometry, hwacc, hcolacc]
      exact .pure ⟨_, rfl, hkept⟩

theorem finishColumn_refines (g : Guc) {wcol : ColumnBuild (Word D)} {col : ColumnBuild D}
    (hcol : ColumnRep pass wcol col L) :
    Refines other (L ++ []) (pass.finishColumn g wcol) (finishColumn pg g col) fun c c' L' =>
      ∃ L'', L' = L'' ++ [] ∧ c = c' ∧ ∀ b ∈ L'', b.2.cxt = .build := by
  refine (hcol.flush g).bind ?_
  rintro wcol' col' _ ⟨L', rfl, hcol'⟩
  rw [List.append_nil]
  refine (renderBounds_refines g hcol').bind ?_
  rintro ⟨overlap, min, max, unbounded⟩ _ _ ⟨rfl, rfl⟩
  exact .pure ⟨_, (List.append_nil _).symm, hcol'.settle overlap min max unbounded,
    hcol'.acc.cxt⟩

theorem finish_refines (g : Guc) {attrs : List (IndexAttr D)}
    {wcols : List (ColumnBuild (Word D))} {cols : List (ColumnBuild D)}
    (hcols : Each (ScanRep pass attrs) wcols cols L) :
    RefinesAnywhere L (pass.finish g wcols) (finish pg g cols) fun s s' L' =>
      s = s' ∧ ∀ b ∈ L', b.2.cxt = .build := by
  have hmap : RefinesAnywhere (L ++ []) (wcols.mapM (pass.finishColumn g))
      (cols.mapM (finishColumn pg g)) fun cs cs' L' => ∃ L'', L' = L'' ++ [] ∧
        Each (fun c c' L => c = c' ∧ ∀ b ∈ L, b.2.cxt = .build) cs cs' L'' :=
    .mapM (fun _ _ _ hcol => finishColumn_refines g hcol.column) hcols
  rw [List.append_nil] at hmap
  refine hmap.bind ?_
  rintro cs cs' _ ⟨L', rfl, heach⟩
  rw [List.append_nil]
  have hblocks := heach.forall_blocks fun _ _ _ h => h.2
  have heq : cs = cs' := by
    clear hmap hblocks
    induction heach with
    | nil => rfl
    | cons h _ ih => rw [h.1, ih]
  exact .pure ⟨by rw [heq], hblocks⟩

/-! ## How much is held -/

/-- The most datums that an accumulator keeps. -/
def Kind.copies : Kind → ℕ
  | .minMax => 2
  | .range => 1
  | .geometry => geometryBatch - 1
  | .unsupported => 0

theorem WordRep.length_le {cxt : BuildContext} {typbyval : Bool} {w : Word D} {d : D}
    {L : Blocks D} (h : WordRep cxt typbyval w d L) : L.length ≤ 1 := by
  cases h <;> simp

theorem AccumulatorRep.length_le {typbyval : Bool} {acc : Accumulator (Word D)}
    {acc' : Accumulator D} {L : Blocks D} (h : AccumulatorRep typbyval acc acc' L) :
    L.length ≤ acc'.kind.copies := by
  cases h with
  | minMaxNone | rangeNone | unsupported => simp
  | minMax cmp hlo hhi =>
      rw [List.length_append]
      exact Nat.add_le_add hlo.length_le hhi.length_le
  | range hw => exact hw.length_le
  | @geometry ws ds L extent hws hlen =>
      have hone : ∀ (w : Word D) (d : D) (L : Blocks D), WordRep .build typbyval w d L →
          L.length ≤ (fun _ => 1) d := fun _ _ _ hw => hw.length_le
      have hsum : L.length ≤ ds.length := by simpa using hws.length_le hone
      exact le_trans hsum (Nat.le_sub_one_of_lt hlen)

theorem ScanRep.length_le {attrs : List (IndexAttr D)} (wcol : ColumnBuild (Word D))
    (col : ColumnBuild D) (L : Blocks D) (h : ScanRep pass attrs wcol col L) :
    L.length ≤ col.acc.kind.copies := h.column.acc.length_le

end Columns

/-! ## The build -/

section Build

variable {pg : Pg D} (pass : Passing pg) [DecidableEq D]

/-- Whatever else the backend holds, the build with pointers does what the build with values
does: it never uses or frees a block that is not live, and when it returns it leaves behind
what was there before. -/
theorem buildLeafSummary_memory (session : Session) (attrs : List (IndexAttr D))
    (rows : List (Row D)) (h : Heap (Block D)) (hforeign : ∀ b ∈ h.live, b.2.cxt = .other) :
    Outcome h.live (fun summary summary' L => summary = summary' ∧ L = [])
      (pass.buildLeafSummary session attrs rows h) (buildLeafSummary pg session attrs rows) := by
  have hbuild : Refines Foreign [] (pass.buildLeafSummary session attrs rows)
      (buildLeafSummary pg session attrs rows)
      (fun summary summary' L => summary = summary' ∧ L = []) := by
    unfold Passing.buildLeafSummary buildLeafSummary
    rw [← bind_assoc]
    refine (scanRows_refines pass session attrs rows).bind fun wcols cols L hcols => ?_
    rw [withStableIo_eq, withStableIo_eq]
    cases session.runs with
    | false => exact .error _
    | true =>
        have hfinish : Refines Foreign L (pass.finish session.guc.pin wcols)
            (finish pg session.guc.pin cols) fun s s' L' =>
              s = s' ∧ ∀ b ∈ L', b.2.cxt = .build :=
          (finish_refines session.guc.pin hcols).mono fun _ _ => trivial
        refine hfinish.followed ?_
        rintro summary _ L' ⟨rfl, hL'⟩
        have hdrop : Refines Foreign L' (release fun b => b.cxt != .build : MemProg D Unit)
            (.ok ()) (fun _ _ L'' => L'' = []) := by
          refine .release (fun b hb => ?_) ?_
          · rw [show b.cxt = .other from hb]
            rfl
          · exact List.filter_eq_nil_iff.mpr fun b hb => by simp [hL' b hb]
        refine hdrop.step ?_
        rintro _ _ rfl
        exact .pure ⟨rfl, rfl⟩
  exact hbuild h.live h hforeign (.refl _)

end Build

/-! ## A small server that passes everything by reference -/

def Mini.passing : Passing (Mini.pg fun _ _ => id) where
  typbyval _ := false
  typbyval_base _ := rfl
  merge _ _ := .ok .left
  rangeMerge _ _ := rfl

/-- What the backend holds besides. -/
def Mini.heap : Heap (Block Int) := Heap.empty.insert ⟨.other, .datum 100⟩

theorem Mini.heap_foreign : ∀ b ∈ Mini.heap.live, b.2.cxt = .other := by
  intro b hb
  obtain rfl := List.mem_singleton.mp hb
  rfl

/-- Four rows, of which the second lowers and the fourth raises a bound. -/
def Mini.fourRows : List (Row Int) := [Mini.row 5, Mini.row 3, Mini.row 4, Mini.row 9]

theorem buildLeafSummary_memory_int4 :
    Outcome Mini.heap.live (fun summary summary' L => summary = summary' ∧ L = [])
      (Mini.passing.buildLeafSummary Mini.session Mini.index.attrs Mini.fourRows Mini.heap)
      (buildLeafSummary (Mini.pg fun _ _ => id) Mini.session Mini.index.attrs Mini.fourRows) :=
  buildLeafSummary_memory Mini.passing Mini.session Mini.index.attrs Mini.fourRows Mini.heap
    Mini.heap_foreign

end TableRange
