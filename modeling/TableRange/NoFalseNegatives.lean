import TableRange.Coverage.Page
import TableRange.MiniPg
import TableRange.Prune.Sound

/-!
# No false negatives over whole runs

`TableRun` is the history of one indexed leaf when a single session at a time
touches it: the index is created or rebuilt, rows are inserted and deleted.  The
page of every such history covers the stored rows (`tableRun_covers`), so a
clause that proves a prune on the decoded summary is true on none of them.
-/

namespace TableRange

open Lib.Fallible

variable {D : Type} {pg : Pg D}

/-- The histories of a leaf: the index file and the rows stored in the heap.  A
build scans at least the stored rows. -/
inductive TableRun (pg : Pg D) (index : IndexDef D) : IndexFile → List (Row D) → Prop
  | create {session : Session} {file₀ file : IndexFile} {scanned stored : List (Row D)}
      (hbuild : amBuild pg session index file₀ scanned = .ok file) (hscan : stored ⊆ scanned) :
      TableRun pg index file stored
  | insert {session : Session} {file file' : IndexFile} {stored : List (Row D)} {row : Row D}
      (hrun : TableRun pg index file stored)
      (hinsert : AmInsert pg session index.attrs row file (.ok ()) file') :
      TableRun pg index file' (row :: stored)
  /-- The row of an insert that fails is not stored. -/
  | insertError {session : Session} {file file' : IndexFile} {stored : List (Row D)}
      {row : Row D} {e : String} (hrun : TableRun pg index file stored)
      (hinsert : AmInsert pg session index.attrs row file (.error e) file') :
      TableRun pg index file' stored
  | delete {file : IndexFile} {before after : List (Row D)} {row : Row D}
      (hrun : TableRun pg index file (before ++ row :: after)) :
      TableRun pg index file (before ++ after)
  | rebuild {session : Session} {file file₀ file' : IndexFile} {scanned stored : List (Row D)}
      (hrun : TableRun pg index file stored)
      (hbuild : amBuild pg session index file₀ scanned = .ok file') (hscan : stored ⊆ scanned) :
      TableRun pg index file' stored

section

variable {ord : pg.BtreeOrder} {eord : pg.ExtentOrder}

variable (ord eord) in
/-- The page covers the stored rows, whatever has happened to the table. -/
theorem tableRun_covers (io : pg.TextRoundTrip) {index : IndexDef D}
    (hdistinct : DistinctColumns index.attrs) {file : IndexFile} {stored : List (Row D)}
    (h : TableRun pg index file stored) :
    BlobCovers ord eord index.attrs (readBlob file) (rowValues {row | row ∈ stored}) := by
  induction h with
  | create hbuild hscan =>
      exact (amBuild_blobCovers hbuild).mono (rowValues_mono fun row hrow => hscan hrow)
  | insert _ hinsert ih =>
      refine ((amInsert_covers io hdistinct hinsert ih).2 rfl).mono fun a => ?_
      rw [← rowValues_insert]
      exact rowValues_mono (fun row hrow => List.mem_cons.mp hrow) a
  | insertError _ hinsert ih => exact (amInsert_covers io hdistinct hinsert ih).1
  | delete _ ih =>
      refine ih.mono (rowValues_mono fun row hrow => ?_)
      rcases List.mem_append.mp hrow with hrow | hrow
      · exact List.mem_append_left _ hrow
      · exact List.mem_append_right _ (List.mem_cons_of_mem _ hrow)
  | rebuild _ hbuild hscan _ =>
      exact (amBuild_blobCovers hbuild).mono (rowValues_mono fun row hrow => hscan hrow)

/-- A clause that proves a prune on a covering summary is true on no covered
row. -/
theorem clause_sound_of_covers {ex : Executor D} (io : pg.TextRoundTrip) (laws : ex.BtreeLaws ord)
    {attrs : List (IndexAttr D)} {s : IndexSummary} {rows : Set (Row D)} {g : Guc}
    (hg : g.Stable) (hcovers : SummaryCovers ord eord attrs s (rowValues rows)) {clause : Node D}
    {row : Row D} (hrow : row ∈ rows)
    (hscope : ∀ node, Leaf node clause → LeafScope ord eord ex attrs row node) {depth : Nat}
    (h : clauseProvesPrune pg g s.cols clause depth = .ok true) :
    ex.truth pg row clause ≠ some true :=
  clause_sound clause
    (fun node hnode => leaf_sound io laws hg (hscope node hnode)
      (hcovers.mono (rowValues_mono fun r hr => by
        rw [Set.mem_singleton_iff.mp hr]
        exact hrow)))
    h

end

/-- The clauses of the run theorem: their leaves are comparisons with a
constant, lists of constants, and NULL tests on columns that are not composite.
A stripped relabel reads and orders the column's values as the column does. -/
structure ClauseScope (ord : pg.BtreeOrder) (attrs : List (IndexAttr D)) (clause : Node D) :
    Prop where
  reads : ∀ node, Leaf node clause → LeafReads ord attrs node
  noOverlap : ∀ node, Leaf node clause → NoOverlap pg node
  notComposite : ∀ arg nulltesttype argisrow, Leaf (.nullTest arg nulltesttype argisrow) clause →
    argisrow = false

/-- The leaves ask for nothing about extents. -/
theorem ClauseScope.leafScope {ord : pg.BtreeOrder} {ex : Executor D} {attrs : List (IndexAttr D)}
    {clause : Node D} (h : ClauseScope ord attrs clause) (row : Row D) {node : Node D}
    (hnode : Leaf node clause) : LeafScope ord pg.noExtents ex attrs row node := by
  refine ⟨h.reads node hnode, Or.inl (h.noOverlap node hnode), ?_⟩
  rintro arg argisrow rfl varattno vartype v - -
  rw [h.notComposite arg .isNull argisrow hnode]
  rfl

/-- No false negatives: whatever a decoded page prunes holds no stored row that
the clause is true on. -/
theorem clauseProvesPrune_run_sound (io : pg.TextRoundTrip) (ord : pg.BtreeOrder)
    {ex : Executor D} (laws : ex.BtreeLaws ord) {index : IndexDef D}
    (hdistinct : DistinctColumns index.attrs) {file : IndexFile} {stored : List (Row D)}
    (hrun : TableRun pg index file stored) {clause : Node D}
    (hscope : ClauseScope ord index.attrs clause) {g : Guc} (hg : g.Stable) {s : IndexSummary}
    (hs : readSummary file = some s) {depth : Nat}
    (h : clauseProvesPrune pg g s.cols clause depth = .ok true) :
    ∀ row ∈ stored, ex.truth pg row clause ≠ some true := by
  intro row hrow
  have hcovers := tableRun_covers ord pg.noExtents io hdistinct hrun s hs
  exact clause_sound_of_covers io laws hg hcovers hrow (fun _ hnode => hscope.leafScope row hnode) h

section Mini

/-- One order for all types: every relabel is harmless. -/
theorem Mini.readsAs (a : IndexAttr Int) (vartype opVarType : Oid) :
    ReadsAs (Mini.order fun _ _ n => n) a vartype opVarType where
  text {g t v d} _ hrenders hread := by
    obtain ⟨-, rfl⟩ := Mini.renders _ hrenders
    by_cases htyp : summaryParseType (Mini.pg fun _ _ n => n) opVarType vartype = invalidOid
    · rw [htyp] at hread
      cases hread
    · rw [Mini.textToDatum _ htyp] at hread
      exact (Option.some.inj (Except.ok.inj hread)).symm
  order _ _ _ _ hle := hle

theorem Mini.clauseScope (attrs : List (IndexAttr Int)) {clause : Node Int}
    (hnull : ∀ arg nulltesttype argisrow,
      Leaf (.nullTest arg nulltesttype argisrow) clause → argisrow = false) :
    ClauseScope (Mini.order fun _ _ n => n) attrs clause where
  reads node _ := by
    unfold LeafReads
    split
    · intro vc _ a _ _
      split
      · exact Mini.readsAs a _ _
      · exact nofun
    · exact fun _ _ _ a _ _ _ _ => Mini.readsAs a _ _
    · trivial
  noOverlap node _ := noOverlap_of_untrusted (fun _ _ => rfl) node
  notComposite := hnull

/-- The table `{5, 3}`, built over one row and inserted into once, under the
clause `c > 7 OR (c = 9 AND unknown)`. -/
theorem clauseProvesPrune_run_sound_int4 :
    let pg := Mini.pg fun _ _ n => n
    let ex := Mini.executor fun _ _ n => n
    let clause := Node.boolExpr .orExpr
      [Mini.compareNode 5 7, .boolExpr .andExpr [Mini.compareNode 3 9, .other 0]]
    ∃ file s, TableRun pg Mini.index file [Mini.row 5, Mini.row 3] ∧ readSummary file = some s ∧
      clauseProvesPrune pg Mini.session.guc s.cols clause 0 = .ok true ∧
      ∀ row ∈ [Mini.row 5, Mini.row 3], ex.truth pg row clause ≠ some true := by
  intro pg ex clause
  have hbuilt : buildLeafSummary pg Mini.session Mini.index.attrs [Mini.row 3] =
      .ok ⟨[Mini.entry 3 3]⟩ := rfl
  have hwiden : widenStable pg Mini.session Mini.index.attrs (Mini.row 5) ⟨[Mini.entry 3 3]⟩ =
      .ok (⟨[Mini.entry 3 5]⟩, true) := rfl
  obtain ⟨file, hbuild, hs⟩ := amBuild_eq_ok Mini.index_total hbuilt (by decide) none
  obtain ⟨file', hinsert, hs'⟩ := amInsert_widened hs hwiden (by decide)
  have hrun : TableRun pg Mini.index file' [Mini.row 5, Mini.row 3] :=
    .insert (.create hbuild (List.Subset.refl _)) hinsert
  have hprune : clauseProvesPrune pg Mini.session.guc [Mini.entry 3 5] clause 0 = .ok true := rfl
  refine ⟨file', _, hrun, hs', hprune, clauseProvesPrune_run_sound (Mini.textRoundTrip _)
    (Mini.order _) (Mini.btreeLaws _) Mini.index_distinct hrun (Mini.clauseScope _ ?_)
    Mini.session_stable hs' hprune⟩
  intro arg nulltesttype argisrow hleaf
  simp [clause, Mini.compareNode, leaf_boolExpr_iff, leaf_iff] at hleaf

end Mini

end TableRange
