import TableRange.Coverage.Page

/-!
# The history of a summary

`Maintained` follows the summary of an index, apart from the page it is on,
through a build, inserts and the drops that fit it on the page, together with
the rows that have been folded in.  `Grown` is what happens after the build.
-/

namespace TableRange

open Lib.Fallible

variable {D : Type} {pg : Pg D}

/-- The summaries of the rows `rows`, scanned by the build or inserted later. -/
inductive Maintained (pg : Pg D) (attrs : List (IndexAttr D)) : IndexSummary → List (Row D) → Prop
  | build {session : Session} {rows : List (Row D)} {s : IndexSummary}
      (h : buildLeafSummary pg session attrs rows = .ok s) : Maintained pg attrs s rows
  | insert {session : Session} {rows : List (Row D)} {row : Row D} {s s' : IndexSummary}
      {changed : Bool} (hs : Maintained pg attrs s rows)
      (h : widenStable pg session attrs row s = .ok (s', changed)) :
      Maintained pg attrs s' (row :: rows)
  | fit {rows : List (Row D)} {s : IndexSummary} (hs : Maintained pg attrs s rows) :
      Maintained pg attrs (encodeFitting s).1 rows

/-- The summaries that inserts, and the drops that fit them on the page, make of `built`, with
the rows inserted, the last one first. -/
inductive Grown (pg : Pg D) (attrs : List (IndexAttr D)) (built : IndexSummary) :
    IndexSummary → List (Row D) → Prop
  | built : Grown pg attrs built built []
  | insert {session : Session} {inserted : List (Row D)} {row : Row D} {s s' : IndexSummary}
      {changed : Bool} (hs : Grown pg attrs built s inserted)
      (h : widenStable pg session attrs row s = .ok (s', changed)) :
      Grown pg attrs built s' (row :: inserted)
  | fit {inserted : List (Row D)} {s : IndexSummary} (hs : Grown pg attrs built s inserted) :
      Grown pg attrs built (encodeFitting s).1 inserted

theorem Grown.maintained {session : Session} {attrs : List (IndexAttr D)}
    {scanned inserted : List (Row D)} {built s : IndexSummary}
    (hbuilt : buildLeafSummary pg session attrs scanned = .ok built)
    (h : Grown pg attrs built s inserted) : Maintained pg attrs s (inserted ++ scanned) := by
  induction h with
  | built => exact .build hbuilt
  | insert _ h ih => exact .insert ih h
  | fit _ ih => exact .fit ih

/-- The entries stay those of the columns, with the type names that the session of the build has
written. -/
theorem Grown.typeNames {session : Session} {attrs : List (IndexAttr D)}
    {scanned inserted : List (Row D)} {built s : IndexSummary}
    (hbuilt : buildLeafSummary pg session attrs scanned = .ok built)
    (h : Grown pg attrs built s inserted) :
    List.Forall₂ (fun a c => c.attnum = a.attnum ∧
      pg.qualifiedTypeName session.quoteAllIdentifiers a.typ = .ok c.typeName)
      (summarized attrs) s.cols := by
  induction h with
  | built => exact buildLeafSummary_typeNames hbuilt
  | insert _ h ih =>
      obtain ⟨⟨cols, _⟩, hcols, h⟩ := bind_eq_ok.mp (widenStable_eq_ok h)
      cases h
      exact Lib.Aligned.forall₂_comp (fun _ _ _ hnamed hsame =>
        ⟨hsame.attnum.trans hnamed.1, hsame.typeName ▸ hnamed.2⟩) ih
        (widenSummaryFrom_sameColumn hcols)
  | fit _ ih =>
      refine Lib.Aligned.forall₂_comp (fun a c c' hnamed hdrop => ?_) ih (encodeFitting_dropped _)
      rcases hdrop with rfl | ⟨-, rfl⟩
      · exact hnamed
      · exact hnamed

variable {ord : pg.BtreeOrder} {eord : pg.ExtentOrder}

variable (ord eord) in
/-- A maintained summary covers its rows. -/
theorem Maintained.covers (io : pg.TextRoundTrip) {attrs : List (IndexAttr D)}
    (hdistinct : DistinctColumns attrs) {s : IndexSummary} {rows : List (Row D)}
    (h : Maintained pg attrs s rows) :
    SummaryCovers ord eord attrs s (rowValues {row | row ∈ rows}) := by
  induction h with
  | build h => exact buildLeafSummary_covers h
  | insert _ h ih =>
      refine (widenStable_covers io hdistinct ih h).1.mono fun a => ?_
      rw [← rowValues_insert]
      exact rowValues_mono (fun row hrow => List.mem_cons.mp hrow) a
  | fit _ ih => exact summaryCovers_encodeFitting ih

end TableRange
