import TableRange.Coverage

/-!
# The build covers the rows it scans

`Holds` says what an accumulator knows about the values folded into it so far.
`addValue_holds` is the step, `flushGeometry_holds` the step of a batch, and the
scan carries both from the planned columns to the last row.  `finishColumn_covers`
turns the accumulator of a column into an entry that covers what it has seen, and
`buildLeafSummary_covers` is the result for the whole index.
-/

namespace TableRange

open Lib.Interval Lib.Fallible

variable {D : Type} {pg : Pg D}

/-! ## The planned columns -/

/-- The column was planned for the index column `a` of `attrs`. -/
structure PlannedFor (pg : Pg D) (attrs : List (IndexAttr D)) (a : IndexAttr D)
    (col : ColumnBuild D) : Prop where
  indexPos : attrs[col.indexPos]? = some a
  attnum : col.attnum = a.attnum
  typ : col.typ = a.typ
  typeName : pg.HasTypeName a.typ col.typeName
  collation : col.collation = a.collation

/-- The counters and the accumulator of a column may change. -/
theorem PlannedFor.of_eq {attrs : List (IndexAttr D)} {a : IndexAttr D} {col : ColumnBuild D}
    (h : PlannedFor pg attrs a col) (nonnull nulls : Nat) (acc : Accumulator D) :
    PlannedFor pg attrs a { col with nonnull, nulls, acc } :=
  ⟨h.indexPos, h.attnum, h.typ, h.typeName, h.collation⟩

theorem PlannedFor.of_same {attrs : List (IndexAttr D)} {a : IndexAttr D} {col col' : ColumnBuild D}
    (h : PlannedFor pg attrs a col) (hsame : SameBuild col col') : PlannedFor pg attrs a col' :=
  ⟨hsame.indexPos ▸ h.indexPos, hsame.attnum.trans h.attnum, hsame.typ.trans h.typ,
    hsame.typeName ▸ h.typeName, hsame.collation.trans h.collation⟩

/-- A column before the scan. -/
structure Fresh (pg : Pg D) (quoteAll : Bool) (a : IndexAttr D) (col : ColumnBuild D) :
    Prop where
  typeName : pg.qualifiedTypeName quoteAll a.typ = .ok col.typeName
  nonnull : col.nonnull = 0
  nulls : col.nulls = 0
  acc : col.acc = planAccumulator pg a.typ

private theorem planColumnsFrom_spec {quoteAll : Bool} {attrs : List (IndexAttr D)}
    (done : List (IndexAttr D)) {todo : List (IndexAttr D)} {cols : List (ColumnBuild D)}
    (hattrs : attrs = done ++ todo)
    (h : planColumnsFrom pg quoteAll done.length todo = .ok cols) :
    List.Forall₂ (fun a col => PlannedFor pg attrs a col ∧ Fresh pg quoteAll a col)
      (summarized todo) cols := by
  induction todo generalizing done cols with
  | nil =>
      cases h
      exact .nil
  | cons a todo ih =>
      have hnext : attrs = (done ++ [a]) ++ todo := by simpa using hattrs
      have hlen : (done ++ [a]).length = done.length + 1 := by simp
      rw [planColumnsFrom] at h
      split at h
      · rename_i hneg
        have hskip : summarized (a :: todo) = summarized todo := by
          simp [summarized, Int16.not_lt.mpr hneg]
        rw [hskip]
        exact ih (done ++ [a]) hnext (hlen ▸ h)
      · rename_i hpos
        obtain ⟨typeName, htn, h⟩ := bind_eq_ok.mp h
        obtain ⟨rest, hrest, h⟩ := bind_eq_ok.mp h
        cases h
        have hkeep : summarized (a :: todo) = a :: summarized todo := by
          simp [summarized, Int16.not_le.mp hpos]
        rw [hkeep]
        refine .cons ⟨⟨?_, rfl, rfl, ⟨quoteAll, htn⟩, rfl⟩, htn, rfl, rfl, rfl⟩
          (ih (done ++ [a]) hnext (hlen ▸ hrest))
        simp [hattrs]

/-- The planned columns follow the heap columns of the index. -/
theorem planColumns_spec {session : Session} {attrs : List (IndexAttr D)}
    {cols : List (ColumnBuild D)} (h : planColumns pg session attrs = .ok cols) :
    List.Forall₂ (fun a col => PlannedFor pg attrs a col ∧
      Fresh pg session.quoteAllIdentifiers a col) (summarized attrs) cols :=
  planColumnsFrom_spec [] rfl h

/-! ## What the scan counts -/

/-- The column has counted the values `seen`. -/
structure Counted (pg : Pg D) (attrs : List (IndexAttr D)) (a : IndexAttr D)
    (seen : List (Option D)) (col : ColumnBuild D) : Prop where
  planned : PlannedFor pg attrs a col
  nonnull : col.nonnull = (seen.filterMap id).length
  nulls : col.nulls = seen.countP Option.isNone
  kind : col.acc.kind = (planAccumulator pg a.typ).kind

theorem Fresh.counted {quoteAll : Bool} {attrs : List (IndexAttr D)} {a : IndexAttr D}
    {col : ColumnBuild D} (hplan : PlannedFor pg attrs a col) (h : Fresh pg quoteAll a col) :
    Counted pg attrs a [] col :=
  ⟨hplan, h.nonnull, h.nulls, congrArg Accumulator.kind h.acc⟩

theorem Counted.of_same {attrs : List (IndexAttr D)} {a : IndexAttr D} {seen : List (Option D)}
    {col col' : ColumnBuild D} (h : Counted pg attrs a seen col) (hsame : SameBuild col col') :
    Counted pg attrs a seen col' :=
  ⟨h.planned.of_same hsame, hsame.nonnull.trans h.nonnull, hsame.nulls.trans h.nulls,
    hsame.kind.trans h.kind⟩

/-- The value that the scan hands to the column. -/
theorem Counted.tuple {attrs : List (IndexAttr D)} {a : IndexAttr D} {seen : List (Option D)}
    {col : ColumnBuild D} (h : Counted pg attrs a seen col) (row : Row D) :
    indexTuple attrs row col.indexPos = a.value row :=
  indexTuple_eq h.planned.indexPos row

/-- One row of the scan, for one column. -/
theorem buildColumn_counted {g : Guc} {attrs : List (IndexAttr D)} {a : IndexAttr D}
    {col col' : ColumnBuild D} {seen : List (Option D)} {row : Row D}
    (hcount : Counted pg attrs a seen col)
    (h : buildColumn pg g (indexTuple attrs row) col = .ok col') :
    Counted pg attrs a (seen ++ [a.value row]) col' := by
  rw [buildColumn, hcount.tuple row] at h
  split at h
  · rename_i hnull
    cases h
    refine ⟨hcount.planned.of_eq _ _ _, ?_, ?_, hcount.kind⟩
    · simpa [hnull] using hcount.nonnull
    · simp [hnull, hcount.nulls]
  · rename_i value hval
    have hcounted :
        Counted pg attrs a (seen ++ [a.value row]) { col with nonnull := col.nonnull + 1 } := by
      refine ⟨hcount.planned.of_eq _ col.nulls col.acc, ?_, ?_, hcount.kind⟩
      · simp [hval, hcount.nonnull]
      · simpa [hval] using hcount.nulls
    exact hcounted.of_same (addValue_same h)

/-- The rule of the scan: what holds of the planned columns and is kept by every
row holds of every column in the end. -/
theorem scan_forall₂ {session : Session} {g : Guc} {attrs : List (IndexAttr D)}
    {R : IndexAttr D → List (Option D) → ColumnBuild D → Prop}
    (init : ∀ a col, PlannedFor pg attrs a col → Fresh pg session.quoteAllIdentifiers a col →
      R a [] col)
    (step : ∀ a seen col col' row, R a seen col →
      buildColumn pg g (indexTuple attrs row) col = .ok col' → R a (seen ++ [a.value row]) col')
    {rows : List (Row D)} {planned cols : List (ColumnBuild D)}
    (hplan : planColumns pg session attrs = .ok planned)
    (h : (rows.map (indexTuple attrs)).foldlM (buildCallback pg g) planned = .ok cols) :
    List.Forall₂ (fun a col => R a (rows.map a.value) col) (summarized attrs) cols := by
  have hinit : List.Forall₂ (fun a col => R a (([] : List (Row D)).map a.value) col)
      (summarized attrs) planned :=
    (planColumns_spec hplan).imp fun a col hcol => init a col hcol.1 hcol.2
  rw [List.foldlM_map] at h
  refine foldlM_run (P := fun rows cols => List.Forall₂
    (fun a col => R a (List.map a.value rows) col) (summarized attrs) cols) ?_ [] hinit h
  intro rows row cols cols' hcols hstep
  refine Lib.Aligned.forall₂_comp (fun a col col' hcol hcol' => ?_) hcols (forall₂_of_mapM hstep)
  simpa using step a _ col col' row hcol hcol'

/-! ## What an accumulator knows -/

section Holds

variable (ord : pg.BtreeOrder) (eord : pg.ExtentOrder)

/-- The values `seen` lie inside what the accumulator of the column `a` holds. -/
def Holds (a : IndexAttr D) (seen : List D) : Accumulator D → Prop
  | .minMax cmp min max =>
      pg.btreeCmpProc (pg.getBaseType a.typ) = some cmp ∧
        ((seen = [] ∧ min = none ∧ max = none) ∨
          ∃ lo hi, min = some lo ∧ max = some hi ∧ ∀ v ∈ seen,
            (columnOrder ord a.typ a.collation).le lo v ∧
              (columnOrder ord a.typ a.collation).le v hi)
  | .range extent =>
      (seen = [] ∧ extent = none) ∨ ∃ e, extent = some e ∧ ∀ v ∈ seen, eord.within.le v e
  | .geometry batch extent =>
      ∀ v ∈ seen, v ∈ batch ∨ eord.emptyGeometry v ∨
        ∃ t e, extent = some t ∧ pg.ExtentText a.typ t e ∧ eord.within.le v e
  | .unsupported => True

/-- The column has counted the values and folded them in. -/
structure Folded (attrs : List (IndexAttr D)) (a : IndexAttr D) (seen : List (Option D))
    (col : ColumnBuild D) : Prop extends Counted pg attrs a seen col where
  acc : Holds ord eord a (seen.filterMap id) col.acc

end Holds

section Fold

variable {ord : pg.BtreeOrder} {eord : pg.ExtentOrder}

/-- An accumulator starts out holding nothing. -/
theorem planAccumulator_holds (a : IndexAttr D) :
    Holds ord eord a [] (planAccumulator pg a.typ) := by
  simp only [planAccumulator]
  split
  · trivial
  · split
    · exact Or.inl ⟨rfl, rfl⟩
    · split
      · exact nofun
      · split
        · rename_i cmp hcmp
          exact ⟨hcmp, Or.inl ⟨rfl, rfl, rfl⟩⟩
        · trivial

/-- The previous extent is read back into the batch. -/
theorem flushBatch_cases {g : Guc} {typ : Oid} {batch batch' : List D} {extent : Option String}
    (h : flushBatch pg g typ batch extent = .ok batch') :
    (extent = none ∧ batch' = batch) ∨
      ∃ t d, extent = some t ∧ batch' = batch ++ [d] ∧ pg.textToDatum g typ t = .ok (some d) := by
  cases extent with
  | none =>
      cases h
      exact Or.inl ⟨rfl, rfl⟩
  | some t =>
      obtain ⟨d, hd, h⟩ := bind_eq_ok.mp h
      cases d with
      | none => cases h
      | some d =>
          cases h
          exact Or.inr ⟨t, d, rfl, rfl, hd⟩

/-- Every value that a geometry accumulator holds is inside the flushed batch. -/
private theorem flushBatch_holds {g : Guc} {a : IndexAttr D} {batch batch' seen : List D}
    {extent : Option String} (hacc : Holds ord eord a seen (.geometry batch extent))
    (h : flushBatch pg g (pg.getBaseType a.typ) batch extent = .ok batch') :
    ∀ v ∈ seen, eord.emptyGeometry v ∨ ∃ w ∈ batch', eord.within.le v w := by
  intro v hv
  have hsrc := flushBatch_cases h
  rcases hacc v hv with hmem | hnone | ⟨t, e, ht, he, hle⟩
  · refine Or.inr ⟨v, ?_, eord.within.le_refl v⟩
    rcases hsrc with ⟨-, rfl⟩ | ⟨_, _, -, rfl, -⟩
    · exact hmem
    · exact List.mem_append_left _ hmem
  · exact Or.inl hnone
  · rcases hsrc with ⟨hno, -⟩ | ⟨t', d, ht', rfl, hd⟩
    · rw [hno] at ht
      cases ht
    · obtain rfl : t' = t := Option.some.inj (ht'.symm.trans ht)
      exact Or.inr ⟨d, by simp, he.2 g d hd ▸ hle⟩

/-- A flush empties the batch. -/
theorem flushGeometry_batch {g : Guc} {col col' : ColumnBuild D}
    (h : flushGeometry pg g col = .ok col') (batch : List D) (extent : Option String)
    (hacc : col'.acc = .geometry batch extent) : batch = [] := by
  unfold flushGeometry at h
  split at h
  · rename_i batch₀ extent₀ hcol
    obtain ⟨batch', hbatch, h⟩ := bind_eq_ok.mp h
    split at h
    · rename_i hempty
      cases h
      rw [hcol] at hacc
      cases hacc
      rcases flushBatch_cases hbatch with ⟨-, rfl⟩ | ⟨_, _, -, rfl, -⟩
      · exact List.isEmpty_iff.mp hempty
      · simp at hempty
    · obtain ⟨result, -, h⟩ := bind_eq_ok.mp h
      cases h
      cases hacc
      rfl
  · rename_i hcol
    cases h
    exact absurd hacc (hcol batch extent)

/-- A flush keeps what the accumulator holds. -/
theorem flushGeometry_holds {g : Guc} {attrs : List (IndexAttr D)} {a : IndexAttr D}
    {col col' : ColumnBuild D} {seen : List D} (hplan : PlannedFor pg attrs a col)
    (hacc : Holds ord eord a seen col.acc) (h : flushGeometry pg g col = .ok col') :
    Holds ord eord a seen col'.acc := by
  unfold flushGeometry at h
  split at h
  · rename_i batch extent hcol
    obtain ⟨batch', hbatch, h⟩ := bind_eq_ok.mp h
    rw [hcol] at hacc
    rw [hplan.typ] at hbatch
    have hin := flushBatch_holds hacc hbatch
    split at h
    · cases h
      exact hcol ▸ hacc
    · obtain ⟨result, hresult, h⟩ := bind_eq_ok.mp h
      cases h
      have hup := eord.flushQuery_upper hplan.typeName hresult
      intro v hv
      right
      rcases hin v hv with hempty | ⟨w, hw, hle⟩
      · exact Or.inl hempty
      · rcases hup w hw with hempty | ⟨t, e, ht, he, hwe⟩
        · exact Or.inl (eord.emptyGeometry_of_within hle hempty)
        · exact Or.inr ⟨t, e, ht, he, eord.within.le_trans _ _ _ hle hwe⟩
  · cases h
    exact hacc

/-- Folding in one more value. -/
theorem addValue_holds {g : Guc} {attrs : List (IndexAttr D)} {a : IndexAttr D}
    {col col' : ColumnBuild D} {seen : List D} {value : D} (hplan : PlannedFor pg attrs a col)
    (hacc : Holds ord eord a seen col.acc) (h : addValue pg g col value = .ok col') :
    Holds ord eord a (seen ++ [value]) col'.acc := by
  unfold addValue at h
  split at h
  · rename_i cmp lo hi hcol
    obtain ⟨below, hbelow, h⟩ := bind_eq_ok.mp h
    obtain ⟨above, habove, h⟩ := bind_eq_ok.mp h
    cases h
    rw [hcol] at hacc
    obtain ⟨hcmp, hacc⟩ := hacc
    rcases hacc with ⟨-, hno, -⟩ | ⟨lo', hi', hlo, hhi, hseen⟩
    · cases hno
    cases hlo
    cases hhi
    rw [hplan.collation] at hbelow habove
    obtain ⟨⟨hlo, hlov⟩, hhi, hhiv⟩ := bounds_step ord hcmp hbelow habove
    refine ⟨hcmp, Or.inr ⟨_, _, rfl, rfl, fun v hv => ?_⟩⟩
    rcases List.mem_append.mp hv with hv | hv
    · obtain ⟨hlov, hvhi⟩ := hseen v hv
      exact ⟨(columnOrder ord a.typ a.collation).le_trans _ _ _ hlo hlov,
        (columnOrder ord a.typ a.collation).le_trans _ _ _ hvhi hhi⟩
    · rw [List.mem_singleton.mp hv]
      exact ⟨hlov, hhiv⟩
  · rename_i cmp min max hnot hcol
    cases h
    rw [hcol] at hacc
    obtain ⟨hcmp, hacc⟩ := hacc
    rcases hacc with ⟨rfl, -, -⟩ | ⟨lo, hi, rfl, rfl, -⟩
    · refine ⟨hcmp, Or.inr ⟨value, value, rfl, rfl, fun v hv => ?_⟩⟩
      rw [List.mem_singleton.mp hv]
      exact ⟨(columnOrder ord a.typ a.collation).le_refl value,
        (columnOrder ord a.typ a.collation).le_refl value⟩
    · exact absurd rfl (hnot lo hi rfl)
  · rename_i hcol
    cases h
    rw [hcol] at hacc
    rcases hacc with ⟨rfl, -⟩ | ⟨_, hno, -⟩
    · refine Or.inr ⟨value, rfl, fun v hv => ?_⟩
      rw [List.mem_singleton.mp hv]
      exact eord.within.le_refl value
    · cases hno
  · rename_i old hcol
    obtain ⟨merged, hmerged, h⟩ := bind_eq_ok.mp h
    cases h
    rw [hcol] at hacc
    rcases hacc with ⟨-, hno⟩ | ⟨e, he, hseen⟩
    · cases hno
    · cases he
      obtain ⟨hold, hvalue⟩ := eord.rangeMerge_upper hmerged
      refine Or.inr ⟨merged, rfl, fun v hv => ?_⟩
      rcases List.mem_append.mp hv with hv | hv
      · exact eord.within.le_trans _ _ _ (hseen v hv) hold
      · rw [List.mem_singleton.mp hv]
        exact hvalue
  · rename_i batch extent hcol
    rw [hcol] at hacc
    have hpushed : Holds ord eord a (seen ++ [value]) (.geometry (batch ++ [value]) extent) := by
      intro v hv
      rcases List.mem_append.mp hv with hv | hv
      · rcases hacc v hv with hmem | hrest
        · exact Or.inl (List.mem_append_left _ hmem)
        · exact Or.inr hrest
      · exact Or.inl (List.mem_append_right _ hv)
    split at h
    · exact flushGeometry_holds (hplan.of_eq col.nonnull col.nulls _) hpushed h
    · cases h
      exact hpushed
  · rename_i hcol
    cases h
    rw [hcol]
    trivial

/-! ## The scan -/

/-- One row of the scan, folded into one column. -/
theorem buildColumn_folded {g : Guc} {attrs : List (IndexAttr D)} {a : IndexAttr D}
    {col col' : ColumnBuild D} {seen : List (Option D)} {row : Row D}
    (hfold : Folded ord eord attrs a seen col)
    (h : buildColumn pg g (indexTuple attrs row) col = .ok col') :
    Folded ord eord attrs a (seen ++ [a.value row]) col' := by
  refine ⟨buildColumn_counted hfold.toCounted h, ?_⟩
  rw [buildColumn, hfold.tuple row] at h
  split at h
  · rename_i hnull
    cases h
    simpa [hnull] using hfold.acc
  · rename_i value hval
    have hacc := addValue_holds (hfold.planned.of_eq (col.nonnull + 1) col.nulls col.acc)
      hfold.acc h
    simpa [hval] using hacc

/-! ## Rendering -/

/-- A bound that is rendered is the text of the value it was rendered from. -/
private theorem renderBound_eq_some {g : Guc} (hg : g.Stable) {typ : Oid} {d : Option D}
    {t : String} (h : renderBound pg g typ d = .ok (some t)) :
    ∃ v, d = some v ∧ pg.Renders typ t v := by
  cases d with
  | none => cases h
  | some v => exact ⟨v, rfl, g, hg, h⟩

private theorem renderBound_renders {g : Guc} (hg : g.Stable) {typ : Oid} {d : Option D}
    {text : Option String} (h : renderBound pg g typ d = .ok text) :
    ∀ t ∈ text, ∃ v, pg.Renders typ t v := by
  intro t ht
  rw [Option.mem_def.mp ht] at h
  obtain ⟨v, -, hv⟩ := renderBound_eq_some hg h
  exact ⟨v, hv⟩

variable (ord eord) in
/-- What an entry's bounds promise about the values folded into `acc`. -/
structure BoundsOf (a : IndexAttr D) (seen : List D) (acc : Accumulator D) (out : ColSummary) :
    Prop where
  min : out.overlap = false → ∀ t ∈ out.min, ∃ v, pg.Renders a.typ t v
  max : out.overlap = false → ∀ t ∈ out.max, ∃ v, pg.Renders a.typ t v
  inBounds : out.unbounded = false → acc.lostBound out.min out.max = false →
    ∀ v ∈ seen, InBounds ord eord a out v

theorem renderBounds_boundsOf {g : Guc} (hg : g.Stable) {attrs : List (IndexAttr D)}
    {a : IndexAttr D} {col : ColumnBuild D} {seen : List D} {overlap unbounded : Bool}
    {min max : Option String} (hplan : PlannedFor pg attrs a col)
    (hacc : Holds ord eord a seen col.acc)
    (hflushed : ∀ batch extent, col.acc = .geometry batch extent → batch = [])
    (h : renderBounds pg g col = .ok (overlap, min, max, unbounded)) :
    BoundsOf ord eord a seen col.acc (col.entry overlap min max unbounded) := by
  unfold renderBounds at h
  rw [hplan.typ] at h
  split at h
  · rename_i cmp lo hi hcol
    obtain ⟨lot, hlot, h⟩ := bind_eq_ok.mp h
    obtain ⟨hit, hhit, h⟩ := bind_eq_ok.mp h
    cases h
    refine ⟨fun _ => renderBound_renders hg hlot, fun _ => renderBound_renders hg hhit, ?_⟩
    intro _ hlost v hv
    rw [hcol] at hlost hacc
    simp only [ColumnBuild.entry, Accumulator.lostBound, Bool.or_eq_false_iff,
      Option.isNone_eq_false_iff, Option.isSome_iff_exists] at hlost
    obtain ⟨⟨s, rfl⟩, t, rfl⟩ := hlost
    obtain ⟨lo', rfl, hlo⟩ := renderBound_eq_some hg hlot
    obtain ⟨hi', rfl, hhi⟩ := renderBound_eq_some hg hhit
    rcases hacc.2 with ⟨-, hno, -⟩ | ⟨_, _, hlo', hhi', hseen⟩
    · cases hno
    · cases hlo'
      cases hhi'
      have hbetween := hseen v hv
      rw [← hplan.collation] at hbetween
      exact ⟨s, t, lo', hi', rfl, rfl, hlo, hhi, hbetween⟩
  · rename_i extent hcol
    obtain ⟨text, htext, h⟩ := bind_eq_ok.mp h
    cases h
    refine ⟨nofun, nofun, ?_⟩
    intro _ hlost v hv
    rw [hcol] at hlost hacc
    simp only [ColumnBuild.entry, Accumulator.lostBound, Option.isNone_eq_false_iff,
      Option.isSome_iff_exists] at hlost
    obtain ⟨t, rfl⟩ := hlost
    obtain ⟨e, rfl, he⟩ := renderBound_eq_some hg htext
    rcases hacc with ⟨-, hno⟩ | ⟨_, he', hseen⟩
    · cases hno
    · cases he'
      exact Or.inr ⟨t, e, rfl, he, hseen v hv⟩
  · rename_i batch extent hcol
    cases h
    obtain rfl := hflushed batch _ hcol
    rw [hcol] at hacc
    refine ⟨nofun, nofun, fun _ _ v hv => ?_⟩
    rcases hacc v hv with hno | hempty | ⟨t, e, ht, he, hle⟩
    · exact absurd hno List.not_mem_nil
    · exact Or.inl hempty
    · exact Or.inr ⟨t, e, ht, he.1, hle⟩
  · cases h
    exact ⟨fun _ => nofun, fun _ => nofun, nofun⟩

/-- Whether the bounds are kept or given up, the entry covers what was seen. -/
theorem settle_covers {a : IndexAttr D} {col : ColumnBuild D} {seen : List (Option D)}
    {overlap unbounded : Bool} {min max : Option String}
    (hnonnull : col.nonnull = (seen.filterMap id).length)
    (hnulls : col.nulls = seen.countP Option.isNone)
    (hbounds : BoundsOf ord eord a (seen.filterMap id) col.acc
      (col.entry overlap min max unbounded)) :
    ∀ v ∈ seen, Covers ord eord a (col.settle (col.entry overlap min max unbounded)) v := by
  intro v hv
  have hcover : Covers ord eord a (col.settle (col.entry overlap min max unbounded)) v ↔
      Covers ord eord a
        (if unbounded || (decide (0 < col.nonnull) && col.acc.lostBound min max) then
        (col.entry overlap min max unbounded).makeUnbounded
        else col.entry overlap min max unbounded) v := Iff.rfl
  rw [hcover]
  cases v with
  | none =>
      have hpos : 0 < col.nulls := by
        rw [hnulls]
        exact List.countP_pos_iff.mpr ⟨none, hv, rfl⟩
      split <;> exact decide_eq_true hpos
  | some v =>
      have hmem : v ∈ seen.filterMap id := List.mem_filterMap.mpr ⟨some v, hv, rfl⟩
      have hpos : 0 < col.nonnull := by
        rw [hnonnull]
        exact List.length_pos_of_mem hmem
      have hall : decide (col.nonnull = 0 ∧ 0 < col.nulls) = false :=
        decide_eq_false fun hno => by omega
      split
      · exact covers_of_unbounded hall rfl v
      · rename_i hkept
        simp only [Bool.or_eq_true, Bool.and_eq_true, decide_eq_true_eq, not_or, not_and,
          Bool.not_eq_true] at hkept
        exact ⟨hall, Or.inr (hbounds.inBounds hkept.1 (hkept.2 hpos) v hmem)⟩

/-- What `finish` makes of a column. -/
theorem finishColumn_cases {g : Guc} {col : ColumnBuild D} {out : ColSummary}
    (h : finishColumn pg g col = .ok out) :
    ∃ flushed overlap min max unbounded, flushGeometry pg g col = .ok flushed ∧
      renderBounds pg g flushed = .ok (overlap, min, max, unbounded) ∧
      out = flushed.settle (flushed.entry overlap min max unbounded) := by
  obtain ⟨flushed, hflush, h⟩ := bind_eq_ok.mp h
  obtain ⟨⟨overlap, min, max, unbounded⟩, hrender, h⟩ := bind_eq_ok.mp h
  cases h
  exact ⟨flushed, overlap, min, max, unbounded, hflush, hrender, rfl⟩

/-- The flags of the entry are what the column has counted. -/
theorem finishColumn_counts {g : Guc} {col : ColumnBuild D} {out : ColSummary}
    (h : finishColumn pg g col = .ok out) : out.attnum = col.attnum ∧
      out.hasNulls = decide (0 < col.nulls) ∧
      out.allNulls = decide (col.nonnull = 0 ∧ 0 < col.nulls) := by
  obtain ⟨flushed, overlap, min, max, unbounded, hflush, -, rfl⟩ := finishColumn_cases h
  have hsame := flushGeometry_same hflush
  rw [← hsame.attnum, ← hsame.nulls, ← hsame.nonnull]
  unfold ColumnBuild.settle
  split <;> exact ⟨rfl, rfl, rfl⟩

/-- The entry of a column covers what the column has seen. -/
theorem finishColumn_covers {g : Guc} (hg : g.Stable) {attrs : List (IndexAttr D)}
    {a : IndexAttr D} {col : ColumnBuild D} {seen : List (Option D)} {out : ColSummary}
    (hfold : Folded ord eord attrs a seen col) (h : finishColumn pg g col = .ok out) :
    EntryOf pg a out ∧ ∀ v ∈ seen, Covers ord eord a out v := by
  obtain ⟨flushed, overlap, min, max, unbounded, hflush, hrender, rfl⟩ := finishColumn_cases h
  have hacc := flushGeometry_holds hfold.planned hfold.acc hflush
  have hcount := hfold.toCounted.of_same (flushGeometry_same hflush)
  have hplan := hcount.planned
  have hbounds := renderBounds_boundsOf hg hplan hacc (flushGeometry_batch hflush) hrender
  refine ⟨?_, settle_covers hcount.nonnull hcount.nulls hbounds⟩
  have hentry : EntryOf pg a (flushed.entry overlap min max unbounded) :=
    ⟨hplan.attnum, hplan.collation, hplan.typeName, hbounds.min, hbounds.max⟩
  unfold ColumnBuild.settle
  split
  · exact entryOf_makeUnbounded hentry
  · exact hentry

/-- What a build that returns has found, scanned and rendered. -/
theorem buildLeafSummary_cases {session : Session} {attrs : List (IndexAttr D)}
    {rows : List (Row D)} {summary : IndexSummary}
    (h : buildLeafSummary pg session attrs rows = .ok summary) :
    ∃ planned cols, planColumns pg session attrs = .ok planned ∧
      (rows.map (indexTuple attrs)).foldlM (buildCallback pg session.guc) planned = .ok cols ∧
      finish pg session.guc.pin cols = .ok summary := by
  obtain ⟨planned, hplan, h⟩ := bind_eq_ok.mp h
  obtain ⟨cols, hscan, h⟩ := bind_eq_ok.mp h
  split at h
  · rename_i hpinned
    exact ⟨planned, cols, hplan, hscan, (withStableIo_eq_some hpinned).symm.trans h⟩
  · cases h

/-- The rule of the build: what the scan keeps of every column, and `finish` turns
into a fact about its entry. -/
theorem buildLeafSummary_forall₂ {session : Session} {attrs : List (IndexAttr D)}
    {R : IndexAttr D → List (Option D) → ColumnBuild D → Prop}
    {Q : IndexAttr D → List (Option D) → ColSummary → Prop}
    (init : ∀ a col, PlannedFor pg attrs a col → Fresh pg session.quoteAllIdentifiers a col →
      R a [] col)
    (step : ∀ g a seen col col' row, R a seen col →
      buildColumn pg g (indexTuple attrs row) col = .ok col' → R a (seen ++ [a.value row]) col')
    (finish : ∀ g a seen col out, g.Stable → R a seen col → finishColumn pg g col = .ok out →
      Q a seen out)
    {rows : List (Row D)} {s : IndexSummary} (h : buildLeafSummary pg session attrs rows = .ok s) :
    List.Forall₂ (fun a c => Q a (rows.map a.value) c) (summarized attrs) s.cols := by
  obtain ⟨planned, cols, hplan, hscan, hfinish⟩ := buildLeafSummary_cases h
  obtain ⟨outs, houts, hfinish⟩ := bind_eq_ok.mp hfinish
  cases hfinish
  refine Lib.Aligned.forall₂_comp (fun a col out hcol hout => ?_)
    (scan_forall₂ init (step session.guc) hplan hscan) (forall₂_of_mapM houts)
  exact finish _ a _ col out session.guc.pin_stable hcol hout

/-- The entries are those of the columns, with the type names that the session has written. -/
theorem buildLeafSummary_typeNames {session : Session} {attrs : List (IndexAttr D)}
    {rows : List (Row D)} {s : IndexSummary} (h : buildLeafSummary pg session attrs rows = .ok s) :
    List.Forall₂ (fun a c => c.attnum = a.attnum ∧
      pg.qualifiedTypeName session.quoteAllIdentifiers a.typ = .ok c.typeName)
      (summarized attrs) s.cols := by
  refine buildLeafSummary_forall₂ (R := fun a _ col => col.attnum = a.attnum ∧
      pg.qualifiedTypeName session.quoteAllIdentifiers a.typ = .ok col.typeName)
    (Q := fun a _ c => c.attnum = a.attnum ∧
      pg.qualifiedTypeName session.quoteAllIdentifiers a.typ = .ok c.typeName)
    (fun _ _ hplan hfresh => ⟨hplan.attnum, hfresh.typeName⟩)
    (fun g a seen col col' row hnamed hstep => ?_) (fun g a seen col out _ hnamed hout => ?_) h
  · rw [buildColumn] at hstep
    split at hstep
    · cases hstep
      exact hnamed
    · have hsame := addValue_same hstep
      rw [hsame.attnum, hsame.typeName]
      exact hnamed
  · obtain ⟨flushed, overlap, min, max, unbounded, hflush, -, rfl⟩ := finishColumn_cases hout
    have hsettled : (flushed.settle (flushed.entry overlap min max unbounded)).attnum =
          flushed.attnum ∧
        (flushed.settle (flushed.entry overlap min max unbounded)).typeName =
          flushed.typeName := by
      unfold ColumnBuild.settle
      split <;> exact ⟨rfl, rfl⟩
    have hsame := flushGeometry_same hflush
    rw [hsettled.1, hsettled.2, hsame.attnum, hsame.typeName]
    exact hnamed

/-- The summary of a build covers the rows of its scan. -/
theorem buildLeafSummary_covers {session : Session} {attrs : List (IndexAttr D)}
    {rows : List (Row D)} {summary : IndexSummary}
    (h : buildLeafSummary pg session attrs rows = .ok summary) :
    SummaryCovers ord eord attrs summary (rowValues {row | row ∈ rows}) := by
  refine (buildLeafSummary_forall₂ (R := Folded ord eord attrs)
    (Q := fun a seen c => EntryOf pg a c ∧ ∀ v ∈ seen, Covers ord eord a c v)
    (fun a _ hplan hfresh => ⟨hfresh.counted hplan, hfresh.acc ▸ planAccumulator_holds a⟩)
    (fun _ _ _ _ _ _ hfold hstep => buildColumn_folded hfold hstep)
    (fun _ _ _ _ _ hg hfold hout => finishColumn_covers hg hfold hout) h).imp fun a c hac => ?_
  refine ⟨hac.1, ?_⟩
  rintro v ⟨row, hrow, rfl⟩
  exact hac.2 _ (List.mem_map_of_mem hrow)

end Fold

/-! ## An empty table -/

variable (pg) in
/-- What a planned column starts with. -/
theorem planAccumulator_cases (typ : Oid) :
    planAccumulator pg typ = .unsupported ∨ planAccumulator pg typ = .range none ∨
      planAccumulator pg typ = .geometry [] none ∨
      ∃ cmp, planAccumulator pg typ = .minMax cmp none none := by
  simp only [planAccumulator]
  split
  · simp
  · split
    · simp
    · split
      · simp
      · split <;> simp

/-- A column that is kept by minimum and maximum has a compare procedure. -/
theorem exists_btreeCmpProc {typ : Oid} (h : (planAccumulator pg typ).kind = .minMax) :
    ∃ cmp, pg.btreeCmpProc (pg.getBaseType typ) = some cmp := by
  simp only [planAccumulator] at h
  split at h
  · cases h
  · split at h
    · cases h
    · split at h
      · cases h
      · split at h
        · rename_i cmp hcmp
          exact ⟨cmp, hcmp⟩
        · cases h

/-- A column that has seen nothing is rendered without an error, and keeps its
bounds if its type has any. -/
theorem Fresh.finishColumn_ok {quoteAll : Bool} {a : IndexAttr D} {col : ColumnBuild D}
    (h : Fresh pg quoteAll a col) (g : Guc) :
    ∃ out, finishColumn pg g col = .ok out ∧ out.hasNulls = false ∧
      (out.unbounded = true → (planAccumulator pg a.typ).kind = .unsupported) := by
  have hflush : flushGeometry pg g col = .ok col := by
    unfold flushGeometry
    rcases planAccumulator_cases pg a.typ with hacc | hacc | hacc | ⟨cmp, hacc⟩ <;>
      rw [h.acc, hacc]
    rfl
  obtain ⟨overlap, min, max, unbounded, hrender, hunb⟩ : ∃ overlap min max unbounded,
      renderBounds pg g col = .ok (overlap, min, max, unbounded) ∧
        (unbounded = true → (planAccumulator pg a.typ).kind = .unsupported) := by
    unfold renderBounds
    rcases planAccumulator_cases pg a.typ with hacc | hacc | hacc | ⟨cmp, hacc⟩ <;>
      rw [h.acc, hacc] <;> exact ⟨_, _, _, _, rfl, by simp [Accumulator.kind]⟩
  have hfinish :
      finishColumn pg g col = .ok (col.settle (col.entry overlap min max unbounded)) := by
    simp only [finishColumn, hflush, hrender, bind, Except.bind]
  refine ⟨_, hfinish, ?_, fun hout => hunb ?_⟩
  · rw [(finishColumn_counts hfinish).2.1, h.nulls]
    rfl
  · cases unbounded with
    | true => rfl
    | false => simp [ColumnBuild.settle, h.nonnull, ColumnBuild.entry] at hout

/-- An empty table has a summary if the columns of the index can be planned. -/
theorem buildLeafSummary_nil (session : Session) (hserial : session.inParallelMode = false)
    {attrs : List (IndexAttr D)} {planned : List (ColumnBuild D)}
    (hplan : planColumns pg session attrs = .ok planned) :
    ∃ s, buildLeafSummary pg session attrs [] = .ok s ∧
      List.Forall₂ (fun a c => c.hasNulls = false ∧
        (c.unbounded = true → (planAccumulator pg a.typ).kind = .unsupported))
        (summarized attrs) s.cols := by
  have hfresh := planColumns_spec hplan
  obtain ⟨outs, houts⟩ := exists_mapM (f := finishColumn pg session.guc.pin) fun col hcol => by
    obtain ⟨a, -, -, ha⟩ := Lib.Aligned.forall₂_mem_right hfresh col hcol
    obtain ⟨out, hout, -⟩ := ha.finishColumn_ok session.guc.pin
    exact ⟨out, hout⟩
  refine ⟨⟨outs⟩, ?_, ?_⟩
  · simp [buildLeafSummary, hplan, withStableIo_of_not_parallel _ hserial, finish, houts, bind,
      Except.bind, pure, Except.pure]
  · refine Lib.Aligned.forall₂_comp (fun a col out hcol hout => ?_) hfresh (forall₂_of_mapM houts)
    obtain ⟨out', hout', hflags⟩ := hcol.2.finishColumn_ok session.guc.pin
    rw [Except.ok.inj (hout.symm.trans hout')]
    exact hflags

end TableRange
