import TableRange.Coverage.FirstEntry

/-!
# Bounds that are taken on

`Covers` says that the values lie between the bounds.  `Extremes` adds that the
bounds are values themselves, the smallest and the largest one, so that two entries
with the same values have bounds that are equal in the column's order.
-/

namespace TableRange

open Lib.Interval Lib.Fallible

variable {D : Type} {pg : Pg D}

section Extremes

variable (ord : pg.BtreeOrder)

/-- `lo` and `hi` are among the values, and all of them lie between the two. -/
structure Spans (a : IndexAttr D) (seen : List (Option D)) (lo hi : D) : Prop where
  lower : some lo ∈ seen
  upper : some hi ∈ seen
  between : ∀ v, some v ∈ seen → (columnOrder ord a.typ a.collation).le lo v ∧
    (columnOrder ord a.typ a.collation).le v hi

/-- As long as they are kept, the btree bounds of the entry are texts of its smallest
and its largest value. -/
def Extremes (a : IndexAttr D) (seen : List (Option D)) (c : ColSummary) : Prop :=
  c.overlap = false → c.unbounded = false →
    ((∀ v ∈ seen, v = none) ∧ c.min = none ∧ c.max = none) ∨
      ∃ s t lo hi, c.min = some s ∧ c.max = some t ∧ pg.Renders a.typ s lo ∧
        pg.Renders a.typ t hi ∧ Spans ord a seen lo hi

end Extremes

variable {ord : pg.BtreeOrder} {eord : pg.ExtentOrder}

/-- Two sets of values, one within the other, and their bounds. -/
theorem Spans.mono {a : IndexAttr D} {seen seen' : List (Option D)} {lo hi lo' hi' : D}
    (h : Spans ord a seen lo hi) (h' : Spans ord a seen' lo' hi')
    (hsub : ∀ v, some v ∈ seen' → some v ∈ seen) :
    (columnOrder ord a.typ a.collation).le lo lo' ∧ (columnOrder ord a.typ a.collation).le hi' hi :=
  ⟨(h.between lo' (hsub lo' h'.lower)).1, (h.between hi' (hsub hi' h'.upper)).2⟩

theorem Spans.of_mem_iff {a : IndexAttr D} {seen seen' : List (Option D)} {lo hi : D}
    (h : Spans ord a seen lo hi) (hsame : ∀ v, v ∈ seen ↔ v ∈ seen') : Spans ord a seen' lo hi :=
  ⟨(hsame _).mp h.lower, (hsame _).mp h.upper, fun v hv => h.between v ((hsame _).mpr hv)⟩

theorem Extremes.of_mem_iff {a : IndexAttr D} {seen seen' : List (Option D)} {c : ColSummary}
    (h : Extremes ord a seen c) (hsame : ∀ v, v ∈ seen ↔ v ∈ seen') : Extremes ord a seen' c := by
  intro hov hunb
  rcases h hov hunb with ⟨hnone, hmin, hmax⟩ | ⟨s, t, lo, hi, hs, ht, hlo, hhi, hspans⟩
  · exact Or.inl ⟨fun v hv => hnone v ((hsame v).mpr hv), hmin, hmax⟩
  · exact Or.inr ⟨s, t, lo, hi, hs, ht, hlo, hhi, hspans.of_mem_iff hsame⟩

theorem extremes_makeUnbounded {a : IndexAttr D} {seen : List (Option D)} {c : ColSummary} :
    Extremes ord a seen c.makeUnbounded := by
  intro _ hunb
  cases hunb

/-! ## The build -/

/-- The bounds in an accumulator are among the values. -/
def Accumulator.FromSeen (seen : List D) : Accumulator D → Prop
  | .minMax _ min max => (∀ lo ∈ min, lo ∈ seen) ∧ ∀ hi ∈ max, hi ∈ seen
  | _ => True

theorem planAccumulator_fromSeen (pg : Pg D) (typ : Oid) :
    (planAccumulator pg typ).FromSeen [] := by
  rcases planAccumulator_cases pg typ with h | h | h | ⟨cmp, h⟩ <;> rw [h] <;>
    simp [Accumulator.FromSeen]

/-- Only the accumulator of a btree column says anything. -/
theorem Accumulator.fromSeen_of_kind {acc : Accumulator D} (h : acc.kind ≠ .minMax)
    (seen : List D) :
    acc.FromSeen seen := by
  cases acc with
  | minMax => exact absurd rfl h
  | range | geometry | unsupported => trivial

theorem flushGeometry_fromSeen {g : Guc} {col col' : ColumnBuild D} {seen : List D}
    (hseen : col.acc.FromSeen seen) (h : flushGeometry pg g col = .ok col') :
    col'.acc.FromSeen seen := by
  unfold flushGeometry at h
  split at h
  · obtain ⟨batch', -, h⟩ := bind_eq_ok.mp h
    split at h
    · cases h
      exact hseen
    · obtain ⟨result, -, h⟩ := bind_eq_ok.mp h
      cases h
      trivial
  · cases h
    exact hseen

theorem addValue_fromSeen {g : Guc} {col col' : ColumnBuild D} {seen : List D} {value : D}
    (hseen : col.acc.FromSeen seen) (h : addValue pg g col value = .ok col') :
    col'.acc.FromSeen (seen ++ [value]) := by
  by_cases hkind : col.acc.kind = .minMax
  · unfold addValue at h
    split at h
    · rename_i cmp lo hi hacc
      rw [hacc] at hseen
      obtain ⟨below, -, h⟩ := bind_eq_ok.mp h
      obtain ⟨above, -, h⟩ := bind_eq_ok.mp h
      cases h
      constructor
      · rintro v ⟨⟩
        split
        · simp
        · exact List.mem_append_left _ (hseen.1 lo rfl)
      · rintro v ⟨⟩
        split
        · simp
        · exact List.mem_append_left _ (hseen.2 hi rfl)
    · cases h
      simp [Accumulator.FromSeen]
    all_goals
      rename_i hacc
      rw [hacc] at hkind
      cases hkind
  · exact Accumulator.fromSeen_of_kind (fun hno => hkind ((addValue_same h).kind ▸ hno)) _

variable (ord) in
/-- The column has folded in the values and taken its bounds from them. -/
structure FoldedFrom (attrs : List (IndexAttr D)) (a : IndexAttr D) (seen : List (Option D))
    (col : ColumnBuild D) : Prop extends Folded ord pg.noExtents attrs a seen col where
  fromSeen : col.acc.FromSeen (seen.filterMap id)

theorem buildColumn_foldedFrom {g : Guc} {attrs : List (IndexAttr D)} {a : IndexAttr D}
    {col col' : ColumnBuild D} {seen : List (Option D)} {row : Row D}
    (hfold : FoldedFrom ord attrs a seen col)
    (h : buildColumn pg g (indexTuple attrs row) col = .ok col') :
    FoldedFrom ord attrs a (seen ++ [a.value row]) col' := by
  refine ⟨buildColumn_folded hfold.toFolded h, ?_⟩
  rw [buildColumn, hfold.toCounted.tuple row] at h
  split at h
  · rename_i hnull
    cases h
    simpa [hnull] using hfold.fromSeen
  · rename_i value hval
    have hfrom : ({ col with nonnull := col.nonnull + 1 } : ColumnBuild D).acc.FromSeen
        (seen.filterMap id) := hfold.fromSeen
    simpa [hval] using addValue_fromSeen hfrom h

theorem mem_filterMap_id {seen : List (Option D)} {v : D} :
    v ∈ seen.filterMap id ↔ some v ∈ seen := by
  simp [List.mem_filterMap]

theorem finishColumn_extremes {g : Guc} (hg : g.Stable) {attrs : List (IndexAttr D)}
    {a : IndexAttr D} {col : ColumnBuild D} {seen : List (Option D)} {out : ColSummary}
    (hfold : FoldedFrom ord attrs a seen col) (h : finishColumn pg g col = .ok out) :
    Extremes ord a seen out := by
  obtain ⟨flushed, overlap, min, max, unbounded, hflush, hrender, rfl⟩ := finishColumn_cases h
  have hcount := hfold.toCounted.of_same (flushGeometry_same hflush)
  have hacc := flushGeometry_holds hfold.planned hfold.acc hflush
  have hseen := flushGeometry_fromSeen hfold.fromSeen hflush
  unfold ColumnBuild.settle
  split
  · exact extremes_makeUnbounded
  rename_i hkept
  intro hov _
  simp only [Bool.or_eq_true, Bool.and_eq_true, decide_eq_true_eq, not_or, not_and,
    Bool.not_eq_true] at hkept
  unfold renderBounds at hrender
  split at hrender
  · rename_i cmp lo hi hflushed
    rw [hflushed] at hacc hseen hkept
    obtain ⟨lot, hlot, hrender⟩ := bind_eq_ok.mp hrender
    obtain ⟨hit, hhit, hrender⟩ := bind_eq_ok.mp hrender
    cases hrender
    rcases hacc.2 with ⟨hnil, rfl, rfl⟩ | ⟨lo, hi, rfl, rfl, hbetween⟩
    · cases hlot
      cases hhit
      refine Or.inl ⟨fun v hv => ?_, rfl, rfl⟩
      cases v with
      | none => rfl
      | some v =>
          rw [← mem_filterMap_id, hnil] at hv
          cases hv
    · have hlo := hseen.1 lo rfl
      have hpos : 0 < flushed.nonnull := by
        rw [hcount.nonnull]
        exact List.length_pos_of_mem hlo
      have hlost := hkept.2 hpos
      simp only [ColumnBuild.entry, Accumulator.lostBound, Bool.or_eq_false_iff,
        Option.isNone_eq_false_iff, Option.isSome_iff_exists] at hlost
      obtain ⟨⟨s, rfl⟩, t, rfl⟩ := hlost
      rw [hcount.planned.typ] at hlot hhit
      refine Or.inr ⟨s, t, lo, hi, rfl, rfl, ⟨g, hg, hlot⟩, ⟨g, hg, hhit⟩, ?_⟩
      exact ⟨mem_filterMap_id.mp hlo, mem_filterMap_id.mp (hseen.2 hi rfl),
        fun v hv => hbetween v (mem_filterMap_id.mpr hv)⟩
  · obtain ⟨text, -, hrender⟩ := bind_eq_ok.mp hrender
    cases hrender
    cases hov
  · cases hrender
    cases hov
  · cases hrender
    cases hkept.1

variable (ord) in
theorem buildLeafSummary_extremes {session : Session} {attrs : List (IndexAttr D)}
    {rows : List (Row D)} {s : IndexSummary} (h : buildLeafSummary pg session attrs rows = .ok s) :
    List.Forall₂ (fun a c => EntryOf pg a c ∧ Extremes ord a (rows.map a.value) c)
      (summarized attrs) s.cols :=
  buildLeafSummary_forall₂ (R := FoldedFrom ord attrs)
    (Q := fun a seen c => EntryOf pg a c ∧ Extremes ord a seen c)
    (fun a _ hplan hfresh => ⟨⟨hfresh.counted hplan, hfresh.acc ▸ planAccumulator_holds a⟩,
      hfresh.acc ▸ planAccumulator_fromSeen pg a.typ⟩)
    (fun _ _ _ _ _ _ hfold hstep => buildColumn_foldedFrom hfold hstep)
    (fun _ _ _ _ _ hg hfold hout => ⟨(finishColumn_covers hg hfold.toFolded hout).1,
      finishColumn_extremes hg hfold hout⟩) h

/-! ## The insert -/

/-- A fold into btree bounds moves the end that the value lies beyond. -/
theorem widenMinmax_extremes (io : pg.TextRoundTrip) {g : Guc} (hg : g.Stable) {a : IndexAttr D}
    {c c' : ColSummary} {seen : List (Option D)} {value : D} {changed : Bool}
    (hov : c.overlap = false) (hunb : c.unbounded = false) (hc : Extremes ord a seen c)
    (h : widenMinmax pg g c a.typ a.collation value = .ok (some (c', changed))) :
    Extremes ord a (some value :: seen) c' := by
  obtain ⟨newText, hnew, hcases⟩ := widenMinmax_cases h
  have hnew : pg.Renders a.typ newText value := ⟨g, hg, hnew⟩
  let _ := columnOrder ord a.typ a.collation
  intro _ _
  rcases hcases with ⟨hmin, -, -, rfl⟩ |
    ⟨s, t, cmp, lo, hi, below, above, hs, ht, hcmp, hlo, hhi, hbelow, habove, -, rfl⟩
  · -- the first value is both bounds
    rcases hc hov hunb with ⟨hnone, -, -⟩ | ⟨s, t, lo, hi, hs, -⟩
    · refine Or.inr ⟨newText, newText, value, value, rfl, rfl, hnew, hnew, by simp, by simp, ?_⟩
      intro v hv
      rcases List.mem_cons.mp hv with hv | hv
      · cases hv
        exact ⟨le_refl value, le_refl value⟩
      · cases hnone _ hv
    · cases hmin.symm.trans hs
  · rcases hc hov hunb with ⟨-, hmin, -⟩ | ⟨s', t', lo', hi', hs', ht', hlo', hhi', hspans⟩
    · cases hmin.symm.trans hs
    cases hs.symm.trans hs'
    cases ht.symm.trans ht'
    obtain rfl : lo' = lo := Option.some.inj (Except.ok.inj ((io.read hg hlo').symm.trans hlo))
    obtain rfl : hi' = hi := Option.some.inj (Except.ok.inj ((io.read hg hhi').symm.trans hhi))
    obtain ⟨⟨hlole, hlov⟩, hhile, hvhi⟩ := bounds_step ord hcmp hbelow habove
    refine Or.inr ⟨_, _, if below < 0 then value else lo', if 0 < above then value else hi',
      rfl, rfl,
      ?_, ?_, ?_, ?_, ?_⟩
    · split
      · exact hnew
      · exact hlo'
    · split
      · exact hnew
      · exact hhi'
    · split
      · exact List.mem_cons_self
      · exact List.mem_cons_of_mem _ hspans.lower
    · split
      · exact List.mem_cons_self
      · exact List.mem_cons_of_mem _ hspans.upper
    · intro v hv
      rcases List.mem_cons.mp hv with hv | hv
      · cases hv
        exact ⟨hlov, hvhi⟩
      · obtain ⟨hle, hge⟩ := hspans.between v hv
        exact ⟨le_trans hlole hle, le_trans hge hhile⟩

/-- A row's value moves the bounds of its column, and no other. -/
theorem widenColumn_extremes (io : pg.TextRoundTrip) {g : Guc} (hg : g.Stable) {a : IndexAttr D}
    {c c' : ColSummary} {seen : List (Option D)} {value : Option D} {changed : Bool}
    (hc : Extremes ord a seen c)
    (h : widenColumn pg g c a.typ a.collation value = .ok (c', changed)) :
    Extremes ord a (value :: seen) c' := by
  cases value with
  | none =>
      have hsame : c' = { c with hasNulls := true } ∨ c' = c := by
        simp only [widenColumn] at h
        split at h <;> cases h
        · exact Or.inl rfl
        · exact Or.inr rfl
      have hnull : Extremes ord a (none :: seen) c := by
        intro hov hunb
        rcases hc hov hunb with ⟨hnone, hbounds⟩ | ⟨s, t, lo, hi, hs, ht, hlo, hhi, hspans⟩
        · exact Or.inl ⟨by simpa using hnone, hbounds⟩
        · refine Or.inr ⟨s, t, lo, hi, hs, ht, hlo, hhi, by simp [hspans.lower],
            by simp [hspans.upper], fun v hv => hspans.between v (by simpa using hv)⟩
      rcases hsame with rfl | rfl
      · exact hnull
      · exact hnull
  | some value =>
      simp only [widenColumn] at h
      split at h
      · rename_i hunb
        cases h
        intro _ hno
        cases hunb.symm.trans hno
      · rename_i hunb
        obtain ⟨widened, hwidened, h⟩ := bind_eq_ok.mp h
        cases widened with
        | none =>
            cases h
            exact extremes_makeUnbounded
        | some r =>
            obtain ⟨w, ch⟩ := r
            cases h
            unfold widenBounds at hwidened
            split at hwidened
            · -- an extent stays one
              rename_i hov
              intro hno
              rw [widenOverlap_frame hwidened] at hno
              cases hov.symm.trans hno
            · rename_i hov
              exact widenMinmax_extremes io hg (eq_false_of_ne_true hov) (eq_false_of_ne_true hunb)
                (c := { c with allNulls := false }) hc hwidened

variable (ord) in
/-- Through every history, the bounds of a column are values of its own. -/
theorem Maintained.extremes (io : pg.TextRoundTrip) {attrs : List (IndexAttr D)} {s : IndexSummary}
    {rows : List (Row D)} (hs : Maintained pg attrs s rows) (hdistinct : DistinctColumns attrs)
    {a : IndexAttr D} (ha : a ∈ summarized attrs) {c : ColSummary}
    (hc : firstEntry s.cols a.attnum = some c) :
    Extremes ord a (rows.map fun row => row a.attnum) c := by
  have hpos := (mem_summarized.mp ha).2
  have heq : ∀ b ∈ summarized attrs, b.attnum = a.attnum → b = a := fun b hb hba =>
    List.inj_on_of_nodup_map hdistinct hb ha hba
  refine hs.firstEntry_rule hpos
    (P := fun rows c => Extremes ord a (rows.map fun row => row a.attnum) c) ?_ ?_ ?_ hc
  · intro session rows s hbuilt c hmem hattnum
    obtain ⟨b, hb, hentry, hext⟩ :=
      Lib.Aligned.forall₂_mem_right (buildLeafSummary_extremes ord hbuilt) c hmem
    obtain rfl := heq b hb (hentry.attnum.symm.trans hattnum)
    have hvals : rows.map b.value = rows.map fun row => row b.attnum :=
      List.map_congr_left fun row _ => b.value_of_pos hpos row
    rwa [hvals] at hext
  · intro rows row g b c c' changed hb hba hg hold hwiden
    obtain rfl := heq b (mem_summarized.mpr ⟨hb, hba ▸ hpos⟩) hba
    rcases hold with hold | hold
    · exact widenColumn_extremes io hg hold hwiden
    · exact (widenColumn_extremes io hg hold hwiden).of_mem_iff (by simp)
  · exact fun _ _ _ => extremes_makeUnbounded

end TableRange
