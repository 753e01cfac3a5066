import TableRange.Coverage

/-!
# An insert covers its row

`widenColumn_spec` is the one fact about widening a column: the new value is
covered, what was covered stays covered, the entry still belongs to its index
column, and a fold that reports no change has changed nothing.
`widenSummary_spec` carries it over the columns of an index that lists no heap
column twice; without that, the first entry of a column would be widened by the
other positions as well.
-/

namespace TableRange

open Lib.Interval Lib.Fallible

variable {D : Type} {pg : Pg D} {ord : pg.BtreeOrder} {eord : pg.ExtentOrder}

/-- A text is the form of one value only. -/
theorem Pg.TextRoundTrip.unique (io : pg.TextRoundTrip) {typ : Oid} {t : String} {v w : D}
    (hv : pg.Renders typ t v) (hw : pg.Renders typ t w) : v = w := by
  have hboth : ∀ g : Guc, g.Stable → some v = some w := fun g hg =>
    Except.ok.inj ((io.read hg hv).symm.trans (io.read hg hw))
  obtain ⟨g, hg, -⟩ := hv
  exact Option.some.inj (hboth g hg)

/-! ## Bounds -/

variable (ord eord) in
/-- What a fold of `value` into the bounds of the entry `c` leaves. -/
structure Widened (a : IndexAttr D) (c : ColSummary) (value : D) (c' : ColSummary)
    (changed : Bool) : Prop where
  /-- Only the bounds change. -/
  frame : c' = { c with min := c'.min, max := c'.max }
  min : c.overlap = false → ∀ t ∈ c'.min, ∃ v, pg.Renders a.typ t v
  max : c.overlap = false → ∀ t ∈ c'.max, ∃ v, pg.Renders a.typ t v
  covers : InBounds ord eord a c' value
  keeps : ∀ v, InBounds ord eord a c v → InBounds ord eord a c' v
  same : changed = false → c' = c

/-- Two bounds around a value and around all that was in range before. -/
private theorem inRange_step (io : pg.TextRoundTrip) {a : IndexAttr D} {c c' : ColSummary}
    {s t s' t' : String} {lo hi lo' hi' value : D} (hmin : c.min = some s) (hmax : c.max = some t)
    (hlo : pg.Renders a.typ s lo) (hhi : pg.Renders a.typ t hi)
    (hmin' : c'.min = some s') (hmax' : c'.max = some t') (hlo' : pg.Renders a.typ s' lo')
    (hhi' : pg.Renders a.typ t' hi') (hcoll : c'.collation = c.collation)
    (hbelow : (columnOrder ord a.typ c.collation).le lo' lo ∧
      (columnOrder ord a.typ c.collation).le lo' value)
    (habove : (columnOrder ord a.typ c.collation).le hi hi' ∧
      (columnOrder ord a.typ c.collation).le value hi') :
    InRange ord a c' value ∧ ∀ v, InRange ord a c v → InRange ord a c' v := by
  rw [← hcoll] at hbelow habove
  refine ⟨⟨s', t', lo', hi', hmin', hmax', hlo', hhi', hbelow.2, habove.2⟩, ?_⟩
  rintro v ⟨s₀, t₀, lo₀, hi₀, hs₀, ht₀, hlo₀, hhi₀, hlov, hvhi⟩
  obtain rfl : s₀ = s := Option.some.inj (hs₀.symm.trans hmin)
  obtain rfl : t₀ = t := Option.some.inj (ht₀.symm.trans hmax)
  obtain rfl : lo₀ = lo := io.unique hlo₀ hlo
  obtain rfl : hi₀ = hi := io.unique hhi₀ hhi
  rw [← hcoll] at hlov hvhi
  let _ := columnOrder ord a.typ c'.collation
  exact ⟨s', t', lo', hi', hmin', hmax', hlo', hhi', le_trans hbelow.1 hlov,
    le_trans hvhi habove.1⟩

theorem widenMinmax_spec (io : pg.TextRoundTrip) {g : Guc} (hg : g.Stable) {a : IndexAttr D}
    {c c' : ColSummary} {value : D} {changed : Bool} (hentry : EntryOf pg a c)
    (hov : c.overlap = false)
    (h : widenMinmax pg g c a.typ a.collation value = .ok (some (c', changed))) :
    Widened ord eord a c value c' changed := by
  obtain ⟨newText, htext, hcases⟩ := widenMinmax_cases h
  have hnew : pg.Renders a.typ newText value := ⟨g, hg, htext⟩
  rcases hcases with ⟨hmin, -, rfl, rfl⟩ | ⟨s, t, cmp, loD, hiD, below, above, hmin, hmax,
    hcmp, hloD,
    hhiD, hbelow, habove, rfl, rfl⟩
  · -- no range yet
    have hrefl := (columnOrder ord a.typ c.collation).le_refl value
    refine ⟨rfl, ?_, ?_, ?_, fun v hv => ?_, nofun⟩
    · rintro _ t ⟨⟩
      exact ⟨value, hnew⟩
    · rintro _ t ⟨⟩
      exact ⟨value, hnew⟩
    · refine InRange.inBounds ?_ hov
      exact ⟨newText, newText, value, value, rfl, rfl, hnew, hnew, hrefl, hrefl⟩
    · obtain ⟨s, _, _, _, hs, -⟩ := hv.inRange hov
      rw [hmin] at hs
      cases hs
  · obtain ⟨lo, hlo⟩ := hentry.min hov s hmin
    obtain ⟨hi, hhi⟩ := hentry.max hov t hmax
    obtain rfl : lo = loD := Option.some.inj (Except.ok.inj ((io.read hg hlo).symm.trans hloD))
    obtain rfl : hi = hiD := Option.some.inj (Except.ok.inj ((io.read hg hhi).symm.trans hhiD))
    have hbounds := bounds_step ord hcmp hbelow habove
    rw [← hentry.collation] at hbounds
    have hrlo : pg.Renders a.typ (if below < 0 then newText else s)
        (if below < 0 then value else lo) := by
      split <;> assumption
    have hrhi : pg.Renders a.typ (if 0 < above then newText else t)
        (if 0 < above then value else hi) := by
      split <;> assumption
    let c' := { c with
      min := some (if below < 0 then newText else s)
      max := some (if 0 < above then newText else t) }
    obtain ⟨hcovers, hkeeps⟩ : InRange ord a c' value ∧ ∀ v, InRange ord a c v →
      InRange ord a c' v :=
      inRange_step io hmin hmax hlo hhi rfl rfl hrlo hrhi rfl hbounds.1 hbounds.2
    refine ⟨rfl, ?_, ?_, hcovers.inBounds hov, fun v hv => (hkeeps v (hv.inRange hov)).inBounds hov,
      fun hsame => ?_⟩
    · rintro _ x ⟨⟩
      exact ⟨_, hrlo⟩
    · rintro _ x ⟨⟩
      exact ⟨_, hrhi⟩
    · exact widenMinmax_unchanged (hsame ▸ h)

/-! ## Extents -/

variable (ord) in
/-- An extent `w` that takes in the stored one and the value. -/
private theorem widened_of_extent {a : IndexAttr D} {c : ColSummary} {value : D} {w : String}
    (hov : c.overlap = true)
    (hall : ∀ v, v = value ∨ InExtent eord a c v →
      eord.emptyGeometry v ∨ ∃ e, pg.Renders a.typ w e ∧ eord.within.le v e) :
    Widened ord eord a c value { c with min := some w } true ∧
      (c.min = some w → Widened ord eord a c value c false) := by
  have hno : c.overlap = false → False := fun h => by simp [hov] at h
  have hin : ∀ v, v = value ∨ InExtent eord a c v →
      InBounds ord eord a { c with min := some w } v := fun v hv =>
    InExtent.inBounds ((hall v hv).imp_right fun ⟨e, hw, hle⟩ => ⟨w, e, rfl, hw, hle⟩) hov
  have hwidened : Widened ord eord a c value { c with min := some w } true :=
    ⟨rfl, fun h => (hno h).elim, fun h => (hno h).elim, hin _ (Or.inl rfl),
      fun v hv => hin v (Or.inr (hv.inExtent hov)), nofun⟩
  refine ⟨hwidened, fun hmin => ?_⟩
  have hc : { c with min := some w } = c := by rw [← hmin]
  rw [hc] at hwidened
  exact ⟨rfl, hwidened.min, hwidened.max, hwidened.covers, hwidened.keeps, fun _ => rfl⟩

/-- An extent that was left alone, because nothing in it needs one. -/
private theorem widened_of_empty {a : IndexAttr D} {c : ColSummary} {value : D}
    (hov : c.overlap = true) (hempty : eord.emptyGeometry value) :
    Widened ord eord a c value c false :=
  ⟨rfl, fun h => by simp [hov] at h, fun h => by simp [hov] at h,
    InExtent.inBounds (Or.inl hempty) hov, fun _ hv => hv, fun _ => rfl⟩

/-- `range_merge` with the stored extent. -/
theorem rangeExtentWith_spec (io : pg.TextRoundTrip) {g : Guc} (hg : g.Stable) {a : IndexAttr D}
    {c : ColSummary} {value : D} {extent : Option String}
    (h : rangeExtentWith pg g c a.typ value = .ok (some extent)) :
    ∃ w, extent = some w ∧ ∀ v, v = value ∨ InExtent eord a c v →
      eord.emptyGeometry v ∨ ∃ e, pg.Renders a.typ w e ∧ eord.within.le v e := by
  obtain ⟨merged, hmerged, h⟩ := bind_eq_ok.mp h
  cases merged with
  | none => cases h
  | some merged =>
  obtain ⟨text, htext, h⟩ := bind_eq_ok.mp h
  cases text with
  | none => cases h
  | some w =>
  cases h
  have hw : pg.Renders a.typ w merged := ⟨g, hg, htext⟩
  refine ⟨w, rfl, ?_⟩
  unfold mergedExtent at hmerged
  split at hmerged
  · rename_i hmin
    cases hmerged
    rintro v (rfl | hv)
    · exact Or.inr ⟨v, hw, eord.within.le_refl v⟩
    · refine hv.imp_right ?_
      rintro ⟨t, e, ht, -, -⟩
      cases hmin.symm.trans ht
  · rename_i t hmin
    obtain ⟨d, hd, hmerged⟩ := bind_eq_ok.mp hmerged
    cases d with
    | none => cases hmerged
    | some old =>
    obtain ⟨m, hm, hmerged⟩ := bind_eq_ok.mp hmerged
    cases hmerged
    obtain ⟨hleft, hright⟩ := eord.rangeMerge_upper hm
    rintro v (rfl | hv)
    · exact Or.inr ⟨_, hw, hright⟩
    · refine hv.imp_right ?_
      rintro ⟨t', e, ht', he, hle⟩
      obtain rfl : t' = t := Option.some.inj (ht'.symm.trans hmin)
      obtain rfl : e = old :=
        Option.some.inj (Except.ok.inj ((io.read hg he).symm.trans hd))
      exact ⟨_, hw, eord.within.le_trans _ _ _ hle hleft⟩

/-- `ST_Extent` over the value and the stored extent. -/
theorem geometryExtentWith_spec {g : Guc} (hg : g.Stable) {a : IndexAttr D} {c : ColSummary}
    {value : D} {extent : Option String} (hentry : EntryOf pg a c)
    (h : geometryExtentWith pg g c a.typ value = .ok (some extent)) :
    ∀ v, v = value ∨ InExtent eord a c v →
      eord.emptyGeometry v ∨ ∃ w e, extent = some w ∧ pg.ExtentText a.typ w e ∧
        eord.within.le v e := by
  obtain ⟨text, htext, h⟩ := bind_eq_ok.mp h
  cases text with
  | none => cases h
  | some newText =>
  obtain ⟨extent', hextent, h⟩ := bind_eq_ok.mp h
  cases h
  have hup := eord.extentQuery_upper hentry.typeName hextent
  rintro v (rfl | hv)
  · exact hup newText List.mem_cons_self v ⟨g, hg, htext⟩
  · rcases hv with hempty | ⟨t, e, ht, he, hle⟩
    · exact Or.inl hempty
    · have hmem : t ∈ newText :: c.min.toList := by simp [ht]
      rcases hup t hmem e he with hempty | ⟨w, e', hw, he', hle'⟩
      · exact Or.inl (eord.emptyGeometry_of_within hle hempty)
      · exact Or.inr ⟨w, e', hw, he', eord.within.le_trans _ _ _ hle hle'⟩

theorem widenOverlap_spec (io : pg.TextRoundTrip) {g : Guc} (hg : g.Stable) {a : IndexAttr D}
    {c c' : ColSummary} {value : D} {changed : Bool} (hentry : EntryOf pg a c)
    (hov : c.overlap = true)
    (h : widenOverlap pg g c a.typ value = .ok (some (c', changed))) :
    Widened ord eord a c value c' changed := by
  obtain ⟨extent, hextent, h⟩ := bind_eq_ok.mp h
  cases extent with
  | none => cases h
  | some extent =>
  have hspec : ∀ v, v = value ∨ InExtent eord a c v →
      eord.emptyGeometry v ∨ ∃ w e, extent = some w ∧ pg.Renders a.typ w e ∧
        eord.within.le v e := by
    intro v hv
    unfold extentWith at hextent
    split at hextent
    · exact (geometryExtentWith_spec hg hentry hextent v hv).imp_right
        fun ⟨w, e, hw, he, hle⟩ => ⟨w, e, hw, he.1, hle⟩
    · obtain ⟨w, rfl, hall⟩ := rangeExtentWith_spec io hg hextent
      exact (hall v hv).imp_right fun ⟨e, he, hle⟩ => ⟨w, e, rfl, he, hle⟩
  cases extent with
  | none =>
      cases h
      rcases hspec value (Or.inl rfl) with hempty | ⟨_, _, hno, -⟩
      · exact widened_of_empty hov hempty
      · cases hno
  | some w =>
      have hboth := widened_of_extent ord (w := w) hov fun v hv =>
        (hspec v hv).imp_right fun ⟨w', e, hw', he, hle⟩ => ⟨e, Option.some.inj hw' ▸ he, hle⟩
      simp only at h
      split at h
      · cases h
        exact hboth.1
      · rename_i hsame
        cases h
        exact hboth.2 (not_not.mp hsame)

variable (ord eord) in
theorem widenBounds_spec (io : pg.TextRoundTrip) {g : Guc} (hg : g.Stable) {a : IndexAttr D}
    {c c' : ColSummary} {value : D} {changed : Bool} (hentry : EntryOf pg a c)
    (h : widenBounds pg g c a.typ a.collation value = .ok (some (c', changed))) :
    Widened ord eord a c value c' changed := by
  unfold widenBounds at h
  split at h
  · rename_i hov
    exact widenOverlap_spec io hg hentry hov h
  · rename_i hov
    exact widenMinmax_spec io hg hentry (eq_false_of_ne_true hov) h

theorem Widened.entryOf {a : IndexAttr D} {c c' : ColSummary} {value : D} {changed : Bool}
    (h : Widened ord eord a c value c' changed) (hentry : EntryOf pg a c) : EntryOf pg a c' where
  attnum := (congrArg ColSummary.attnum h.frame).trans hentry.attnum
  collation := (congrArg ColSummary.collation h.frame).trans hentry.collation
  typeName := by
    rw [h.frame]
    exact hentry.typeName
  min hov := h.min ((congrArg ColSummary.overlap h.frame).symm.trans hov)
  max hov := h.max ((congrArg ColSummary.overlap h.frame).symm.trans hov)

theorem Widened.keepsCovers {a : IndexAttr D} {c c' : ColSummary} {value : D} {changed : Bool}
    (h : Widened ord eord a c value c' changed) {v : Option D} (hv : Covers ord eord a c v) :
    Covers ord eord a c' v := by
  cases v with
  | none => exact (congrArg ColSummary.hasNulls h.frame).trans hv
  | some v =>
      refine ⟨(congrArg ColSummary.allNulls h.frame).trans hv.1,
        hv.2.imp (fun hunb => ?_) (h.keeps v)⟩
      exact (congrArg ColSummary.unbounded h.frame).trans hunb

/-! ## One column -/

variable (ord eord) in
/-- What one call of `widen_column` does to the entry of `a`. -/
structure ColumnStep (a : IndexAttr D) (value : Option D) (c c' : ColSummary) (changed : Bool) :
    Prop where
  entry : EntryOf pg a c'
  covers : Covers ord eord a c' value
  keeps : ∀ v, Covers ord eord a c v → Covers ord eord a c' v
  same : changed = false → c' = c

variable (ord eord) in
/-- The new value is covered, and nothing is uncovered. -/
theorem widenColumn_spec (io : pg.TextRoundTrip) {g : Guc} (hg : g.Stable) {a : IndexAttr D}
    {c c' : ColSummary} {value : Option D} {changed : Bool} (hentry : EntryOf pg a c)
    (h : widenColumn pg g c a.typ a.collation value = .ok (c', changed)) :
    ColumnStep ord eord a value c c' changed := by
  cases value with
  | none =>
      simp only [widenColumn] at h
      split at h
      · cases h
        refine ⟨⟨hentry.attnum, hentry.collation, hentry.typeName, hentry.min, hentry.max⟩, rfl,
          fun v hv => ?_, by simp⟩
        cases v with
        | none => rfl
        | some v => exact hv
      · rename_i hnulls
        cases h
        exact ⟨hentry, by simpa [Covers] using hnulls, fun v hv => hv, fun _ => rfl⟩
  | some value =>
      have hentry' : EntryOf pg a { c with allNulls := false } :=
        ⟨hentry.attnum, hentry.collation, hentry.typeName, hentry.min, hentry.max⟩
      have hcover : ∀ v, Covers ord eord a c v → Covers ord eord a { c with allNulls := false } v :=
        fun v hv => by
          cases v with
          | none => exact hv
          | some v => exact ⟨rfl, hv.2⟩
      have hsame : c.allNulls = false → { c with allNulls := false } = c := fun hall => by
        rw [← hall]
      simp only [widenColumn] at h
      split at h
      · rename_i hunb
        cases h
        exact ⟨hentry', ⟨rfl, Or.inl hunb⟩, hcover, hsame⟩
      · rename_i hunb
        obtain ⟨widened, hwidened, h⟩ := bind_eq_ok.mp h
        cases widened with
        | none =>
            cases h
            exact ⟨entryOf_makeUnbounded hentry', ⟨rfl, Or.inl rfl⟩,
              fun v hv => covers_makeUnbounded (hcover v hv), by simp⟩
        | some r =>
            obtain ⟨w, ch⟩ := r
            cases h
            have hw := widenBounds_spec ord eord io hg hentry' hwidened
            refine ⟨hw.entryOf hentry', ⟨congrArg ColSummary.allNulls hw.frame, Or.inr hw.covers⟩,
              fun v hv => hw.keepsCovers (hcover v hv), fun hch => ?_⟩
            rw [Bool.or_eq_false_iff] at hch
            rw [hw.same hch.2, hsame hch.1]

/-! ## The whole summary -/

/-- Without an entry for the attribute nothing happens. -/
theorem widenFirst_of_not_mem {attnum : Int16} {f : ColSummary → PgResult (ColSummary × Bool)}
    {cols : List ColSummary} (h : ∀ c ∈ cols, c.attnum ≠ attnum) :
    widenFirst attnum f cols = .ok (cols, false) := by
  induction cols with
  | nil => rfl
  | cons c cs ih =>
      rw [widenFirst, if_neg (h c List.mem_cons_self), ih fun c' hc' =>
        h c' (List.mem_cons_of_mem c hc')]
      rfl

/-- Only the first entry for the attribute is updated. -/
theorem widenFirst_append {attnum : Int16} {f : ColSummary → PgResult (ColSummary × Bool)}
    {skipped cols : List ColSummary} {c : ColSummary} (hskip : ∀ c ∈ skipped, c.attnum ≠ attnum)
    (hc : c.attnum = attnum) :
    widenFirst attnum f (skipped ++ c :: cols) =
      f c >>= fun r => .ok (skipped ++ r.1 :: cols, r.2) := by
  induction skipped with
  | nil =>
      rw [List.nil_append, widenFirst, if_pos hc]
      rfl
  | cons d skipped ih =>
      rw [List.cons_append, widenFirst, if_neg (hskip d List.mem_cons_self),
        ih fun c' hc' => hskip c' (List.mem_cons_of_mem d hc')]
      cases f c <;> rfl

section Positions

variable (pg) in
/-- Every entry is widened by the value of its own column. -/
def widenEntries (g : Guc) (row : Row D) (entries : List (IndexAttr D × ColSummary)) :
    PgResult (List (ColSummary × Bool)) :=
  entries.mapM fun e => widenColumn pg g e.2 e.1.typ e.1.collation (e.1.value row)

variable {g : Guc} {row : Row D}

private theorem widenSummaryFrom_eq {tuple : Nat → Option D} {todo : List (IndexAttr D)} {pos : Nat}
    (before : List ColSummary) {cols : List ColSummary}
    (htuple : ∀ i a, todo[i]? = some a → tuple (pos + i) = a.value row)
    (hpos : ∀ c ∈ before, 0 < c.attnum)
    (hbefore : ∀ c ∈ before, ∀ a ∈ summarized todo, c.attnum ≠ a.attnum)
    (hdistinct : DistinctColumns todo)
    (hcols : List.Forall₂ (fun a c => c.attnum = a.attnum) (summarized todo) cols) :
    widenSummaryFrom pg g tuple pos todo (before ++ cols) =
      widenEntries pg g row ((summarized todo).zip cols) >>= fun rs =>
        .ok (before ++ rs.map Prod.fst, rs.any Prod.snd) := by
  induction todo generalizing pos before cols with
  | nil =>
      cases hcols
      rfl
  | cons a todo ih =>
      have htuple' : ∀ i b, todo[i]? = some b → tuple (pos + 1 + i) = b.value row := by
        intro i b hb
        rw [Nat.add_assoc, Nat.add_comm 1 i]
        exact htuple (i + 1) b (by simpa using hb)
      by_cases ha : 0 < a.attnum
      · have hsum : summarized (a :: todo) = a :: summarized todo := by simp [summarized, ha]
        rw [DistinctColumns, hsum, List.map_cons, List.nodup_cons] at hdistinct
        rw [hsum] at hcols hbefore ⊢
        cases hcols with
        | @cons _ c _ cols hac hcols =>
            rw [widenSummaryFrom, widenFirst_append
              (fun d hd => hbefore d hd a List.mem_cons_self) hac,
              show pos = pos + 0 from rfl, htuple 0 a rfl, widenEntries, List.zip_cons_cons,
              List.mapM_cons]
            cases hc : widenColumn pg g c a.typ a.collation (a.value row) with
            | error e => rfl
            | ok r =>
                obtain ⟨c', ch⟩ := r
                have hc' : c'.attnum = a.attnum := (widenColumn_sameColumn hc).attnum.trans hac
                have hnext : ∀ d ∈ before ++ [c'], ∀ b ∈ summarized todo, d.attnum ≠ b.attnum := by
                  intro d hd b hb
                  rcases List.mem_append.mp hd with hd | hd
                  · exact hbefore d hd b (List.mem_cons_of_mem a hb)
                  · rw [List.mem_singleton.mp hd, hc']
                    exact fun he => hdistinct.1 (List.mem_map.mpr ⟨b, hb, he.symm⟩)
                have hpos' : ∀ d ∈ before ++ [c'], 0 < d.attnum := by
                  intro d hd
                  rcases List.mem_append.mp hd with hd | hd
                  · exact hpos d hd
                  · rw [List.mem_singleton.mp hd, hc']
                    exact ha
                have hrest := ih (before ++ [c']) htuple' hpos' hnext hdistinct.2 hcols
                rw [List.append_assoc, List.singleton_append] at hrest
                simp only [bind, Except.bind, Nat.add_zero, hrest]
                rw [show ((summarized todo).zip cols).mapM (fun e => widenColumn pg g e.2 e.1.typ
                  e.1.collation (e.1.value row)) =
                    widenEntries pg g row ((summarized todo).zip cols)
                  from rfl]
                cases widenEntries pg g row ((summarized todo).zip cols) <;>
                  simp [pure, Except.pure]
      · have hsum : summarized (a :: todo) = summarized todo := by simp [summarized, ha]
        rw [DistinctColumns, hsum] at hdistinct
        rw [hsum] at hcols hbefore ⊢
        -- an expression column has no entry
        have hnone : ∀ c ∈ before ++ cols, c.attnum ≠ a.attnum := by
          intro c hc he
          rcases List.mem_append.mp hc with hc | hc
          · exact ha (he ▸ hpos c hc)
          · obtain ⟨b, hb, hbc⟩ := Lib.Aligned.forall₂_mem_right hcols c hc
            exact ha (he ▸ hbc ▸ (mem_summarized.mp hb).2)
        rw [widenSummaryFrom, widenFirst_of_not_mem hnone]
        simp only [bind, Except.bind, ih before htuple' hpos hbefore hdistinct hcols, Bool.false_or]
        cases widenEntries pg g row ((summarized todo).zip cols) <;> rfl

/-- As long as no heap column is listed twice, widening a summary takes every
entry through its own column's step. -/
theorem widenSummary_eq {attrs : List (IndexAttr D)} {s : IndexSummary}
    (hdistinct : DistinctColumns attrs)
    (hcols : List.Forall₂ (fun a c => c.attnum = a.attnum) (summarized attrs) s.cols) :
    widenSummary pg g attrs row s =
      widenEntries pg g row ((summarized attrs).zip s.cols) >>= fun rs =>
        .ok (⟨rs.map Prod.fst⟩, rs.any Prod.snd) := by
  have heq : widenSummaryFrom pg g (indexTuple attrs row) 0 attrs ([] ++ s.cols) = _ :=
    widenSummaryFrom_eq [] (fun i a ha => indexTuple_eq (by simpa using ha) row)
      nofun nofun hdistinct
      hcols
  rw [List.nil_append] at heq
  rw [widenSummary, heq]
  cases widenEntries pg g row ((summarized attrs).zip s.cols) <;> rfl

/-- The step of every entry, from what is known of the entries before. -/
theorem widenSummary_forall₂ {R Q : IndexAttr D → ColSummary → Prop}
    (hR : ∀ a c, R a c → c.attnum = a.attnum)
    (step : ∀ a c c' changed, R a c →
      widenColumn pg g c a.typ a.collation (a.value row) = .ok (c', changed) → Q a c')
    {attrs : List (IndexAttr D)} {s s' : IndexSummary} {changed : Bool}
    (hdistinct : DistinctColumns attrs) (hcols : List.Forall₂ R (summarized attrs) s.cols)
    (h : widenSummary pg g attrs row s = .ok (s', changed)) :
    List.Forall₂ Q (summarized attrs) s'.cols ∧ (changed = false → s' = s) := by
  rw [widenSummary_eq hdistinct (hcols.imp hR)] at h
  obtain ⟨rs, hrs, h⟩ := bind_eq_ok.mp h
  cases h
  have hsteps := Lib.Aligned.forall₂_zip hcols (forall₂_of_mapM hrs)
  constructor
  · rw [List.forall₂_map_right_iff]
    exact hsteps.1.imp fun a r ⟨c, hac, hc⟩ => step a c r.1 r.2 hac hc
  · intro hsame
    have hall := List.any_eq_false.mp hsame
    refine congrArg IndexSummary.mk ?_
    have hmap := Lib.Aligned.forall₂_map_eq (f := id) (g := Prod.fst)
      (fun c r (hcr : r.1 = c) => hcr.symm)
      (Lib.Aligned.forall₂_imp_mem hsteps.2 fun c r _ hr ⟨a, _, hc⟩ => ?_)
    · simpa using hmap.symm
    · obtain ⟨c', ch⟩ := r
      obtain rfl : ch = false := by simpa using hall _ hr
      exact widenColumn_unchanged hc

end Positions

/-- After widening, the summary covers what it covered and the new row. -/
theorem widenSummary_covers (io : pg.TextRoundTrip) {g : Guc} (hg : g.Stable)
    {attrs : List (IndexAttr D)} (hdistinct : DistinctColumns attrs) {row : Row D}
    {vals : IndexAttr D → Set (Option D)} {s s' : IndexSummary} {changed : Bool}
    (hcovers : SummaryCovers ord eord attrs s vals)
    (h : widenSummary pg g attrs row s = .ok (s', changed)) :
    SummaryCovers ord eord attrs s' (fun a => insert (a.value row) (vals a)) ∧
      (changed = false → s' = s) := by
  refine widenSummary_forall₂ (fun a c hac => hac.1.attnum) (fun a c c' ch hac hc => ?_) hdistinct
    hcovers h
  have hstep := widenColumn_spec ord eord io hg hac.1 hc
  refine ⟨hstep.entry, ?_⟩
  rintro v (rfl | hv)
  · exact hstep.covers
  · exact hstep.keeps v (hac.2 v hv)

end TableRange
