import TableRange.Rebuild

/-!
# Inserts that write nothing

`widen_on_insert` returns without touching the page when `widen_summary` reports no
change.  On an index of btree columns that inserts have kept up, it does so exactly when
each value of the row lies between two values that are already there, or is NULL as
another one is (`columnHull`): only the rows that move an end of a column's range write
the page, its WAL record and the invalidations.
-/

namespace TableRange

open Lib.Interval Lib.Fallible

variable {D : Type} {pg : Pg D} {ord : pg.BtreeOrder} {eord : pg.ExtentOrder}

/-! ## What lies within a column -/

variable (ord) in
/-- What lies between two values of the column, and NULL if it is among them. -/
def columnHull (a : IndexAttr D) (rows : List (Row D)) : Set (Option D) :=
  {x | x.elim (∃ row ∈ rows, row a.attnum = none) fun v =>
    ∃ lo hi, (∃ row ∈ rows, row a.attnum = some lo) ∧ (∃ row ∈ rows, row a.attnum = some hi) ∧
      (columnOrder ord a.typ a.collation).le lo v ∧ (columnOrder ord a.typ a.collation).le v hi}

theorem mem_columnHull {a : IndexAttr D} {rows : List (Row D)} {row : Row D} (hrow : row ∈ rows) :
    row a.attnum ∈ columnHull ord a rows := by
  cases hv : row a.attnum with
  | none => exact ⟨row, hrow, hv⟩
  | some v =>
      let _ := columnOrder ord a.typ a.collation
      exact ⟨v, v, ⟨row, hrow, hv⟩, ⟨row, hrow, hv⟩, le_refl v, le_refl v⟩

/-- Within the column is what lies between its ends. -/
theorem Spans.some_mem_columnHull {a : IndexAttr D} {rows : List (Row D)} {lo hi : D}
    (h : Spans ord a (rows.map fun row => row a.attnum) lo hi) (v : D) :
    some v ∈ columnHull ord a rows ↔ (columnOrder ord a.typ a.collation).le lo v ∧
      (columnOrder ord a.typ a.collation).le v hi := by
  let _ := columnOrder ord a.typ a.collation
  constructor
  · rintro ⟨u, w, hu, hw, huv, hvw⟩
    have hlo : lo ≤ u := (h.between u (List.mem_map.mpr hu)).1
    have hhi : w ≤ hi := (h.between w (List.mem_map.mpr hw)).2
    exact ⟨le_trans hlo huv, le_trans hvw hhi⟩
  · rintro ⟨hlo, hhi⟩
    exact ⟨lo, hi, List.mem_map.mp h.lower, List.mem_map.mp h.upper, hlo, hhi⟩

theorem not_some_mem_columnHull {a : IndexAttr D} {rows : List (Row D)}
    (h : ∀ row ∈ rows, row a.attnum = none) (v : D) : some v ∉ columnHull ord a rows := by
  rintro ⟨lo, -, ⟨row, hrow, hv⟩, -⟩
  cases (h row hrow).symm.trans hv

/-! ## One column -/

/-- The fold reports a change when the value is not between the bounds. -/
theorem widenMinmax_quiet_iff (io : pg.TextRoundTrip) {g : Guc} (hg : g.Stable) {a : IndexAttr D}
    {c c' : ColSummary} {rows : List (Row D)} {v : D} {changed : Bool} (hov : c.overlap = false)
    (hunb : c.unbounded = false) (hc : Extremes ord a (rows.map fun row => row a.attnum) c)
    (h : widenMinmax pg g c a.typ a.collation v = .ok (some (c', changed))) :
    changed = false ↔ some v ∈ columnHull ord a rows := by
  obtain ⟨newText, -, hcases⟩ := widenMinmax_cases h
  rcases hcases with ⟨hmin, -, rfl, -⟩ |
    ⟨s, t, cmp, lo, hi, below, above, hs, ht, hcmp, hlo, hhi, hbelow, habove, rfl, -⟩
  · rcases hc hov hunb with ⟨hnone, -, -⟩ | ⟨s, t, lo, hi, hs, -⟩
    · refine iff_of_false (by decide) (not_some_mem_columnHull (fun row hrow => ?_) v)
      exact hnone _ (List.mem_map_of_mem hrow)
    · cases hmin.symm.trans hs
  · rcases hc hov hunb with ⟨-, hmin, -⟩ | ⟨s', t', lo', hi', hs', ht', hlo', hhi', hspans⟩
    · cases hmin.symm.trans hs
    cases hs.symm.trans hs'
    cases ht.symm.trans ht'
    obtain rfl : lo' = lo := Option.some.inj (Except.ok.inj ((io.read hg hlo').symm.trans hlo))
    obtain rfl : hi' = hi := Option.some.inj (Except.ok.inj ((io.read hg hhi').symm.trans hhi))
    rw [hspans.some_mem_columnHull]
    let _ := columnOrder ord a.typ a.collation
    have _ := ord.total (pg.columnFamily a.typ) a.collation
    have hlower : ¬below < 0 ↔ lo' ≤ v := by
      rw [(compareCall_spec ord hcmp hbelow).1]
      exact ⟨le_of_not_lt, not_lt_of_ge⟩
    have hupper : ¬0 < above ↔ v ≤ hi' := by
      rw [(compareCall_spec ord hcmp habove).2]
      exact ⟨le_of_not_lt, not_lt_of_ge⟩
    rw [Bool.or_eq_false_iff, decide_eq_false_iff_not, decide_eq_false_iff_not, hlower, hupper]

/-- A value changes the entry of its column when it is not within the column. -/
theorem widenColumn_quiet_iff (io : pg.TextRoundTrip) (texts : pg.TextLaws) {g : Guc}
    (hg : g.Stable) {a : IndexAttr D} {c c' : ColSummary} {rows : List (Row D)} {value : Option D}
    {changed : Bool} (hkind : (planAccumulator pg a.typ).kind = .minMax)
    (hfacts : EntryFacts ord eord a rows c)
    (hnulls : c.allNulls = true → ∀ row ∈ rows, row a.attnum = none)
    (htext : ∀ v ∈ value, pg.HasText a.typ v)
    (h : widenColumn pg g c a.typ a.collation value = .ok (c', changed)) :
    changed = false ↔ value ∈ columnHull ord a rows := by
  have hkept := hfacts.kept (Or.inl hkind)
  have hov : c.overlap = false := by
    rw [← Bool.not_eq_true, hfacts.kind.overlap, hkind]
    simp
  cases value with
  | none =>
      show changed = false ↔ ∃ row ∈ rows, row a.attnum = none
      rw [← hfacts.hasNulls]
      simp only [widenColumn] at h
      split at h
      · rename_i hno
        cases h
        simpa using hno
      · rename_i hyes
        cases h
        simpa using hyes
  | some v =>
      simp only [widenColumn] at h
      rw [if_neg (by simp [hkept.bounded])] at h
      obtain ⟨widened, hwidened, h⟩ := bind_eq_ok.mp h
      have hc₀ : KeptEntry pg a { c with allNulls := false } :=
        ⟨⟨hkept.typeName, hkept.overlap, hkept.unsupported⟩, hkept.bounded, hkept.paired, hkept.min,
          hkept.max⟩
      rw [widenBounds, if_neg (by simp [hov])] at hwidened
      obtain ⟨w, ch, rfl, -, -⟩ :=
        widenMinmax_taken io texts hg hkind hc₀ hov (htext v rfl) hwidened
      have hquiet : ch = false ↔ some v ∈ columnHull ord a rows :=
        widenMinmax_quiet_iff io hg (c := { c with allNulls := false }) hov hkept.bounded
          hfacts.extremes hwidened
      cases h
      rw [Bool.or_eq_false_iff, hquiet]
      refine and_iff_right_of_imp fun hmem => ?_
      rw [← Bool.not_eq_true]
      exact fun hall => not_some_mem_columnHull (hnulls hall) v hmem

/-! ## One row -/

/-- The update of the first entry of an attribute. -/
theorem widenFirst_changed {attnum : Int16} {f : ColSummary → PgResult (ColSummary × Bool)}
    {cols cols' : List ColSummary} {changed : Bool}
    (h : widenFirst attnum f cols = .ok (cols', changed)) :
    (firstEntry cols attnum = none ∧ changed = false) ∨
      ∃ c c', firstEntry cols attnum = some c ∧ f c = .ok (c', changed) := by
  induction cols generalizing cols' with
  | nil =>
      cases h
      exact Or.inl ⟨rfl, rfl⟩
  | cons c cols ih =>
      rw [widenFirst] at h
      split at h
      · rename_i hc
        obtain ⟨⟨c', ch⟩, hc', h⟩ := bind_eq_ok.mp h
        cases h
        exact Or.inr ⟨c, c', by simp [firstEntry, hc], hc'⟩
      · rename_i hc
        obtain ⟨⟨rest, ch⟩, hrest, h⟩ := bind_eq_ok.mp h
        cases h
        have hskip : firstEntry (c :: cols) attnum = firstEntry cols attnum := by
          simp [firstEntry, hc]
        rw [hskip]
        exact ih hrest

theorem exists_firstEntry {cols : List ColSummary} {attnum : Int16}
    (h : attnum ∈ cols.map ColSummary.attnum) : ∃ c, firstEntry cols attnum = some c := by
  obtain ⟨c, hc, hattnum⟩ := List.mem_map.mp h
  exact Option.isSome_iff_exists.mp (List.find?_isSome.mpr ⟨c, hc, by simp [hattnum]⟩)

/-- The loop reports a change when one of its columns does: the columns are distinct, so each
finds its entry as it was before the loop. -/
theorem widenSummaryFrom_quiet_iff {g : Guc} {row : Row D} {tuple : Nat → Option D}
    {quiet : IndexAttr D → Prop} {pos : Nat} {todo : List (IndexAttr D)}
    {cols cols' : List ColSummary} {changed : Bool} (hdistinct : DistinctColumns todo)
    (htuple : ∀ i a, todo[i]? = some a → tuple (pos + i) = a.value row)
    (hentry : ∀ a ∈ summarized todo, a.attnum ∈ cols.map ColSummary.attnum)
    (hpos : ∀ n ∈ cols.map ColSummary.attnum, 0 < n)
    (hquiet : ∀ a ∈ summarized todo, ∀ c c' ch, firstEntry cols a.attnum = some c →
      widenColumn pg g c a.typ a.collation (row a.attnum) = .ok (c', ch) → (ch = false ↔ quiet a))
    (h : widenSummaryFrom pg g tuple pos todo cols = .ok (cols', changed)) :
    changed = false ↔ ∀ a ∈ summarized todo, quiet a := by
  induction todo generalizing pos cols cols' changed with
  | nil =>
      cases h
      simp [summarized]
  | cons a todo ih =>
      obtain ⟨⟨cols₁, ch⟩, hfirst, h⟩ := bind_eq_ok.mp h
      obtain ⟨⟨cols₂, chs⟩, hrest, h⟩ := bind_eq_ok.mp h
      cases h
      have hsame := widenFirst_sameColumn (fun _ _ _ hc => widenColumn_sameColumn hc) hfirst
      have hattnums : cols₁.map ColSummary.attnum = cols.map ColSummary.attnum :=
        SameColumn.attnums hsame
      have htuple' : ∀ i b, todo[i]? = some b → tuple (pos + 1 + i) = b.value row := by
        intro i b hb
        rw [Nat.add_assoc, Nat.add_comm 1 i]
        exact htuple (i + 1) b (by simpa using hb)
      by_cases ha : 0 < a.attnum
      · have hsum : summarized (a :: todo) = a :: summarized todo := by simp [summarized, ha]
        rw [DistinctColumns, hsum, List.map_cons, List.nodup_cons] at hdistinct
        rw [hsum] at hentry hquiet ⊢
        have hchs : chs = false ↔ ∀ b ∈ summarized todo, quiet b := by
          refine ih hdistinct.2 htuple' (fun b hb => ?_) (hattnums ▸ hpos) ?_ hrest
          · rw [hattnums]
            exact hentry b (List.mem_cons_of_mem a hb)
          · intro b hb c c' ch' hc hwiden
            obtain ⟨c₀, hc₀, hsame⟩ :=
              widenFirst_firstEntry (fun _ _ _ hc => widenColumn_sameColumn hc) hfirst hc
            have hne : a.attnum ≠ b.attnum := fun heq =>
              hdistinct.1 (heq ▸ List.mem_map_of_mem hb)
            rw [if_neg hne] at hsame
            exact hquiet b (List.mem_cons_of_mem a hb) c c' ch' (hsame ▸ hc₀) hwiden
        have hch : ch = false ↔ quiet a := by
          rcases widenFirst_changed hfirst with ⟨hno, -⟩ | ⟨c, c', hc, hwiden⟩
          · obtain ⟨c, hc⟩ := exists_firstEntry (hentry a List.mem_cons_self)
            cases hno.symm.trans hc
          · rw [show pos = pos + 0 from rfl, htuple 0 a rfl, a.value_of_pos ha] at hwiden
            exact hquiet a List.mem_cons_self c c' ch hc hwiden
        rw [Bool.or_eq_false_iff, hch, hchs, List.forall_mem_cons]
      · -- an expression or a system column has no entry
        have hsum : summarized (a :: todo) = summarized todo := by simp [summarized, ha]
        rw [DistinctColumns, hsum] at hdistinct
        rw [hsum] at hentry hquiet ⊢
        obtain rfl : ch = false := by
          rcases widenFirst_changed hfirst with ⟨-, hch⟩ | ⟨c, -, hc, -⟩
          · exact hch
          · have hmem : a.attnum ∈ cols.map ColSummary.attnum :=
              List.mem_map.mpr ⟨c, List.mem_of_find?_eq_some hc, by simpa using List.find?_some hc⟩
            exact absurd (hpos _ hmem) ha
        obtain rfl := widenFirst_unchanged (fun _ _ hc => widenColumn_unchanged hc) hfirst
        rw [Bool.false_or]
        exact ih hdistinct htuple' hentry hpos hquiet hrest

/-- On an index of btree columns that inserts have kept up, a pass of `widen_on_insert` ends
without a swap exactly when each value of the row is within its column. -/
theorem widenAttempt_done_iff (io : pg.TextRoundTrip) (texts : pg.TextLaws)
    (ord : pg.BtreeOrder) {attrs : List (IndexAttr D)} {scanned inserted : List (Row D)}
    {s : IndexSummary} (hdistinct : DistinctColumns attrs)
    (hkinds : ∀ a ∈ summarized attrs, (planAccumulator pg a.typ).kind = .minMax)
    (h : KeptUp pg attrs scanned s inserted) {row : Row D}
    (htexts : ∀ a ∈ summarized attrs, ∀ r ∈ row :: (inserted ++ scanned), ∀ v,
      r a.attnum = some v → pg.HasText a.typ v) {session : Session} {before : Bytes}
    (hbefore : deserialize before = some s) {attempt : Attempt}
    (hattempt : widenAttempt pg session attrs row (some before) = .ok attempt) :
    attempt = .done ↔
      ∀ a ∈ summarized attrs, row a.attnum ∈ columnHull ord a (inserted ++ scanned) := by
  simp only [widenAttempt, hbefore] at hattempt
  obtain ⟨⟨s', changed⟩, hwiden, hattempt⟩ := bind_eq_ok.mp hattempt
  obtain ⟨⟨cols, ch⟩, hcols, hs'⟩ := bind_eq_ok.mp (widenStable_eq_ok hwiden)
  cases hs'
  have hattnums := h.maintained.attnums
  have hquiet : changed = false ↔
      ∀ a ∈ summarized attrs, row a.attnum ∈ columnHull ord a (inserted ++ scanned) := by
    refine widenSummaryFrom_quiet_iff hdistinct
      (fun i a ha => indexTuple_eq (by simpa using ha) row) (fun a ha => ?_) (fun n hn => ?_)
      (fun a ha c c' ch' hc hstep => ?_) hcols
    · rw [hattnums]
      exact List.mem_map_of_mem ha
    · rw [hattnums] at hn
      obtain ⟨a, ha, rfl⟩ := List.mem_map.mp hn
      exact (mem_summarized.mp ha).2
    · have hfacts : EntryFacts ord pg.noExtents a (inserted ++ scanned) c :=
        h.entryFacts ord io texts (fun hrange => by cases (hkinds a ha).symm.trans hrange)
          hdistinct ha (fun r hr => htexts a ha r (List.mem_cons_of_mem row hr)) hc
      exact widenColumn_quiet_iff io texts session.guc.pin_stable (hkinds a ha) hfacts
        (fun hall => ((h.allNulls hdistinct ha hc).mp hall).2)
        (fun v hv => htexts a ha row List.mem_cons_self v hv) hstep
  rw [← hquiet]
  cases changed with
  | false =>
      cases hattempt
      simp
  | true =>
      cases hattempt
      simp

/-! ## A table of two rows -/

/-- The value 3 was scanned, and 7 came later. -/
theorem Mini.keptUp_two : KeptUp (Mini.pg byType) Mini.index.attrs [Mini.row 3]
    ⟨[Mini.entry 3 7]⟩ [Mini.row 7] := by
  have hbuilt : buildLeafSummary (Mini.pg byType) Mini.session Mini.index.attrs [Mini.row 3] =
      .ok ⟨[Mini.entry 3 3]⟩ := by decide +kernel
  have hwidened : widenStable (Mini.pg byType) Mini.session Mini.index.attrs (Mini.row 7)
      ⟨[Mini.entry 3 3]⟩ = .ok (⟨[Mini.entry 3 7]⟩, true) := by decide +kernel
  have hfits : (serialize ⟨[Mini.entry 3 3]⟩).length ≤ maxBlobLen := by decide +kernel
  have hfits' : (serialize ⟨[Mini.entry 3 7]⟩).length ≤ maxBlobLen := by decide +kernel
  have hbuild := KeptUp.build hbuilt hfits
  rw [encodeFitting_of_fits hfits] at hbuild
  have hinsert := KeptUp.insert hbuild hwidened hfits'
  rwa [encodeFitting_of_fits hfits'] at hinsert

/-- The value 5 lies between the two. -/
theorem widenAttempt_done_iff_int4 :
    widenAttempt (Mini.pg byType) Mini.session Mini.index.attrs (Mini.row 5)
        (some (serialize ⟨[Mini.entry 3 7]⟩)) = .ok .done ∧
      (Attempt.done = .done ↔ ∀ a ∈ summarized Mini.index.attrs, Mini.row 5 a.attnum ∈
        columnHull (Mini.order byType) a ([Mini.row 7] ++ [Mini.row 3])) := by
  have hbefore : deserialize (serialize ⟨[Mini.entry 3 7]⟩) = some ⟨[Mini.entry 3 7]⟩ :=
    deserialize_of_fits (by decide +kernel)
  have hattempt : widenAttempt (Mini.pg byType) Mini.session Mini.index.attrs (Mini.row 5)
      (some (serialize ⟨[Mini.entry 3 7]⟩)) = .ok .done := by
    decide +kernel
  refine ⟨hattempt, widenAttempt_done_iff (Mini.textRoundTrip _) (mini_textLaws _)
    (Mini.order byType) Mini.index_distinct (fun a ha => ?_) Mini.keptUp_two
    (fun a ha _ _ v _ => ?_) hbefore hattempt⟩
  · obtain rfl : a = int4Column := by simpa [summarized, Mini.index, int4Column] using ha
    rfl
  · obtain rfl : a = int4Column := by simpa [summarized, Mini.index, int4Column] using ha
    exact ⟨_, Mini.session.guc, Mini.session_stable, Mini.datumToText byType (by decide) v⟩

end TableRange
