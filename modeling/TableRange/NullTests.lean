import TableRange.Coverage.FirstEntry
import TableRange.MiniPg
import TableRange.Prune.Sound

/-!
# NULL tests

The flags of an entry are kept from the isnull bit of each value (`Flags`), on
every history and even when a heap column is listed twice.  An `IS NOT NULL` test
that proves a prune is true on no stored row.  So is an `IS NULL` test, except on
a composite column: there a row value whose fields are all NULL satisfies the test
without being NULL, which `argisrow` says and `extract_nulltest` does not look at.
-/

namespace TableRange

open Lib.Fallible

variable {D : Type} {pg : Pg D}

/-- What the flags of an entry say about the values folded into it. -/
structure Flags (vals : Set (Option D)) (c : ColSummary) : Prop where
  hasNulls : c.hasNulls = true ↔ none ∈ vals
  allNulls : c.allNulls = true → ∀ v ∈ vals, v = none

/-! ## The build and the insert -/

theorem finishColumn_flags {g : Guc} {attrs : List (IndexAttr D)} {a : IndexAttr D}
    {seen : List (Option D)} {col : ColumnBuild D} {out : ColSummary}
    (hcount : Counted pg attrs a seen col) (h : finishColumn pg g col = .ok out) :
    out.attnum = a.attnum ∧ Flags {v | v ∈ seen} out := by
  obtain ⟨hattnum, hnulls, hall⟩ := finishColumn_counts h
  refine ⟨hattnum.trans hcount.planned.attnum, ?_, ?_⟩
  · rw [hnulls, hcount.nulls, decide_eq_true_iff, List.countP_pos_iff]
    constructor
    · rintro ⟨v, hv, hnone⟩
      rwa [Option.isNone_iff_eq_none.mp hnone] at hv
    · exact fun hnone => ⟨none, hnone, rfl⟩
  · rw [hall, hcount.nonnull, decide_eq_true_iff]
    rintro ⟨hlen, -⟩ v hv
    cases v with
    | none => rfl
    | some v =>
        have hmem : v ∈ seen.filterMap id := List.mem_filterMap.mpr ⟨some v, hv, rfl⟩
        exact absurd (List.length_pos_of_mem hmem) (by omega)

theorem widenColumn_flags {g : Guc} {typ collation : Oid} {vals : Set (Option D)}
    {c c' : ColSummary} {value : Option D} {changed : Bool} (hflags : Flags vals c)
    (h : widenColumn pg g c typ collation value = .ok (c', changed)) :
    Flags (insert value vals) c' := by
  cases value with
  | none =>
      have hall : c.allNulls = true → ∀ v ∈ insert none vals, v = none := by
        rintro hall v (rfl | hv)
        · rfl
        · exact hflags.allNulls hall v hv
      simp only [widenColumn] at h
      split at h
      · cases h
        exact ⟨by simp, hall⟩
      · rename_i hnulls
        cases h
        have hset : c.hasNulls = true := by simpa using hnulls
        exact ⟨by simp [hset], hall⟩
  | some value =>
      -- the value clears `all_nulls` and leaves `has_nulls` alone
      have hkeep : c'.hasNulls = c.hasNulls ∧ c'.allNulls = false := by
        simp only [widenColumn] at h
        split at h
        · cases h
          exact ⟨rfl, rfl⟩
        · obtain ⟨widened, hwidened, h⟩ := bind_eq_ok.mp h
          cases widened with
          | none =>
              cases h
              exact ⟨rfl, rfl⟩
          | some r =>
              obtain ⟨w, ch⟩ := r
              cases h
              rw [widenBounds_frame hwidened]
              exact ⟨rfl, rfl⟩
      refine ⟨?_, fun hall => ?_⟩
      · rw [hkeep.1, hflags.hasNulls]
        simp
      · rw [hkeep.2] at hall
        cases hall

/-- The flags of the first entry of an attribute tell what the rows have in it. -/
theorem Maintained.flags {attrs : List (IndexAttr D)} {s : IndexSummary} {rows : List (Row D)}
    (h : Maintained pg attrs s rows) {n : Int16} (hn : 0 < n) {c : ColSummary}
    (hc : firstEntry s.cols n = some c) : Flags {v | ∃ row ∈ rows, v = row n} c := by
  have hvals : ∀ (row : Row D) rows, {v | ∃ r ∈ row :: rows, v = r n} =
      Insert.insert (row n) {v | ∃ r ∈ rows, v = r n} := by
    intro row rows
    ext v
    simp
  refine h.firstEntry_rule (P := fun rows c => Flags {v | ∃ row ∈ rows, v = row n} c) hn ?_ ?_ ?_ hc
  · intro session rows s hbuilt c hc hattnum
    have hcols := buildLeafSummary_forall₂ (R := Counted pg attrs)
      (Q := fun a seen c => c.attnum = a.attnum ∧ Flags {v | v ∈ seen} c)
      (fun _ _ hplan hfresh => hfresh.counted hplan)
      (fun _ _ _ _ _ _ hcount hstep => buildColumn_counted hcount hstep)
      (fun _ _ _ _ _ _ hcount hout => finishColumn_flags hcount hout) hbuilt
    obtain ⟨a, ha, han, hflags⟩ := Lib.Aligned.forall₂_mem_right hcols c hc
    have hvalue : ∀ row, a.value row = row n := fun row => by
      rw [a.value_of_pos (mem_summarized.mp ha).2, ← han, hattnum]
    have hset : {v | ∃ row ∈ rows, v = row n} = {v | v ∈ rows.map a.value} := by
      ext v
      simp only [Set.mem_ofPred_eq, List.mem_map, hvalue]
      exact exists_congr fun row => and_congr_right fun _ => eq_comm
    rwa [hset]
  · intro rows row g a c c' changed _ _ _ hflags hwiden
    rw [hvals]
    rcases hflags with hflags | hflags
    · exact widenColumn_flags hflags hwiden
    · have hboth := widenColumn_flags hflags hwiden
      rwa [hvals, Set.insert_eq_of_mem (Set.mem_insert _ _)] at hboth
  · exact fun rows c hflags => ⟨hflags.hasNulls, hflags.allNulls⟩

/-! ## The tests -/

/-- A NULL test on an indexed column proves a prune by the flag of the first
entry. -/
theorem leafProvesPrune_nullTest {g : Guc} {cols : List ColSummary} {arg : Node D}
    {nulltesttype : NullTestType} {argisrow : Bool} {varattno : Int16} {vartype : Oid}
    (harg : stripRelabel arg = .var varattno vartype) (hpos : 0 < varattno) {c : ColSummary}
    (hc : firstEntry cols varattno = some c) :
    leafProvesPrune pg g cols (.nullTest arg nulltesttype argisrow) =
      .ok (match nulltesttype with
        | .isNull => !c.hasNulls
        | .isNotNull => c.allNulls) := by
  have hqual : extractQual pg (.nullTest arg nulltesttype argisrow) =
      some (.null varattno (nulltesttype == .isNull)) := by
    cases nulltesttype <;>
      simp [extractQual, extractNulltest, harg, Int16.not_le.mpr hpos]
  rw [leafProvesPrune, hqual]
  simp only [QualSpec.attnum, show (cols.find? fun r => r.attnum == varattno) = some c from hc,
    QualSpec.provesPrune]
  cases nulltesttype <;> rfl

/-- A NULL test that proves a prune is true on no stored row, unless it is an
`IS NULL` on a composite column that has never been NULL and holds a row value
whose fields all are. -/
theorem nullTest_sound_iff (ex : Executor D) {attrs : List (IndexAttr D)} {s : IndexSummary}
    {rows stored : List (Row D)} (hs : Maintained pg attrs s rows) (hstored : stored ⊆ rows)
    {arg : Node D} {nulltesttype : NullTestType} {argisrow : Bool} {varattno : Int16}
    {vartype : Oid} (harg : stripRelabel arg = .var varattno vartype)
    (hindexed : varattno ∈ (summarized attrs).map IndexAttr.attnum) (g : Guc) :
    (leafProvesPrune pg g s.cols (.nullTest arg nulltesttype argisrow) = .ok true →
        ∀ row ∈ stored, ex.truth pg row (.nullTest arg nulltesttype argisrow) ≠ some true) ↔
      ¬(nulltesttype = .isNull ∧ argisrow = true ∧ (∀ row ∈ rows, row varattno ≠ none) ∧
        ∃ row ∈ stored, ∃ v, row varattno = some v ∧ (ex.rowFields v).all Option.isNone =
          true) := by
  obtain ⟨a, ha, rfl⟩ := List.mem_map.mp hindexed
  have hpos := (mem_summarized.mp ha).2
  obtain ⟨c, hc⟩ : ∃ c, firstEntry s.cols a.attnum = some c := by
    rw [← hs.attnums] at hindexed
    obtain ⟨c, hc, hattnum⟩ := List.mem_map.mp hindexed
    exact Option.isSome_iff_exists.mp (List.find?_isSome.mpr ⟨c, hc, by simp [hattnum]⟩)
  have hflags := hs.flags hpos hc
  have hvalue : ∀ row, ex.value row arg = row a.attnum := fun row => by
    rw [← ex.value_stripRelabel, harg]
    rfl
  rw [leafProvesPrune_nullTest harg hpos hc]
  cases nulltesttype with
  | isNull =>
      have hnone : (!c.hasNulls) = true ↔ ∀ row ∈ rows, row a.attnum ≠ none := by
        rw [Bool.not_eq_true', ← Bool.not_eq_true, hflags.hasNulls]
        simp [eq_comm]
      constructor
      · rintro hsound ⟨-, hisrow, hnever, row, hrow, v, hv, hfields⟩
        apply hsound (congrArg Except.ok (hnone.mpr hnever)) row hrow
        rw [Executor.truth, hvalue, hv, Executor.isNull, hisrow, hfields]
        rfl
      · intro hno hprune row hrow htrue
        have hnever := hnone.mp (Except.ok.inj hprune)
        rw [Executor.truth, hvalue] at htrue
        cases hv : row a.attnum with
        | none => exact hnever row (hstored hrow) hv
        | some v =>
            rw [hv] at htrue
            have hfields := Bool.and_eq_true_iff.mp (Option.some.inj htrue)
            exact hno ⟨rfl, hfields.1, hnever, row, hrow, v, hv, hfields.2⟩
  | isNotNull =>
      refine iff_of_true (fun hall row hrow => ?_) (by simp)
      have hall : c.allNulls = true := Except.ok.inj hall
      rw [Executor.truth, hvalue, hflags.allNulls hall _ ⟨row, hstored hrow, rfl⟩]
      simp [Executor.isNotNull]

section Mini

/-- A composite type with two fields. -/
def composite : Oid := 16384

/-- Every composite value is `ROW(NULL, NULL)`. -/
def compositeExecutor : Executor Int :=
  { Mini.executor fun _ _ n => n with rowFields := fun _ => [none, none] }

/-- An index on a composite column. -/
def compositeAttrs : List (IndexAttr Int) :=
  [{ attnum := 1, typ := composite, collation := invalidOid, expr := fun _ => none }]

/-- `column IS NULL` and `column IS NOT NULL`. -/
def compositeTest (nulltesttype : NullTestType) : Node Int :=
  .nullTest (.var 1 composite) nulltesttype true

private theorem composite_maintained :
    Maintained (Mini.pg fun _ _ n => n) compositeAttrs ⟨[Mini.entry 5 5]⟩ [Mini.row 5] := by
  have hbuilt : buildLeafSummary (Mini.pg fun _ _ n => n) Mini.session compositeAttrs [Mini.row 5] =
      .ok ⟨[Mini.entry 5 5]⟩ := rfl
  exact .build hbuilt

/-- `IS NOT NULL` on the composite column. -/
theorem nullTest_sound_iff_composite :
    let pg := Mini.pg fun _ _ n => n
    (leafProvesPrune pg Mini.session.guc [Mini.entry 5 5] (compositeTest .isNotNull) = .ok true →
        ∀ row ∈ [Mini.row 5], compositeExecutor.truth pg row (compositeTest .isNotNull) ≠
          some true) ↔
      ¬(NullTestType.isNotNull = .isNull ∧ true = true ∧ (∀ row ∈ [Mini.row 5], row 1 ≠ none) ∧
        ∃ row ∈ [Mini.row 5], ∃ v, row 1 = some v ∧
          (compositeExecutor.rowFields v).all Option.isNone = true) :=
  nullTest_sound_iff compositeExecutor composite_maintained (List.Subset.refl _) rfl
    (by simp [summarized, compositeAttrs]) Mini.session.guc

/-- A table with the one value `ROW(NULL, NULL)`: `IS NULL` is true on it, and
proves a prune because the value is not NULL. -/
theorem nullTest_unsound_composite :
    let pg := Mini.pg fun _ _ n => n
    Maintained pg compositeAttrs ⟨[Mini.entry 5 5]⟩ [Mini.row 5] ∧
      leafProvesPrune pg Mini.session.guc [Mini.entry 5 5] (compositeTest .isNull) = .ok true ∧
      compositeExecutor.truth pg (Mini.row 5) (compositeTest .isNull) = some true :=
  ⟨composite_maintained, rfl, rfl⟩

end Mini

end TableRange
