import TableRange.Sql

/-!
# A small server

A server whose values are integers, written in unary: every type is a btree
type of its own whose order is given by a key, and the operator of strategy `s`
on type `t` has the OID `8 * t + s`.  It meets every assumption of the
development, so none of them is empty, and the questions about the code that a
single run settles are answered on it.
-/

namespace TableRange.Mini

open Lib.Interval

/-! ## Text -/

def text (n : Int) : String :=
  String.ofList ((if n < 0 then ['-'] else []) ++ List.replicate n.natAbs 'x')

def parse (s : String) : Int :=
  match s.toList with
  | '-' :: cs => -cs.length
  | cs => cs.length

@[simp] theorem parse_text (n : Int) : parse (text n) = n := by
  unfold parse text
  rw [String.toList_ofList]
  split_ifs with hneg
  · simp only [List.singleton_append, List.length_replicate]
    omega
  · rw [List.nil_append]
    split
    · rename_i cs hcs
      have hmem : '-' ∈ List.replicate n.natAbs 'x' := by simp [hcs]
      exact absurd (List.eq_of_mem_replicate hmem) (by decide)
    · simp only [List.length_replicate]
      omega

/-- Unary text has no NUL byte. -/
theorem zero_notMem_text (n : Int) : 0 ∉ utf8Bytes (text n) := by
  have hbytes : utf8Bytes (text n) =
      ((if n < 0 then ['-'] else []) ++ List.replicate n.natAbs 'x').flatMap
        String.utf8EncodeChar := by
    simp only [utf8Bytes, text, List.utf8Encode, String.toUTF8, String.toByteArray_ofList]
    simp
  rw [hbytes]
  intro hzero
  obtain ⟨c, hc, hbyte⟩ := List.mem_flatMap.mp hzero
  rcases List.mem_append.mp hc with hc | hc
  · split_ifs at hc
    · obtain rfl := List.mem_singleton.mp hc
      exact absurd hbyte (by decide)
    · cases hc
  · obtain rfl := List.eq_of_mem_replicate hc
    exact absurd hbyte (by decide)

/-! ## The server -/

/-- The operator of a type for a strategy. -/
def op (typ : Oid) (strategy : UInt32) : Oid := 8 * typ + strategy

/-- `key family collation` orders the values of the type `family`. -/
def pg (key : Oid → Oid → Int → Int) : Pg Int where
  searchTypeOid _ := some { typname := "int4", typnamespace := 11, typtype := 'b', typlen := 4 }
  getNamespaceName _ := some "pg_catalog"
  getBaseType typ := typ
  getElementType _ := invalidOid
  quoteIdentifier _ name := name
  getDefaultOpClass typ := typ
  getOpclassFamily opclass := opclass
  getOpclassInputType opclass := opclass
  getOpfamilyProc family _ _ := family
  opInputTypes opno := (opno / 8, opno / 8)
  getOpOpfamilyStrategy opno family := if opno / 8 = family then (opno % 8).toNat else 0
  getOpname _ := none
  getOpcode opno := opno
  getFuncNamespace _ := invalidOid
  getTypeOutputInfo typ := typ
  getTypeInputInfo typ := (typ, typ)
  outputFunctionCall _ _ d := .ok (some (utf8Bytes (text d)))
  inputFunctionCall _ _ s _ := .ok (parse s)
  compareCall proc collation a b := .ok (key proc collation a - key proc collation b)
  boolCall _ _ _ _ := .ok false
  rangeMerge a _ := .ok a
  spiExecute _ := .ok none
  spiExecuteWithArgs _ _ := .ok none
  deconstructArray _ := []

variable (key : Oid → Oid → Int → Int)

theorem datumToText {g : Guc} {typ : Oid} (htyp : typ ≠ invalidOid) (d : Int) :
    (pg key).datumToText g typ d = .ok (some (text d)) := by
  unfold Pg.datumToText
  rw [show (pg key).getTypeOutputInfo typ = typ from rfl]
  simp only [if_neg htyp]
  exact congrArg (fun t => Except.ok t) (fromUtf8_utf8Bytes (text d))

theorem textToDatum {g : Guc} {typ : Oid} (htyp : typ ≠ invalidOid) (d : Int) :
    (pg key).textToDatum g typ (text d) = .ok (some d) := by
  unfold Pg.textToDatum
  rw [show (pg key).getTypeInputInfo typ = (typ, typ) from rfl]
  simp only [if_neg htyp, if_neg (zero_notMem_text d)]
  exact congrArg (fun n => Except.ok (some n)) (parse_text d)

/-- What renders is the unary text. -/
theorem renders {typ : Oid} {t : String} {d : Int} (h : (pg key).Renders typ t d) :
    typ ≠ invalidOid ∧ t = text d := by
  obtain ⟨g, -, h⟩ := h
  have htyp : typ ≠ invalidOid := by
    rintro rfl
    cases h
  rw [datumToText key htyp d] at h
  exact ⟨htyp, (Option.some.inj (Except.ok.inj h)).symm⟩

theorem textRoundTrip : (pg key).TextRoundTrip where
  read _ h := by
    obtain ⟨htyp, rfl⟩ := renders key h
    exact textToDatum key htyp _

/-- No type of the server has extents. -/
theorem planAccumulator_kind (typ : Oid) :
    (planAccumulator (pg key) typ).kind ≠ .range ∧
      (planAccumulator (pg key) typ).kind ≠ .geometry := by
  have hbase : (pg key).getBaseType typ = typ := rfl
  have hlen : (pg key).getTyplen typ ≠ -2 := by
    rw [show (pg key).getTyplen typ = 4 from rfl]
    decide
  have htype : (pg key).getTyptype typ ≠ 'r' := by
    rw [show (pg key).getTyptype typ = 'b' from rfl]
    decide
  have hname : ((pg key).typeNameParts typ).any (fun parts => parts.2 == "geometry") = false := rfl
  cases hproc : (pg key).btreeCmpProc typ with
  | none => simp [planAccumulator, hbase, hlen, htype, hname, hproc, Accumulator.kind]
  | some proc => simp [planAccumulator, hbase, hlen, htype, hname, hproc, Accumulator.kind]

/-- The order of the integers. -/
@[reducible] def intOrder : Preorder Int := Int.instLinearOrder.toPreorder

/-- The orders that the keys give. -/
@[reducible] def order : (pg key).BtreeOrder where
  order family collation := @Preorder.lift Int Int intOrder (key family collation)
  total family collation :=
    ⟨fun a b => le_total (key family collation a) (key family collation b)⟩
  compare_spec {family _ _ collation a b n} _ h := by
    obtain rfl := Except.ok.inj h
    exact ⟨⟨Int.lt_of_sub_neg, Int.sub_neg_of_lt⟩, Int.lt_of_sub_pos, Int.sub_pos_of_lt⟩

/-! ## Its executor -/

/-- The strategy of an operator. -/
def strategy (opno : Oid) : Int := (opno % 8).toNat

/-- Strict comparison by the key of the operator's type. -/
def executor : Executor Int where
  opResult opno collation a b :=
    match a, b, comparisonOf (strategy opno) with
    | some a, some b, some c =>
        some (decide (@Comparison.Holds Int intOrder c (key (opno / 8) collation a)
          (key (opno / 8) collation b)))
    | _, _, _ => none
  rowFields _ := []
  exprValue _ _ := none
  nodeTruth _ _ := none

/-- A member of a family is an operator on the family's type. -/
theorem comparisonOf_strategy {opno family : Oid} {c : Comparison}
    (h : comparisonOf ((pg key).getOpOpfamilyStrategy opno family) = some c) :
    opno / 8 = family ∧ comparisonOf (strategy opno) = some c := by
  simp only [pg] at h
  split at h
  · rename_i hfamily
    exact ⟨hfamily, h⟩
  · cases h

theorem btreeLaws : (executor key).BtreeLaws (order key) where
  strict_left _ _ _ := by simp [executor]
  strict_right _ a _ := by cases a <;> simp [executor]
  compare collation a b h := by
    obtain ⟨rfl, hc⟩ := comparisonOf_strategy key h
    simp only [executor, hc, Option.some.injEq, decide_eq_true_eq]
    rename_i c
    cases c <;> exact Iff.rfl

/-! ## One table -/

/-- `int4`. -/
def int4 : Oid := 23

/-- A row with one column. -/
def row (n : Int) : Row Int := fun attnum => if attnum = 1 then some n else none

/-- An index on the one column. -/
def index : IndexDef Int where
  attrs := [{ attnum := 1, typ := int4, collation := invalidOid, expr := fun _ => none }]
  hasPredicate := false

/-- The entry of the column with the bounds `lo` and `hi`. -/
def entry (lo hi : Int) : ColSummary :=
  { attnum := 1, overlap := false, typeName := "pg_catalog.int4", collation := invalidOid
    min := some (text lo), max := some (text hi), hasNulls := false, allNulls := false
    unbounded := false }

/-- A session whose settings need no pinning. -/
def session : Session where
  guc := { dateStyle := .iso, dateOrder := .mdy, intervalStyle := .postgres
           extraFloatDigits := 1, lcMonetary := "C" }
  inParallelMode := false
  quoteAllIdentifiers := false

/-- `column op n`. -/
def compareNode (strategy : UInt32) (n : Int) : Node Int :=
  .opExpr (op int4 strategy) invalidOid [.var 1 int4, .const int4 (some n)]

theorem session_stable : session.guc.Stable := ⟨rfl, rfl, by decide⟩

theorem index_total : index.hasPredicate = false := rfl

theorem index_distinct : DistinctColumns index.attrs := by
  simp [DistinctColumns, summarized, index]

end TableRange.Mini
