import TableRange.Lib.Fallible
import TableRange.Lib.Interval
import TableRange.StableIo
import TableRange.Storage.Format

/-!
# The PostgreSQL the extension runs in

`Pg D` collects the catalog lookups and server functions that the extension
calls, over an arbitrary type `D` of datums.  A call that can `ERROR` returns a
`PgResult`, and a helper that returns a Rust `Option` returns `Option` inside it.
Memory contexts, reference counts and copies of datums are absent: a datum is a
value.

The second half holds the helpers of `src/prune_hook.rs` and
`src/summary_build.rs` that both the maintenance and the planner call, and the
third what the development assumes of the server.  Each assumption is a
structure, so that a theorem names what it rests on.
-/

namespace TableRange

open Lib.Interval

/-- An `ERROR` carries its message. -/
abbrev PgResult := Except String

/-- The columns of `pg_type` that the extension reads. -/
structure PgType where
  typname : String
  typnamespace : Oid
  typtype : Char
  typlen : Int
deriving DecidableEq, Repr

structure Pg (D : Type) where
  /-- `SearchSysCache1(TYPEOID, ..)`. -/
  searchTypeOid : Oid → Option PgType
  getNamespaceName : Oid → Option String
  getBaseType : Oid → Oid
  /-- `InvalidOid` unless the type is a true array type. -/
  getElementType : Oid → Oid
  /-- `quote_identifier`, under `quote_all_identifiers` or not. -/
  quoteIdentifier : Bool → String → String
  /-- `GetDefaultOpClass(typ, BTREE_AM_OID)`. -/
  getDefaultOpClass : Oid → Oid
  getOpclassFamily : Oid → Oid
  getOpclassInputType : Oid → Oid
  /-- The family's `BTORDER_PROC` for a left and a right type. -/
  getOpfamilyProc : Oid → Oid → Oid → Oid
  opInputTypes : Oid → Oid × Oid
  /-- `get_op_opfamily_strategy(opno, opfamily)`, 0 for a non-member. -/
  getOpOpfamilyStrategy : Oid → Oid → Int
  getOpname : Oid → Option String
  getOpcode : Oid → Oid
  getFuncNamespace : Oid → Oid
  getTypeOutputInfo : Oid → Oid
  /-- The input function and its `typioparam`. -/
  getTypeInputInfo : Oid → Oid × Oid
  /-- `OidOutputFunctionCall`: the bytes of the C string, `none` for a null pointer. -/
  outputFunctionCall : Guc → Oid → D → PgResult (Option Bytes)
  /-- `InputFunctionCall(.., typioparam, -1)`. -/
  inputFunctionCall : Guc → Oid → String → Oid → PgResult D
  /-- A compare procedure under a collation, its result read as `i32`. -/
  compareCall : Oid → Oid → D → D → PgResult Int
  /-- An operator's function under a collation, its result read as `bool`. -/
  boolCall : Oid → Oid → D → D → PgResult Bool
  /-- `range_merge(anyrange, anyrange)`. -/
  rangeMerge : D → D → PgResult D
  /-- `SPI_execute`: the text of the first column of the first row, if there is one. -/
  spiExecute : String → PgResult (Option Bytes)
  /-- `SPI_execute_with_args` with one array argument. -/
  spiExecuteWithArgs : String → List D → PgResult (Option Bytes)
  /-- `deconstruct_array` of a datum of an array type. -/
  deconstructArray : D → List (Option D)

/-- A heap row: the value of each attribute, `none` for NULL. -/
abbrev Row (D : Type) := Int16 → Option D

/-- One column of an index definition: `ii_IndexAttrNumbers`, the index's
`atttypid` and `rd_indcollation` at one position.  An expression column has
`attnum` 0. -/
structure IndexAttr (D : Type) where
  attnum : Int16
  typ : Oid
  /-- `InvalidOid` when `rd_indcollation` is null. -/
  collation : Oid
  /-- The value of the expression, for an expression column. -/
  expr : Row D → Option D

variable {D : Type}

/-- What `values[i]` and `isnull[i]` hold when the row reaches the index. -/
def IndexAttr.value (a : IndexAttr D) (row : Row D) : Option D :=
  if a.attnum = 0 then a.expr row else row a.attnum

namespace Pg

variable (pg : Pg D)

/-! ## Helpers -/

def getTyptype (typ : Oid) : Char := ((pg.searchTypeOid typ).map PgType.typtype).getD '\x00'

def getTyplen (typ : Oid) : Int := ((pg.searchTypeOid typ).map PgType.typlen).getD 0

def typeNameParts (typ : Oid) : Option (String × String) := do
  let form ← pg.searchTypeOid typ
  let nsp ← pg.getNamespaceName form.typnamespace
  some (nsp, form.typname)

def typeNamespace (typ : Oid) : Option Oid := (pg.searchTypeOid typ).map PgType.typnamespace

/-- `quote_qualified_identifier`. -/
def quoteQualifiedIdentifier (quoteAll : Bool) (nsp name : String) : String :=
  pg.quoteIdentifier quoteAll nsp ++ "." ++ pg.quoteIdentifier quoteAll name

def qualifiedTypeName (quoteAll : Bool) (typ : Oid) : PgResult String :=
  match pg.typeNameParts typ with
  | some (nsp, name) => .ok (pg.quoteQualifiedIdentifier quoteAll nsp name)
  | none => .error s!"table_range: type {typ} not found"

/-- The name that is written for a type with a `pg_type` row. -/
theorem qualifiedTypeName_eq {typ : Oid} {nsp name : String}
    (hname : pg.typeNameParts typ = some (nsp, name)) (quoteAll : Bool) :
    pg.qualifiedTypeName quoteAll typ = .ok (pg.quoteQualifiedIdentifier quoteAll nsp name) := by
  simp [qualifiedTypeName, hname]

/-- The name that some session writes for the type. -/
def HasTypeName (typ : Oid) (tn : String) : Prop :=
  ∃ quoteAll, pg.qualifiedTypeName quoteAll typ = .ok tn

def defaultBtreeFamily (typ : Oid) : Option Oid :=
  let opclass := pg.getDefaultOpClass typ
  if opclass = invalidOid then none
  else
    let opfamily := pg.getOpclassFamily opclass
    if opfamily = invalidOid then none else some opfamily

/-- Looked up under the opclass's input type, which may differ from `typ`. -/
def btreeCmpProc (typ : Oid) : Option Oid :=
  let opclass := pg.getDefaultOpClass typ
  if opclass = invalidOid then none
  else
    let opfamily := pg.getOpclassFamily opclass
    let intype := pg.getOpclassInputType opclass
    let proc := pg.getOpfamilyProc opfamily intype intype
    if proc = invalidOid then none else some proc

/-- `none`: no input function, or a NUL byte in the text. -/
def textToDatum (g : Guc) (typ : Oid) (s : String) : PgResult (Option D) :=
  let (infunc, typioparam) := pg.getTypeInputInfo typ
  if infunc = invalidOid then .ok none
  else if 0 ∈ utf8Bytes s then .ok none
  else do
    let d ← pg.inputFunctionCall g infunc s typioparam
    .ok (some d)

/-- `none`: no output function, no result, or a result that is not UTF-8. -/
def datumToText (g : Guc) (typ : Oid) (d : D) : PgResult (Option String) :=
  let outfunc := pg.getTypeOutputInfo typ
  if outfunc = invalidOid then .ok none
  else do
    let cstr ← pg.outputFunctionCall g outfunc d
    .ok (cstr.bind fromUtf8)

/-- `spi_value`. -/
def spiValue (sql : String) : PgResult (Option String) := do
  let value ← pg.spiExecute sql
  .ok (value.bind fromUtf8)

/-! ## What is assumed of the server -/

/-- `t` is the text form of `d` under the pinned settings of some session. -/
def Renders (typ : Oid) (t : String) (d : D) : Prop :=
  ∃ g : Guc, g.Stable ∧ pg.datumToText g typ d = .ok (some t)

/-- Text output followed by input gives back the same value, whatever the two
sessions are, as long as both have pinned their settings.  A domain's text is
read by its base type. -/
structure TextRoundTrip : Prop where
  read : ∀ {g : Guc} {typ : Oid} {t : String} {d : D}, g.Stable → pg.Renders typ t d →
    pg.textToDatum g (pg.getBaseType typ) t = .ok (some d)

/-- A compare procedure of a btree family. -/
def IsCompareProc (proc : Oid) : Prop :=
  proc ≠ invalidOid ∧ ∃ family left right, pg.getOpfamilyProc family left right = proc

/-- The compare procedures of the btree families never fail. -/
structure CompareReturns : Prop where
  returns : ∀ {proc : Oid}, pg.IsCompareProc proc → ∀ collation a b,
    ∃ n, pg.compareCall proc collation a b = .ok n

theorem isCompareProc_opfamilyProc {family left right : Oid}
    (h : pg.getOpfamilyProc family left right ≠ invalidOid) :
    pg.IsCompareProc (pg.getOpfamilyProc family left right) :=
  ⟨h, family, left, right, rfl⟩

theorem isCompareProc_btree {typ proc : Oid} (h : pg.btreeCmpProc typ = some proc) :
    pg.IsCompareProc proc := by
  simp only [btreeCmpProc] at h
  split at h
  · cases h
  · split at h
    · cases h
    · rename_i hproc
      cases h
      exact pg.isCompareProc_opfamilyProc hproc

/-- The compare procedures of a btree family form one total preorder per
collation over all its types. -/
structure BtreeOrder where
  order : Oid → Oid → Preorder D
  total : ∀ family collation, @Std.Total D (order family collation).le
  compare_spec : ∀ {family left right collation : Oid} {a b : D} {n : Int},
    pg.getOpfamilyProc family left right ≠ invalidOid →
    pg.compareCall (pg.getOpfamilyProc family left right) collation a b = .ok n →
    (n < 0 ↔ (order family collation).lt a b) ∧ (0 < n ↔ (order family collation).lt b a)

end Pg

end TableRange
