import Mathlib.Algebra.BigOperators.Group.List.Basic
import Mathlib.Algebra.Order.BigOperators.Group.List
import Mathlib.Algebra.Order.Ring.Nat
import Mathlib.Tactic.Common
import TableRange.Lib.Codec

/-!
# The typed summary and its on-page format

`src/index_storage.rs`, the second half: `ColSummary`, `IndexSummary`, the
positional `Reader`, `serialize` and `deserialize`.

A `String` of the model is a Rust `String`: a sequence of bytes that is valid
UTF-8.  `len()` is its number of bytes.  The length prefixes are 16 bits wide
and are written with `as u16`, so they wrap on longer strings; `Encodable` says
that none does.  `deserialize_serialize` is the round trip under that bound, and
`encodable_of_length_le` derives the bound from the size of the encoding, which
is what the page offers.
-/

namespace TableRange

open Lib.Codec

abbrev Oid := UInt32

abbrev Bytes := List UInt8

/-- `pg_sys::Oid::INVALID`. -/
def invalidOid : Oid := 0

/-- One column's summary.  With `overlap`, `min` holds a covering extent for
`&&` pruning; without it, `min` and `max` hold the column's btree bounds. -/
structure ColSummary where
  attnum : Int16
  overlap : Bool
  typeName : String
  collation : Oid
  min : Option String
  max : Option String
  hasNulls : Bool
  allNulls : Bool
  unbounded : Bool
deriving DecidableEq, Repr

/-- Bounds unknown: from here on only the null flags prune. -/
def ColSummary.makeUnbounded (c : ColSummary) : ColSummary :=
  { c with unbounded := true, min := none, max := none }

structure IndexSummary where
  cols : List ColSummary
deriving DecidableEq, Repr

/-! ## Bytes -/

/-- `str::as_bytes`. -/
def utf8Bytes (s : String) : Bytes := s.toUTF8.data.toList

/-- `String::from_utf8(..).ok()`. -/
def fromUtf8 (bytes : Bytes) : Option String := String.fromUTF8? ⟨bytes.toArray⟩

@[simp] theorem fromUtf8_utf8Bytes (s : String) : fromUtf8 (utf8Bytes s) = some s := by
  have hvalid : (⟨(utf8Bytes s).toArray⟩ : ByteArray).IsValidUTF8 := by
    simpa [utf8Bytes] using s.isValidUTF8
  rw [fromUtf8, String.fromUTF8?, dif_pos hvalid]
  exact congrArg some (String.toByteArray_inj.mp (by simp [utf8Bytes, String.fromUTF8]))

/-- `u16::to_le_bytes`. -/
def le16 (n : UInt16) : Bytes := [UInt8.ofNat n.toNat, UInt8.ofNat (n.toNat / 256)]

/-- `u16::from_le_bytes([bytes[0], bytes[1]])`. -/
def fromLe16 : Bytes → UInt16
  | b₀ :: b₁ :: _ => UInt16.ofNat (b₀.toNat + 256 * b₁.toNat)
  | _ => 0

/-- `u32::to_le_bytes`. -/
def le32 (n : UInt32) : Bytes :=
  [ UInt8.ofNat n.toNat
  , UInt8.ofNat (n.toNat / 256)
  , UInt8.ofNat (n.toNat / 65536)
  , UInt8.ofNat (n.toNat / 16777216) ]

/-- `u32::from_le_bytes` of four bytes. -/
def fromLe32 : Bytes → UInt32
  | b₀ :: b₁ :: b₂ :: b₃ :: _ =>
      UInt32.ofNat (b₀.toNat + 256 * b₁.toNat + 65536 * b₂.toNat + 16777216 * b₃.toNat)
  | _ => 0

@[simp] theorem le16_length (n : UInt16) : (le16 n).length = 2 := rfl

@[simp] theorem le32_length (n : UInt32) : (le32 n).length = 4 := rfl

@[simp] theorem fromLe16_le16 (n : UInt16) : fromLe16 (le16 n) = n := by
  apply UInt16.toNat_inj.mp
  have hn := n.toNat_lt
  simp only [le16, fromLe16, UInt16.toNat_ofNat', UInt8.toNat_ofNat']
  omega

@[simp] theorem fromLe32_le32 (n : UInt32) : fromLe32 (le32 n) = n := by
  apply UInt32.toNat_inj.mp
  have hn := n.toNat_lt
  simp only [le32, fromLe32, UInt32.toNat_ofNat', UInt8.toNat_ofNat']
  omega

/-! ## Writing -/

/-- Other format versions are unreadable on purpose. -/
def summaryVersion : UInt8 := 2

def flagHasNulls : UInt8 := 1
def flagAllNulls : UInt8 := 2
def flagUnbounded : UInt8 := 4

/-- The length is written with `as u16`, which keeps its low 16 bits only. -/
def putStr (s : String) : Bytes :=
  le16 (UInt16.ofNat (utf8Bytes s).length) ++ utf8Bytes s

def putOptStr : Option String → Bytes
  | some s => 1 :: putStr s
  | none => [0]

/-- The flag byte of one column. -/
def ColSummary.flags (c : ColSummary) : UInt8 :=
  (if c.hasNulls then flagHasNulls else 0) ||| (if c.allNulls then flagAllNulls else 0) |||
    (if c.unbounded then flagUnbounded else 0)

/-- The body of the loop of `serialize`. -/
def putCol (c : ColSummary) : Bytes :=
  le16 c.attnum.toUInt16 ++ ([if c.overlap then 1 else 0] ++ ([c.flags] ++
    (le32 c.collation ++ (putStr c.typeName ++ (putOptStr c.min ++ putOptStr c.max)))))

def serialize (summary : IndexSummary) : Bytes :=
  [summaryVersion] ++ (le16 (UInt16.ofNat summary.cols.length) ++ summary.cols.flatMap putCol)

/-! ## Reading -/

structure Reader where
  buf : Bytes
  pos : Nat
  pos_le : pos ≤ buf.length

namespace Reader

/-- The bytes that are not read yet. -/
def rest (r : Reader) : Bytes := r.buf.drop r.pos

def u8 : StateT Reader Option UInt8 := fun r =>
  if h : r.pos < r.buf.length then
    some (r.buf[r.pos], { r with pos := r.pos + 1, pos_le := h })
  else none

/-- `self.buf.get(self.pos..self.pos + len)?` and the advance that follows it. -/
def slice (len : Nat) : StateT Reader Option Bytes := fun r =>
  if h : r.pos + len ≤ r.buf.length then
    some ((r.buf.drop r.pos).take len, { r with pos := r.pos + len, pos_le := h })
  else none

def u16 : StateT Reader Option UInt16 := do
  let bytes ← slice 2
  pure (fromLe16 bytes)

def u32 : StateT Reader Option UInt32 := do
  let bytes ← slice 4
  pure (fromLe32 bytes)

def i16 : StateT Reader Option Int16 := do
  let v ← u16
  pure v.toInt16

def str : StateT Reader Option String := do
  let len ← u16
  let bytes ← slice len.toNat
  match fromUtf8 bytes with
  | some s => pure s
  | none => failure

def optStr : StateT Reader Option (Option String) := do
  let tag ← u8
  if tag = 0 then pure none else do
    let s ← str
    pure (some s)

/-- The body of the loop of `deserialize`. -/
def col : StateT Reader Option ColSummary := do
  let attnum ← i16
  let overlap ← u8
  let flags ← u8
  let collation ← u32
  let typeName ← str
  let min ← optStr
  let max ← optStr
  pure
    { attnum, overlap := overlap != 0, typeName, collation, min, max
      hasNulls := flags &&& flagHasNulls != 0
      allNulls := flags &&& flagAllNulls != 0
      unbounded := flags &&& flagUnbounded != 0 }

def summary : StateT Reader Option IndexSummary := do
  let version ← u8
  if version ≠ summaryVersion then failure else do
    let ncols ← u16
    let cols ← times ncols.toNat col
    pure ⟨cols⟩

end Reader

/-- Bytes after the last column are ignored. -/
def deserialize (buf : Bytes) : Option IndexSummary :=
  (Reader.summary ⟨buf, 0, Nat.zero_le _⟩).map Prod.fst

/-! ## Each field is self-delimiting -/

namespace Reader

theorem length_rest (r : Reader) : r.rest.length = r.buf.length - r.pos := by
  simp [rest]

theorem codes_u8 (b : UInt8) : Codes rest u8 [b] b where
  reads r tail h := by
    have hlen := r.length_rest
    rw [h, List.length_append, List.length_singleton] at hlen
    have hlt : r.pos < r.buf.length := by omega
    have hcons : r.buf.drop r.pos = b :: tail := h
    rw [List.drop_eq_getElem_cons hlt, List.cons.injEq] at hcons
    exact ⟨{ r with pos := r.pos + 1, pos_le := hlt }, by rw [u8, dif_pos hlt, hcons.1], hcons.2⟩
  starves r h hne := by
    have hlen := r.length_rest
    have hnil : r.rest = [] := by
      rcases List.prefix_cons_iff.mp h with h | ⟨t, ht, htnil⟩
      · exact h
      · rw [List.prefix_nil.mp htnil] at ht
        exact absurd ht hne
    rw [hnil, List.length_nil] at hlen
    exact dif_neg (by omega)

theorem codes_slice (bytes : Bytes) : Codes rest (slice bytes.length) bytes bytes where
  reads r tail h := by
    have hlen := r.length_rest
    have hpos := r.pos_le
    rw [h, List.length_append] at hlen
    have hle : r.pos + bytes.length ≤ r.buf.length := by omega
    refine ⟨{ r with pos := r.pos + bytes.length, pos_le := hle }, ?_, ?_⟩
    · rw [slice, dif_pos hle, show r.buf.drop r.pos = bytes ++ tail from h, List.take_left]
    · rw [rest, ← List.drop_drop, show r.buf.drop r.pos = bytes ++ tail from h, List.drop_left]
  starves r h hne := by
    have hlen := r.length_rest
    have hpos := r.pos_le
    have hlt : r.rest.length < bytes.length := by
      refine Nat.lt_of_le_of_ne h.length_le fun he => hne (h.eq_of_length he)
    exact dif_neg (by omega)

theorem codes_u16 (n : UInt16) : Codes rest u16 (le16 n) n := by
  simpa [u16] using (codes_slice (le16 n)).map fromLe16

theorem codes_u32 (n : UInt32) : Codes rest u32 (le32 n) n := by
  simpa [u32] using (codes_slice (le32 n)).map fromLe32

theorem codes_i16 (n : Int16) : Codes rest i16 (le16 n.toUInt16) n :=
  (codes_u16 n.toUInt16).map UInt16.toInt16

/-- A string whose length fits its 16-bit prefix. -/
theorem codes_str {s : String} (h : (utf8Bytes s).length < 65536) :
    Codes rest str (putStr s) s := by
  refine (codes_u16 _).bind ?_
  have hlen : (UInt16.ofNat (utf8Bytes s).length).toNat = (utf8Bytes s).length := by
    rw [UInt16.toNat_ofNat', Nat.mod_eq_of_lt h]
  rw [hlen]
  have hs : Codes rest (slice (utf8Bytes s).length >>= fun bytes =>
      match fromUtf8 bytes with
      | some s => (pure s : StateT Reader Option String)
      | none => failure) (utf8Bytes s ++ []) s := by
    refine (codes_slice (utf8Bytes s)).bind ?_
    rw [fromUtf8_utf8Bytes]
    exact Codes.pure s
  simpa using hs

theorem codes_optStr {s : Option String} (h : ∀ t ∈ s, (utf8Bytes t).length < 65536) :
    Codes rest optStr (putOptStr s) s := by
  cases s with
  | none => exact (codes_u8 0).bind (Codes.pure none)
  | some t => exact (codes_u8 1).bind ((codes_str (h t rfl)).map some)

end Reader

/-! ## The round trip -/

/-- Every length of the column fits the 16 bits it is written in. -/
structure ColSummary.Encodable (c : ColSummary) : Prop where
  typeName : (utf8Bytes c.typeName).length < 65536
  min : ∀ s ∈ c.min, (utf8Bytes s).length < 65536
  max : ∀ s ∈ c.max, (utf8Bytes s).length < 65536

/-- Every length of the summary fits the 16 bits it is written in. -/
structure IndexSummary.Encodable (summary : IndexSummary) : Prop where
  ncols : summary.cols.length < 65536
  cols : ∀ c ∈ summary.cols, c.Encodable

/-- The flag byte keeps the three flags. -/
theorem ColSummary.flags_spec (c : ColSummary) :
    (c.flags &&& flagHasNulls != 0) = c.hasNulls ∧ (c.flags &&& flagAllNulls != 0) = c.allNulls ∧
      (c.flags &&& flagUnbounded != 0) = c.unbounded := by
  unfold ColSummary.flags
  cases c.hasNulls <;> cases c.allNulls <;> cases c.unbounded <;> decide

namespace Reader

theorem codes_col {c : ColSummary} (h : c.Encodable) : Codes rest col (putCol c) c := by
  obtain ⟨hnulls, hall, hunb⟩ := c.flags_spec
  have hov : ((if c.overlap then (1 : UInt8) else 0) != 0) = c.overlap := by
    cases c.overlap <;> rfl
  refine (codes_i16 _).bind ((codes_u8 _).bind ((codes_u8 _).bind ((codes_u32 _).bind
    ((codes_str h.typeName).bind ((codes_optStr h.min).bind ?_)))))
  have hlast := (codes_optStr h.max).map fun max : Option String =>
    ({ attnum := c.attnum, overlap := (if c.overlap then (1 : UInt8) else 0) != 0
       typeName := c.typeName, collation := c.collation, min := c.min, max
       hasNulls := c.flags &&& flagHasNulls != 0
       allNulls := c.flags &&& flagAllNulls != 0
       unbounded := c.flags &&& flagUnbounded != 0 } : ColSummary)
  simpa only [hov, hnulls, hall, hunb] using hlast

theorem codes_summary {s : IndexSummary} (h : s.Encodable) :
    Codes rest summary (serialize s) s := by
  refine (codes_u8 summaryVersion).bind ?_
  rw [if_neg (not_not.mpr rfl)]
  refine (codes_u16 _).bind ?_
  rw [UInt16.toNat_ofNat', Nat.mod_eq_of_lt h.ncols]
  exact (Codes.times fun c hc => codes_col (h.cols c hc)).map IndexSummary.mk

end Reader

/-- Decoding gives back what was encoded, whatever follows it. -/
theorem deserialize_serialize_append {s : IndexSummary} (h : s.Encodable) (tail : Bytes) :
    deserialize (serialize s ++ tail) = some s := by
  obtain ⟨r, hr, -⟩ := (Reader.codes_summary h).reads ⟨serialize s ++ tail, 0, Nat.zero_le _⟩
    tail rfl
  rw [deserialize, hr]
  rfl

theorem deserialize_serialize {s : IndexSummary} (h : s.Encodable) :
    deserialize (serialize s) = some s := by
  simpa using deserialize_serialize_append h []

/-- An encoding that is cut off does not decode. -/
theorem deserialize_strictPrefix {s : IndexSummary} (h : s.Encodable) {p : Bytes}
    (hp : p <+: serialize s) (hne : p ≠ serialize s) : deserialize p = none := by
  rw [deserialize, (Reader.codes_summary h).starves ⟨p, 0, Nat.zero_le _⟩ hp hne]
  rfl

/-- The format decodes exactly what was encoded, whatever follows it, and nothing
less. -/
theorem deserialize_exact {s : IndexSummary} (h : s.Encodable) :
    (∀ tail, deserialize (serialize s ++ tail) = some s) ∧
      ∀ p, p <+: serialize s → p ≠ serialize s → deserialize p = none := by
  constructor
  · intro tail
    exact deserialize_serialize_append h tail
  · intro p hp hne
    exact deserialize_strictPrefix h hp hne

/-- Two columns, of which the first one has an empty and an absent bound. -/
def sampleSummary : IndexSummary :=
  ⟨[{ attnum := 1, overlap := true, typeName := "t", collation := 100, min := some "", max := none
      hasNulls := true, allNulls := false, unbounded := false },
    { attnum := -2, overlap := false, typeName := "", collation := invalidOid, min := some "é"
      max := some "x", hasNulls := false, allNulls := true, unbounded := true }]⟩

theorem deserialize_exact_sample :
    (∀ tail, deserialize (serialize sampleSummary ++ tail) = some sampleSummary) ∧
      ∀ p, p <+: serialize sampleSummary → p ≠ serialize sampleSummary → deserialize p = none := by
  refine deserialize_exact ⟨by decide, ?_⟩
  simp only [sampleSummary, List.mem_cons, List.not_mem_nil, or_false]
  rintro c (rfl | rfl)
  · exact ⟨by decide, by rintro s ⟨⟩; decide, by rintro s ⟨⟩⟩
  · exact ⟨by decide, by rintro s ⟨⟩; decide, by rintro s ⟨⟩; decide⟩

/-! ## Sizes -/

/-- `String::len` of an optional bound, 0 when it is absent. -/
def optLen (s : Option String) : Nat := (s.map fun t => (utf8Bytes t).length).getD 0

@[simp] theorem optLen_none : optLen none = 0 := rfl

@[simp] theorem optLen_some (s : String) : optLen (some s) = (utf8Bytes s).length := rfl

@[simp] theorem putStr_length (s : String) : (putStr s).length = 2 + (utf8Bytes s).length := by
  simp [putStr]

/-- An absent bound takes one byte and a present one three more than its text
holds. -/
theorem putOptStr_length (s : Option String) :
    (putOptStr s).length = (if s.isSome then 3 else 1) + optLen s := by
  cases s <;> simp [putOptStr, putStr]; omega

/-- The bytes of one column: eight of fixed fields, the type name with its
length, and the two bounds. -/
theorem putCol_length (c : ColSummary) :
    (putCol c).length = 10 + (utf8Bytes c.typeName).length +
      (putOptStr c.min).length + (putOptStr c.max).length := by
  simp only [putCol, List.length_append, le16_length, le32_length, List.length_singleton,
    putStr_length]
  omega

theorem serialize_length (s : IndexSummary) :
    (serialize s).length = 3 + (s.cols.map fun c => (putCol c).length).sum := by
  simp only [serialize, List.length_append, List.length_singleton, le16_length,
    List.length_flatMap]
  omega

/-- A column of a summary is no longer than the summary. -/
theorem putCol_length_le {s : IndexSummary} {c : ColSummary} (hc : c ∈ s.cols) :
    (putCol c).length ≤ (serialize s).length := by
  rw [serialize_length]
  have := List.le_sum_of_mem (List.mem_map_of_mem (f := fun c => (putCol c).length) hc)
  omega

theorem length_cols_le (s : IndexSummary) : s.cols.length ≤ (serialize s).length := by
  have hone : ∀ c ∈ s.cols, 1 ≤ (putCol c).length := by
    intro c _
    rw [putCol_length]
    omega
  have hsum := List.length_le_sum_of_one_le (s.cols.map fun c => (putCol c).length) (by simpa)
  rw [List.length_map] at hsum
  rw [serialize_length]
  omega

/-- An encoding below 64 KiB has no length that wraps. -/
theorem encodable_of_length_lt {s : IndexSummary} (h : (serialize s).length < 65536) :
    s.Encodable where
  ncols := Nat.lt_of_le_of_lt (length_cols_le s) h
  cols c hc := by
    have hle := putCol_length_le hc
    rw [putCol_length, putOptStr_length, putOptStr_length] at hle
    refine ⟨by omega, ?_, ?_⟩ <;> intro t ht <;> simp only [Option.mem_def] at ht <;>
      rw [ht, optLen_some] at hle <;> omega

end TableRange
