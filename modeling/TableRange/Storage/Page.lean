import TableRange.Storage.Format

/-!
# The metapage

`src/index_storage.rs`, the first half: block 0 of the index holds a four-byte
length and that many bytes of summary.  `IndexFile` is the main fork of the
index, which has no block before the first write.  The content area of an
initialized page has a fixed size, and `putBlob` takes the bound its two callers
check, so a page whose content overflows cannot be built.

`replaceBlobIf` returns its result together with the file it leaves behind.
-/

namespace TableRange

/-- `pg_sys::BLCKSZ`. -/
def blcksz : Nat := 8192

/-- What `PageGetContents` points to: the page without its 24-byte header. -/
def contentsLen : Nat := blcksz - 24

def maxBlobLen : Nat := blcksz - 64

/-- The content area of an initialized page. -/
structure Contents where
  bytes : Bytes
  length_eq : bytes.length = contentsLen

/-- `new` is a page for which `PageIsNew` holds. -/
inductive Page
  | new
  | init (contents : Contents)

/-- The main fork of the index, `none` while `RelationGetNumberOfBlocks` is 0. -/
abbrev IndexFile := Option Page

def pageBlob : Page → Option Bytes
  | .new => none
  | .init contents =>
      let len := (fromLe32 (contents.bytes.take 4)).toNat
      if len = 0 ∨ len > maxBlobLen then none
      else some ((contents.bytes.drop 4).take len)

/-- `PageInit` zeroes the page. -/
def pageInit : Contents := ⟨List.replicate contentsLen 0, List.length_replicate⟩

/-- The contents the write starts from. -/
def Page.contents : Page → Contents
  | .new => pageInit
  | .init contents => contents

/-- The length and the data overwrite the start of the content area. -/
def putBlob (page : Page) (data : Bytes) (h : data.length ≤ maxBlobLen) : Page :=
  .init
    { bytes := le32 (UInt32.ofNat data.length) ++
        (data ++ page.contents.bytes.drop (4 + data.length))
      length_eq := by
        simp only [List.length_append, le32_length, List.length_drop, page.contents.length_eq]
        simp only [maxBlobLen, contentsLen, blcksz] at h ⊢
        omega }

def blobTooLong : String := "table_range: summary blob exceeds one page"

/-- For `ambuild`, which holds the index exclusively. -/
def writeBlob (file : IndexFile) (data : Bytes) : Except String Unit × IndexFile :=
  if h : data.length ≤ maxBlobLen then
    (.ok (), some (putBlob (file.getD .new) data h))
  else (.error blobTooLong, file)

/-- Writes only if the blob still equals `expected`. -/
def replaceBlobIf (file : IndexFile) (expected data : Bytes) : Except String Bool × IndexFile :=
  if h : data.length ≤ maxBlobLen then
    match file with
    | none => (.ok false, none)
    | some page =>
        if pageBlob page = some expected then (.ok true, some (putBlob page data h))
        else (.ok false, some page)
  else (.error blobTooLong, file)

def readBlob (file : IndexFile) : Option Bytes := file.bind pageBlob

/-! ## What is written is read back -/

theorem pageBlob_putBlob (page : Page) {data : Bytes} (h : data.length ≤ maxBlobLen)
    (hne : data ≠ []) : pageBlob (putBlob page data h) = some data := by
  have hpos : 0 < data.length := List.length_pos_iff.mpr hne
  have hlen : (UInt32.ofNat data.length).toNat = data.length := by
    rw [UInt32.toNat_ofNat']
    simp only [maxBlobLen, blcksz] at h
    omega
  have htake : (putBlob page data h).contents.bytes.take 4 = le32 (UInt32.ofNat data.length) :=
    List.take_left' (le32_length _)
  have hdrop : (putBlob page data h).contents.bytes.drop 4 =
      data ++ page.contents.bytes.drop (4 + data.length) :=
    List.drop_left' (le32_length _)
  change (if (fromLe32 ((putBlob page data h).contents.bytes.take 4)).toNat = 0 ∨
      (fromLe32 ((putBlob page data h).contents.bytes.take 4)).toNat > maxBlobLen then none
    else some (((putBlob page data h).contents.bytes.drop 4).take
      (fromLe32 ((putBlob page data h).contents.bytes.take 4)).toNat)) = some data
  rw [htake, hdrop, fromLe32_le32, hlen, if_neg (by omega), List.take_left]

theorem readBlob_writeBlob {file file' : IndexFile} {data : Bytes} (hne : data ≠ [])
    (h : writeBlob file data = (.ok (), file')) : readBlob file' = some data := by
  unfold writeBlob at h
  split at h
  · rename_i hle
    rw [← (Prod.mk.inj h).2]
    exact pageBlob_putBlob _ hle hne
  · cases h

/-- Everything `replace_blob_if` can do.  It swaps exactly when the blob is the
expected one and the new one fits; otherwise it leaves the file as it is. -/
theorem replaceBlobIf_cases (file : IndexFile) (expected data : Bytes) :
    (maxBlobLen < data.length ∧ replaceBlobIf file expected data = (.error blobTooLong, file)) ∨
    (data.length ≤ maxBlobLen ∧ readBlob file ≠ some expected ∧
      replaceBlobIf file expected data = (.ok false, file)) ∨
    (data.length ≤ maxBlobLen ∧ readBlob file = some expected ∧
      ∃ page', replaceBlobIf file expected data = (.ok true, some page') ∧
        (data ≠ [] → pageBlob page' = some data)) := by
  unfold replaceBlobIf
  split
  · rename_i hle
    right
    cases file with
    | none => exact Or.inl ⟨hle, by simp [readBlob], rfl⟩
    | some page =>
        by_cases hp : pageBlob page = some expected
        · refine Or.inr ⟨hle, hp, putBlob page data hle, by simp [hp], ?_⟩
          exact pageBlob_putBlob page hle
        · exact Or.inl ⟨hle, hp, by simp [hp]⟩
  · rename_i hgt
    exact Or.inl ⟨Nat.lt_of_not_le hgt, rfl⟩

/-- A swap that does not return `true` leaves the page bytes alone. -/
theorem replaceBlobIf_unchanged {file : IndexFile} {expected data : Bytes}
    (h : (replaceBlobIf file expected data).1 ≠ .ok true) :
    (replaceBlobIf file expected data).2 = file := by
  rcases replaceBlobIf_cases file expected data with ⟨_, he⟩ | ⟨_, _, he⟩ | ⟨_, _, _, he, _⟩
  · rw [he]
  · rw [he]
  · rw [he] at h
    exact absurd rfl h

end TableRange
