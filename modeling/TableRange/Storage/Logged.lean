import TableRange.Storage.Page

/-!
# The metapage in the buffer and in the log

`put_blob` of `src/index_storage.rs` with the page header and the Generic WAL record.
Generic WAL is a parameter, `GenericXLog`.  All that is assumed of it is that a page without a
hole between `pd_lower` and `pd_upper` is kept and logged as it is.  `PageInit` makes the whole
content area a hole, and `put_blob` closes it before it finishes.

`Storage/Page.lean` has the pages without their header.  `BufferPage.putBlob_page` says that
this is right, and `BufferFile.replaceBlobIf_logged` that redo restores what was written.

`zeroHole` is Generic WAL as it treats a hole: the image leaves it out, and redo zeroes it.
-/

namespace TableRange

/-- `SizeOfPageHeaderData`. -/
def pageHeaderLen : Nat := 24

/-- An initialized page.  `pd_lower` and `pd_upper` count from the start of the page. -/
structure PageData where
  contents : Contents
  pdLower : Nat
  pdUpper : Nat
  header_le : pageHeaderLen ≤ pdLower
  lower_le : pdLower ≤ pdUpper
  upper_le : pdUpper ≤ blcksz

/-- Generic WAL with full images. -/
structure GenericXLog (Image : Type) where
  /-- `GenericXLogFinish`, for a relation that needs WAL or not: what becomes of the page, and
  what is logged. -/
  finish : Bool → PageData → PageData × Option Image
  /-- Redo, whatever the page was. -/
  restore : Image → PageData

/-- A page without a hole is logged verbatim. -/
structure GenericXLog.Laws {Image : Type} (xlog : GenericXLog Image) : Prop where
  finish_page : ∀ {copy : PageData} (needsWal : Bool), copy.pdLower = copy.pdUpper →
    (xlog.finish needsWal copy).1 = copy
  finish_logged : ∀ {copy : PageData}, copy.pdLower = copy.pdUpper →
    ∃ image, (xlog.finish true copy).2 = some image ∧ xlog.restore image = copy

/-! ## `put_blob` -/

/-- The length and the data overwrite the start of the content area. -/
def PageData.write (p : PageData) (data : Bytes) (h : data.length ≤ maxBlobLen) : PageData :=
  { p with contents := (putBlob (.init p.contents) data h).contents }

/-- `pd_lower = pd_upper`. -/
def PageData.closeHole (p : PageData) : PageData :=
  { p with
    pdLower := p.pdUpper
    header_le := p.header_le.trans p.lower_le
    lower_le := Nat.le_refl _ }

inductive BufferPage
  | new
  | init (data : PageData)

namespace BufferPage

variable {Image : Type}

/-- The page without its header. -/
def page : BufferPage → Page
  | .new => .new
  | .init p => .init p.contents

/-- `PageInit`, unless the page is initialized. -/
def initialized : BufferPage → PageData
  | .new =>
      { contents := pageInit
        pdLower := pageHeaderLen
        pdUpper := blcksz
        header_le := Nat.le_refl _
        lower_le := by decide
        upper_le := Nat.le_refl _ }
  | .init p => p

def putBlob (xlog : GenericXLog Image) (needsWal : Bool) (page : BufferPage) (data : Bytes)
    (h : data.length ≤ maxBlobLen) : BufferPage × Option Image :=
  let finished := xlog.finish needsWal (page.initialized.write data h).closeHole
  (.init finished.1, finished.2)

variable {xlog : GenericXLog Image}

theorem putBlob_page (wal : xlog.Laws) (needsWal : Bool) (page : BufferPage) {data : Bytes}
    (h : data.length ≤ maxBlobLen) :
    (page.putBlob xlog needsWal data h).1.page = TableRange.putBlob page.page data h := by
  have hclosed : (page.initialized.write data h).closeHole.pdLower =
      (page.initialized.write data h).closeHole.pdUpper := rfl
  simp only [putBlob, wal.finish_page needsWal hclosed]
  cases page <;> rfl

/-- On a logged relation the page is what redo restores. -/
theorem putBlob_restore (wal : xlog.Laws) (page : BufferPage) {data : Bytes}
    (h : data.length ≤ maxBlobLen) :
    ∃ image, page.putBlob xlog true data h = (.init (xlog.restore image), some image) := by
  have hclosed : (page.initialized.write data h).closeHole.pdLower =
      (page.initialized.write data h).closeHole.pdUpper := rfl
  obtain ⟨image, hlogged, hrestore⟩ := wal.finish_logged hclosed
  refine ⟨image, ?_⟩
  simp only [putBlob, wal.finish_page true hclosed, hlogged, hrestore]

end BufferPage

/-! ## The file -/

/-- The main fork of the index, as `IndexFile`. -/
abbrev BufferFile := Option BufferPage

namespace BufferFile

variable {Image : Type}

/-- The file without the page header. -/
def file (buffer : BufferFile) : IndexFile := buffer.map BufferPage.page

/-- Redo of a full image, whatever the file was. -/
def redo (xlog : GenericXLog Image) (image : Image) : BufferFile :=
  some (.init (xlog.restore image))

def writeBlob (xlog : GenericXLog Image) (needsWal : Bool) (buffer : BufferFile) (data : Bytes) :
    Except String Unit × BufferFile × Option Image :=
  if h : data.length ≤ maxBlobLen then
    let put := (buffer.getD .new).putBlob xlog needsWal data h
    (.ok (), some put.1, put.2)
  else (.error blobTooLong, buffer, none)

def replaceBlobIf (xlog : GenericXLog Image) (needsWal : Bool) (buffer : BufferFile)
    (expected data : Bytes) : Except String Bool × BufferFile × Option Image :=
  if h : data.length ≤ maxBlobLen then
    match buffer with
    | none => (.ok false, none, none)
    | some page =>
        if pageBlob page.page = some expected then
          let put := page.putBlob xlog needsWal data h
          (.ok true, some put.1, put.2)
        else (.ok false, some page, none)
  else (.error blobTooLong, buffer, none)

variable {xlog : GenericXLog Image} {needsWal : Bool} {buffer buffer' : BufferFile}
  {image : Option Image}

theorem writeBlob_file (wal : xlog.Laws) {data : Bytes} {r : Except String Unit}
    (h : writeBlob xlog needsWal buffer data = (r, buffer', image)) :
    TableRange.writeBlob buffer.file data = (r, buffer'.file) := by
  unfold writeBlob at h
  unfold TableRange.writeBlob
  split at h
  · rename_i hle
    simp only [Prod.mk.injEq] at h
    obtain ⟨rfl, rfl, -⟩ := h
    have hnew : (buffer.getD .new).page = buffer.file.getD .new := by cases buffer <;> rfl
    rw [dif_pos hle, ← hnew, ← BufferPage.putBlob_page wal needsWal]
    rfl
  · rename_i hgt
    cases h
    rw [dif_neg hgt]

theorem replaceBlobIf_file (wal : xlog.Laws) {expected data : Bytes} {r : Except String Bool}
    (h : replaceBlobIf xlog needsWal buffer expected data = (r, buffer', image)) :
    TableRange.replaceBlobIf buffer.file expected data = (r, buffer'.file) := by
  unfold replaceBlobIf at h
  unfold TableRange.replaceBlobIf
  split at h
  · rename_i hle
    rw [dif_pos hle]
    cases buffer with
    | none =>
        cases h
        rfl
    | some page =>
        simp only [file, Option.map_some] at h ⊢
        by_cases hblob : pageBlob page.page = some expected
        · rw [if_pos hblob] at h ⊢
          simp only [Prod.mk.injEq] at h
          obtain ⟨rfl, rfl, -⟩ := h
          rw [← BufferPage.putBlob_page wal needsWal]
          rfl
        · rw [if_neg hblob] at h ⊢
          cases h
          rfl
  · rename_i hgt
    cases h
    rw [dif_neg hgt]

/-- On a logged relation a file that changes is logged. -/
theorem replaceBlobIf_logged (wal : xlog.Laws) {expected data : Bytes} {r : Except String Bool}
    (h : replaceBlobIf xlog true buffer expected data = (r, buffer', image)) :
    image = none ∧ buffer' = buffer ∨ ∃ im, image = some im ∧ buffer' = redo xlog im := by
  unfold replaceBlobIf at h
  split at h
  · rename_i hle
    cases buffer with
    | none =>
        cases h
        exact Or.inl ⟨rfl, rfl⟩
    | some page =>
        simp only at h
        by_cases hblob : pageBlob page.page = some expected
        · obtain ⟨im, hput⟩ := page.putBlob_restore wal hle
          rw [if_pos hblob, hput] at h
          cases h
          exact Or.inr ⟨im, rfl, rfl⟩
        · rw [if_neg hblob] at h
          cases h
          exact Or.inl ⟨rfl, rfl⟩
  · cases h
    exact Or.inl ⟨rfl, rfl⟩

end BufferFile

/-! ## Generic WAL that zeroes the hole -/

/-- An image in the log: the contents below and above the hole. -/
structure PageImage where
  low : Bytes
  high : Bytes
  length_le : low.length + high.length ≤ contentsLen

def PageData.image (p : PageData) : PageImage where
  low := p.contents.bytes.take (p.pdLower - pageHeaderLen)
  high := p.contents.bytes.drop (p.pdUpper - pageHeaderLen)
  length_le := by
    have hlower := p.lower_le
    have hlength := p.contents.length_eq
    simp only [List.length_take, List.length_drop]
    omega

/-- Redo, which zeroes the hole. -/
def PageImage.restore (image : PageImage) : PageData where
  contents :=
    { bytes := image.low ++ (List.replicate
        (contentsLen - (image.low.length + image.high.length)) 0 ++ image.high)
      length_eq := by
        have hlength := image.length_le
        simp only [List.length_append, List.length_replicate]
        omega }
  pdLower := pageHeaderLen + image.low.length
  pdUpper := blcksz - image.high.length
  header_le := Nat.le_add_right _ _
  lower_le := by
    have hlength := image.length_le
    simp only [contentsLen, blcksz, pageHeaderLen] at hlength ⊢
    omega
  upper_le := Nat.sub_le _ _

/-- An unlogged relation takes the copy as it is. -/
def zeroHole : GenericXLog PageImage where
  finish needsWal copy :=
    if needsWal then (copy.image.restore, some copy.image) else (copy, none)
  restore := PageImage.restore

/-- A page with no hole is restored as it was. -/
theorem PageData.restore_image {p : PageData} (h : p.pdLower = p.pdUpper) :
    p.image.restore = p := by
  obtain ⟨⟨bytes, hbytes⟩, lower, upper, hheader, hlower, hupper⟩ := p
  obtain rfl : lower = upper := h
  have hlen : bytes.length = blcksz - pageHeaderLen := hbytes
  have htake : (bytes.take (lower - pageHeaderLen)).length = lower - pageHeaderLen := by
    rw [List.length_take]
    omega
  have hdrop : (bytes.drop (lower - pageHeaderLen)).length = blcksz - lower := by
    rw [List.length_drop]
    omega
  have hhole : contentsLen - (lower - pageHeaderLen + (blcksz - lower)) = 0 := by
    rw [← hbytes]
    omega
  simp only [image, PageImage.restore, htake, hdrop, hhole, PageData.mk.injEq, Contents.mk.injEq]
  refine ⟨?_, by omega, by omega⟩
  rw [List.replicate_zero, List.nil_append, List.take_append_drop]

theorem zeroHole_laws : zeroHole.Laws where
  finish_page needsWal h := by
    cases needsWal with
    | true => exact PageData.restore_image h
    | false => rfl
  finish_logged h := ⟨_, rfl, PageData.restore_image h⟩

end TableRange
