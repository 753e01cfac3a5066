import TableRange.Storage.Fitting

/-!
# What the reader of the page accepts

`deserialize` is more liberal than `serialize`: any nonzero byte is a set `overlap`
or a present bound, the five unused flag bits are ignored, and so is whatever follows
the last column.  That is all the freedom there is.  `layout` says of each byte that
`serialize` writes what the reader looks at in it, and `deserialize_accepts` that the
texts it reads are those that agree with a layout, perhaps with something after it.

So a summary that has been read from a page fits the page, whoever wrote it.
-/

namespace TableRange

open Lib.Codec

/-- What the reader looks at in a byte. -/
inductive ByteKind
  /-- All of it. -/
  | exact
  /-- Whether it is zero. -/
  | boolean
  /-- The three bits that are flags. -/
  | flags
deriving DecidableEq, Repr

/-- The reader takes the byte for the one that `serialize` writes. -/
def ReadAs (b : UInt8) : ByteKind × UInt8 → Prop
  | (.exact, written) => b = written
  | (.boolean, written) => b = 0 ↔ written = 0
  | (.flags, written) => b &&& 7 = written

/-- Numbers, lengths and texts. -/
def exactly (bytes : Bytes) : List (ByteKind × UInt8) := bytes.map (Prod.mk .exact)

def layoutOptStr : Option String → List (ByteKind × UInt8)
  | some s => (.boolean, 1) :: exactly (putStr s)
  | none => [(.boolean, 0)]

def layoutCol (c : ColSummary) : List (ByteKind × UInt8) :=
  exactly (le16 c.attnum.toUInt16) ++ ((.boolean, if c.overlap then 1 else 0) ::
    (.flags, c.flags) :: (exactly (le32 c.collation) ++ (exactly (putStr c.typeName) ++
      (layoutOptStr c.min ++ layoutOptStr c.max))))

/-- The bytes of a summary, with what the reader looks at in each. -/
def layout (summary : IndexSummary) : List (ByteKind × UInt8) :=
  exactly (summaryVersion :: le16 (UInt16.ofNat summary.cols.length)) ++
    summary.cols.flatMap layoutCol

@[simp] theorem map_snd_exactly (bytes : Bytes) : (exactly bytes).map Prod.snd = bytes := by
  simp [exactly]

theorem map_snd_layoutOptStr (s : Option String) :
    (layoutOptStr s).map Prod.snd = putOptStr s := by
  cases s <;> simp [layoutOptStr, putOptStr]

theorem map_snd_layoutCol (c : ColSummary) : (layoutCol c).map Prod.snd = putCol c := by
  simp [layoutCol, putCol, map_snd_layoutOptStr]

/-- A layout is one of the bytes that `serialize` writes. -/
theorem map_snd_layout (s : IndexSummary) : (layout s).map Prod.snd = serialize s := by
  simp [layout, serialize, List.map_flatMap, map_snd_layoutCol]

theorem readAs_exactly {used bytes : Bytes} :
    List.Forall₂ ReadAs used (exactly bytes) ↔ used = bytes := by
  rw [exactly, List.forall₂_map_right_iff]
  exact iff_of_eq (congrFun (congrFun List.forall₂_eq_eq_eq used) bytes)

theorem readAs_append {used : Bytes} {ks ls : List (ByteKind × UInt8)} :
    List.Forall₂ ReadAs used (ks ++ ls) ↔ ∃ xs ys, List.Forall₂ ReadAs xs ks ∧
      List.Forall₂ ReadAs ys ls ∧ used = xs ++ ys := by
  constructor
  · intro h
    exact ⟨_, _, List.forall₂_take_append used ks ls h, List.forall₂_drop_append used ks ls h,
      (List.take_append_drop ks.length used).symm⟩
  · rintro ⟨xs, ys, hxs, hys, rfl⟩
    exact List.rel_append hxs hys

theorem readAs_cons {used : Bytes} {k : ByteKind × UInt8} {ks : List (ByteKind × UInt8)} :
    List.Forall₂ ReadAs used (k :: ks) ↔ ∃ b ys, ReadAs b k ∧ List.Forall₂ ReadAs ys ks ∧
      used = b :: ys :=
  List.forall₂_cons_right_iff

theorem readAs_flatMap {used : Bytes} {cols : List ColSummary} :
    List.Forall₂ ReadAs used (cols.flatMap layoutCol) ↔ ∃ parts,
      List.Forall₂ (fun c part => List.Forall₂ ReadAs part (layoutCol c)) cols parts ∧
        used = parts.flatten := by
  induction cols generalizing used with
  | nil =>
      constructor
      · intro h
        cases h
        exact ⟨[], .nil, rfl⟩
      · rintro ⟨_, hparts, rfl⟩
        cases hparts
        exact .nil
  | cons c cols ih =>
      rw [List.flatMap_cons, readAs_append]
      constructor
      · rintro ⟨part, ys, hpart, hys, rfl⟩
        obtain ⟨parts, hparts, rfl⟩ := ih.mp hys
        exact ⟨part :: parts, .cons hpart hparts, rfl⟩
      · rintro ⟨_, hparts, rfl⟩
        cases hparts with
        | cons hpart hparts => exact ⟨_, _, hpart, ih.mpr ⟨_, hparts, rfl⟩, rfl⟩

namespace Reader

/-! ## The fields -/

theorem parses_u8 : Parses rest u8 fun b bytes => bytes = [b] where
  codes := by
    rintro b _ rfl
    exact codes_u8 b
  consumes := by
    intro r b r' hread
    unfold u8 at hread
    split at hread
    · rename_i hlt
      obtain ⟨rfl, rfl⟩ := Prod.mk.inj (Option.some.inj hread)
      exact ⟨[r.buf[r.pos]], List.drop_eq_getElem_cons hlt, rfl⟩
    · cases hread

theorem parses_slice (len : ℕ) :
    Parses rest (slice len) fun bytes used => bytes.length = len ∧ used = bytes where
  codes := by
    rintro bytes _ ⟨rfl, rfl⟩
    exact codes_slice _
  consumes := by
    intro r bytes r' hread
    unfold slice at hread
    split at hread
    · rename_i hle
      obtain ⟨rfl, rfl⟩ := Prod.mk.inj (Option.some.inj hread)
      refine ⟨(r.buf.drop r.pos).take len, ?_, ?_, rfl⟩
      · rw [rest, rest, ← List.drop_drop, List.take_append_drop]
      · rw [List.length_take, List.length_drop]
        omega
    · cases hread

theorem le16_fromLe16 {bytes : Bytes} (h : bytes.length = 2) : le16 (fromLe16 bytes) = bytes := by
  match bytes, h with
  | [b₀, b₁], _ =>
      have h₀ := b₀.toNat_lt
      have h₁ := b₁.toNat_lt
      simp only [le16, fromLe16, UInt16.toNat_ofNat', List.cons.injEq, and_true]
      refine ⟨UInt8.toNat_inj.mp ?_, UInt8.toNat_inj.mp ?_⟩ <;> rw [UInt8.toNat_ofNat'] <;> omega

theorem le32_fromLe32 {bytes : Bytes} (h : bytes.length = 4) : le32 (fromLe32 bytes) = bytes := by
  match bytes, h with
  | [b₀, b₁, b₂, b₃], _ =>
      have h₀ := b₀.toNat_lt
      have h₁ := b₁.toNat_lt
      have h₂ := b₂.toNat_lt
      have h₃ := b₃.toNat_lt
      simp only [le32, fromLe32, UInt32.toNat_ofNat', List.cons.injEq, and_true]
      refine ⟨UInt8.toNat_inj.mp ?_, UInt8.toNat_inj.mp ?_, UInt8.toNat_inj.mp ?_,
        UInt8.toNat_inj.mp ?_⟩ <;> rw [UInt8.toNat_ofNat'] <;> omega

theorem parses_u16 : Parses rest u16 fun n bytes => bytes = le16 n := by
  refine ((parses_slice 2).bind fun bytes => Parses.pure (fromLe16 bytes)).congr fun n used =>
    ⟨?_, ?_⟩
  · rintro ⟨bytes, _, _, ⟨hlen, rfl⟩, ⟨rfl, rfl⟩, rfl⟩
    rw [le16_fromLe16 hlen, List.append_nil]
  · rintro rfl
    exact ⟨le16 n, _, _, ⟨rfl, rfl⟩, ⟨(fromLe16_le16 n).symm, rfl⟩, (List.append_nil _).symm⟩

theorem parses_u32 : Parses rest u32 fun n bytes => bytes = le32 n := by
  refine ((parses_slice 4).bind fun bytes => Parses.pure (fromLe32 bytes)).congr fun n used =>
    ⟨?_, ?_⟩
  · rintro ⟨bytes, _, _, ⟨hlen, rfl⟩, ⟨rfl, rfl⟩, rfl⟩
    rw [le32_fromLe32 hlen, List.append_nil]
  · rintro rfl
    exact ⟨le32 n, _, _, ⟨rfl, rfl⟩, ⟨(fromLe32_le32 n).symm, rfl⟩, (List.append_nil _).symm⟩

theorem parses_i16 : Parses rest i16 fun n bytes => bytes = le16 n.toUInt16 := by
  refine (parses_u16.bind fun v => Parses.pure v.toInt16).congr fun n used => ⟨?_, ?_⟩
  · rintro ⟨v, _, _, rfl, ⟨rfl, rfl⟩, rfl⟩
    rw [List.append_nil]
    rfl
  · rintro rfl
    exact ⟨n.toUInt16, _, _, rfl, ⟨rfl, rfl⟩, (List.append_nil _).symm⟩

theorem utf8Bytes_of_fromUtf8 {bytes : Bytes} {s : String} (h : fromUtf8 bytes = some s) :
    utf8Bytes s = bytes := by
  unfold fromUtf8 String.fromUTF8? at h
  split at h
  · rw [← Option.some.inj h]
    simp [utf8Bytes, String.fromUTF8]
  · cases h

theorem str_eq : str = u16 >>= fun len => slice len.toNat >>= fun bytes =>
    (fromUtf8 bytes).elim failure pure := by
  unfold str
  refine bind_congr fun len => bind_congr fun bytes => ?_
  cases fromUtf8 bytes <;> rfl

theorem parses_str :
    Parses rest str fun s bytes => bytes = putStr s ∧ (utf8Bytes s).length < 65536 := by
  have hutf8 (bytes : Bytes) : Parses rest
      ((fromUtf8 bytes).elim failure (pure : String → StateT Reader Option String))
      fun s used => fromUtf8 bytes = some s ∧ used = [] := by
    cases hs : fromUtf8 bytes with
    | none => exact Parses.failure.congr fun s used => ⟨fun h => h.elim, fun h => by cases h.1⟩
    | some t =>
        refine (Parses.pure t).congr fun s used => and_congr_left fun _ => ?_
        rw [Option.some.injEq, eq_comm]
  rw [str_eq]
  refine (parses_u16.bind fun len => (parses_slice len.toNat).bind hutf8).congr fun s used =>
    ⟨?_, ?_⟩
  · rintro ⟨len, _, _, rfl, ⟨_, bytes, _, ⟨hlen, rfl⟩, ⟨hs, rfl⟩, rfl⟩, rfl⟩
    have hbytes : utf8Bytes s = bytes := utf8Bytes_of_fromUtf8 hs
    have hlt := len.toNat_lt
    refine ⟨?_, by rw [hbytes, hlen]; exact hlt⟩
    rw [putStr, hbytes, hlen, UInt16.ofNat_toNat, List.append_nil]
  · rintro ⟨rfl, hlt⟩
    refine ⟨_, _, _, rfl, ⟨utf8Bytes s, _, _, ⟨?_, rfl⟩, ⟨fromUtf8_utf8Bytes s, rfl⟩,
      (List.append_nil _).symm⟩, rfl⟩
    rw [UInt16.toNat_ofNat', Nat.mod_eq_of_lt hlt]

theorem parses_optStr : Parses rest optStr fun s bytes =>
    List.Forall₂ ReadAs bytes (layoutOptStr s) ∧ ∀ t ∈ s, (utf8Bytes t).length < 65536 := by
  have hpresent (tag : UInt8) : Parses rest
      (if tag = 0 then pure none else do
        let s ← str
        pure (some s)) fun s bytes => if tag = 0 then s = none ∧ bytes = [] else
          ∃ t, s = some t ∧ bytes = putStr t ∧ (utf8Bytes t).length < 65536 := by
    by_cases htag : tag = 0
    · simp only [if_pos htag]
      exact Parses.pure none
    · simp only [if_neg htag]
      refine (parses_str.bind fun t => Parses.pure (some t)).congr fun s bytes => ⟨?_, ?_⟩
      · rintro ⟨t, _, _, ⟨rfl, hlen⟩, ⟨rfl, rfl⟩, rfl⟩
        exact ⟨t, rfl, List.append_nil _, hlen⟩
      · rintro ⟨t, rfl, rfl, hlen⟩
        exact ⟨t, _, _, ⟨rfl, hlen⟩, ⟨rfl, rfl⟩, (List.append_nil _).symm⟩
  refine (parses_u8.bind hpresent).congr fun s bytes => ⟨?_, ?_⟩
  · rintro ⟨tag, _, rest, rfl, hs, rfl⟩
    by_cases htag : tag = 0
    · rw [if_pos htag] at hs
      obtain ⟨rfl, rfl⟩ := hs
      exact ⟨.cons (iff_of_true htag rfl) .nil, by simp⟩
    · rw [if_neg htag] at hs
      obtain ⟨t, rfl, rfl, hlen⟩ := hs
      refine ⟨.cons (iff_of_false htag (by decide)) (readAs_exactly.mpr rfl), ?_⟩
      rintro _ ⟨⟩
      exact hlen
  · rintro ⟨h, hlen⟩
    cases s with
    | none =>
        obtain ⟨tag, ys, htag, hys, rfl⟩ := readAs_cons.mp h
        have htag : tag = 0 := htag.mpr rfl
        cases hys
        exact ⟨tag, _, _, rfl, by rw [if_pos htag]; exact ⟨rfl, rfl⟩, rfl⟩
    | some t =>
        obtain ⟨tag, ys, htag, hys, rfl⟩ := readAs_cons.mp h
        have htag : ¬tag = 0 := fun hzero => absurd (htag.mp hzero) (by decide)
        obtain rfl := readAs_exactly.mp hys
        exact ⟨tag, _, _, rfl, by rw [if_neg htag]; exact ⟨t, rfl, rfl, hlen t rfl⟩, rfl⟩

/-! ## Whole summaries -/

/-- The three bits are the flags. -/
theorem flags_iff (c : ColSummary) (b : UInt8) : b &&& 7 = c.flags ↔
    (b &&& flagHasNulls != 0) = c.hasNulls ∧ (b &&& flagAllNulls != 0) = c.allNulls ∧
      (b &&& flagUnbounded != 0) = c.unbounded := by
  unfold ColSummary.flags
  obtain ⟨⟨n⟩⟩ := b
  cases c.hasNulls <;> cases c.allNulls <;> cases c.unbounded <;> revert n <;> decide +kernel

theorem overlap_iff (overlap : Bool) (b : UInt8) :
    ReadAs b (.boolean, if overlap then 1 else 0) ↔ (b != 0) = overlap := by
  cases overlap <;> simp [ReadAs]

theorem parses_col : Parses rest col fun c bytes =>
    List.Forall₂ ReadAs bytes (layoutCol c) ∧ c.Encodable := by
  refine (parses_i16.bind fun _ => parses_u8.bind fun _ => parses_u8.bind fun _ =>
    parses_u32.bind fun _ => parses_str.bind fun _ => parses_optStr.bind fun _ =>
    parses_optStr.bind fun _ => Parses.pure _).congr fun c bytes => ⟨?_, ?_⟩
  · rintro ⟨attnum, _, _, rfl, ⟨overlap, _, _, rfl, ⟨flags, _, _, rfl, ⟨collation, _, _, rfl,
      ⟨typeName, _, _, ⟨rfl, htypeName⟩, ⟨min, _, _, ⟨hmin, hminLen⟩, ⟨max, _, _, ⟨hmax, hmaxLen⟩,
      ⟨rfl, rfl⟩, rfl⟩, rfl⟩, rfl⟩, rfl⟩, rfl⟩, rfl⟩, rfl⟩
    refine ⟨?_, htypeName, hminLen, hmaxLen⟩
    have hbounds := List.rel_append hmin hmax
    simp only [List.append_nil, List.cons_append, List.nil_append]
    exact List.rel_append (readAs_exactly.mpr rfl) (.cons ((overlap_iff _ _).mpr rfl)
      (.cons ((flags_iff _ flags).mpr ⟨rfl, rfl, rfl⟩) (List.rel_append (readAs_exactly.mpr rfl)
        (List.rel_append (readAs_exactly.mpr rfl) hbounds))))
  · rintro ⟨h, htypeName, hminLen, hmaxLen⟩
    obtain ⟨_, _, hattnum, hrest, rfl⟩ := readAs_append.mp h
    obtain ⟨overlap, _, hoverlap, hrest₁, rfl⟩ := readAs_cons.mp hrest
    obtain ⟨flags, _, hflags, hrest₂, rfl⟩ := readAs_cons.mp hrest₁
    obtain ⟨_, _, hcollation, hrest₃, rfl⟩ := readAs_append.mp hrest₂
    obtain ⟨_, _, hname, hrest₄, rfl⟩ := readAs_append.mp hrest₃
    obtain ⟨min, max, hmin, hmax, rfl⟩ := readAs_append.mp hrest₄
    obtain ⟨hnulls, hall, hunb⟩ := (flags_iff c flags).mp hflags
    refine ⟨c.attnum, _, _, readAs_exactly.mp hattnum, ⟨overlap, _, _, rfl, ⟨flags, _, _, rfl,
      ⟨c.collation, _, _, readAs_exactly.mp hcollation, ⟨c.typeName, _, _,
      ⟨readAs_exactly.mp hname, htypeName⟩, ⟨c.min, min, _, ⟨hmin, hminLen⟩, ⟨c.max, max, [],
      ⟨hmax, hmaxLen⟩, ⟨?_, rfl⟩, (List.append_nil _).symm⟩, rfl⟩, rfl⟩, rfl⟩, rfl⟩, rfl⟩, rfl⟩
    rw [hnulls, hall, hunb, (overlap_iff _ _).mp hoverlap]

theorem parses_summary : Parses rest summary fun s bytes =>
    List.Forall₂ ReadAs bytes (layout s) ∧ s.Encodable := by
  have hcols (version : UInt8) : Parses rest (if version ≠ summaryVersion then failure else do
      let ncols ← u16
      let cols ← times ncols.toNat col
      pure (⟨cols⟩ : IndexSummary)) fun s bytes => version = summaryVersion ∧
        List.Forall₂ ReadAs bytes (exactly (le16 (UInt16.ofNat s.cols.length)) ++
          s.cols.flatMap layoutCol) ∧ s.Encodable := by
    by_cases hv : version = summaryVersion
    · rw [if_neg (not_not.mpr hv)]
      refine (parses_u16.bind fun ncols => (parses_col.times ncols.toNat).bind fun cols =>
        Parses.pure (⟨cols⟩ : IndexSummary)).congr fun s bytes => ⟨?_, ?_⟩
      · rintro ⟨ncols, _, _, rfl, ⟨cols, _, _, ⟨hlen, parts, hparts, rfl⟩, ⟨rfl, rfl⟩, rfl⟩, rfl⟩
        refine ⟨hv, ?_, ⟨hlen ▸ ncols.toNat_lt, fun c hc => ?_⟩⟩
        · rw [hlen, UInt16.ofNat_toNat, List.append_nil]
          exact List.rel_append (readAs_exactly.mpr rfl)
            (readAs_flatMap.mpr ⟨parts, hparts.imp fun _ _ h => h.1, rfl⟩)
        · obtain ⟨_, -, hcol⟩ := Lib.Aligned.forall₂_mem_left hparts c hc
          exact hcol.2
      · rintro ⟨-, h, hs⟩
        obtain ⟨_, _, hncols, hcols, rfl⟩ := readAs_append.mp h
        obtain rfl := readAs_exactly.mp hncols
        obtain ⟨parts, hparts, rfl⟩ := readAs_flatMap.mp hcols
        have hlen : (UInt16.ofNat s.cols.length).toNat = s.cols.length := by
          rw [UInt16.toNat_ofNat', Nat.mod_eq_of_lt hs.ncols]
        have hcols' := Lib.Aligned.forall₂_imp_mem hparts
          (Q := fun c part => List.Forall₂ ReadAs part (layoutCol c) ∧ c.Encodable)
          fun c _ hc _ hpart => ⟨hpart, hs.cols c hc⟩
        exact ⟨_, _, _, rfl, ⟨s.cols, _, _, ⟨hlen.symm, parts, hcols', rfl⟩, ⟨rfl, rfl⟩,
          (List.append_nil _).symm⟩, rfl⟩
    · rw [if_pos hv]
      exact Parses.failure.congr fun s used => ⟨fun h => h.elim, fun h => hv h.1⟩
  refine (parses_u8.bind hcols).congr fun s bytes => ⟨?_, ?_⟩
  · rintro ⟨version, _, _, rfl, ⟨rfl, h, hs⟩, rfl⟩
    exact ⟨.cons rfl h, hs⟩
  · rintro ⟨h, hs⟩
    obtain ⟨version, _, hversion, hrest, rfl⟩ := readAs_cons.mp h
    exact ⟨version, _, _, rfl, ⟨hversion, hrest, hs⟩, rfl⟩

end Reader

theorem deserialize_eq_some_iff {buf : Bytes} {s : IndexSummary} : deserialize buf = some s ↔
    s.Encodable ∧ ∃ used tail, buf = used ++ tail ∧ List.Forall₂ ReadAs used (layout s) := by
  constructor
  · intro h
    obtain ⟨⟨s', r'⟩, hread, rfl⟩ := Option.map_eq_some_iff.mp h
    obtain ⟨used, hrest, hused, hs⟩ := Reader.parses_summary.consumes hread
    exact ⟨hs, used, r'.rest, hrest, hused⟩
  · rintro ⟨hs, used, tail, rfl, hused⟩
    obtain ⟨r, hr, -⟩ := (Reader.parses_summary.codes ⟨hused, hs⟩).reads
      ⟨used ++ tail, 0, Nat.zero_le _⟩ tail rfl
    rw [deserialize, hr]
    rfl

/-- What decodes is what agrees with a layout, perhaps with something after it.  The part that
agrees alone decides: no strict prefix of it decodes. -/
theorem deserialize_accepts (s : IndexSummary) :
    (layout s).map Prod.snd = serialize s ∧
      (∀ buf, deserialize buf = some s ↔
        s.Encodable ∧ ∃ used tail, buf = used ++ tail ∧ List.Forall₂ ReadAs used (layout s)) ∧
      ∀ used, s.Encodable → List.Forall₂ ReadAs used (layout s) →
        ∀ p, p <+: used → p ≠ used → deserialize p = none := by
  refine ⟨map_snd_layout s, fun buf => deserialize_eq_some_iff, fun used hs hused p hp hne => ?_⟩
  have hcodes := Reader.parses_summary.codes ⟨hused, hs⟩
  rw [deserialize, hcodes.starves ⟨p, 0, Nat.zero_le _⟩ hp hne]
  rfl

/-- The summary of one column without values. -/
def lenientSummary : IndexSummary :=
  ⟨[{ attnum := 1, overlap := true, typeName := "", collation := 0, min := none, max := some ""
      hasNulls := true, allNulls := false, unbounded := false }]⟩

/-- Its encoding with the booleans written as 9, 249 and 7, and a byte behind it. -/
def lenientBytes : Bytes := [2, 1, 0, 1, 0, 9, 249, 0, 0, 0, 0, 0, 0, 0, 7, 0, 0, 42]

theorem deserialize_lenientBytes : deserialize lenientBytes = some lenientSummary := by
  decide +kernel

theorem deserialize_accepts_lenient : ∃ used tail, lenientBytes = used ++ tail ∧
    List.Forall₂ ReadAs used (layout lenientSummary) ∧
    ∀ p, p <+: used → p ≠ used → deserialize p = none := by
  obtain ⟨-, haccepts, hprefix⟩ := deserialize_accepts lenientSummary
  obtain ⟨hs, used, tail, hbuf, hused⟩ := (haccepts lenientBytes).mp deserialize_lenientBytes
  exact ⟨used, tail, hbuf, hused, hprefix used hs hused⟩

/-! ## Summaries on a page -/

/-- A summary that was read from a page fits the page as it is: `encode_fitting` drops
nothing from it, and writing it back, here or elsewhere, gives a page with the same
summary. -/
theorem readSummary_fits {file : IndexFile} {s : IndexSummary} (h : readSummary file = some s) :
    (serialize s).length ≤ maxBlobLen ∧ encodeFitting s = (s, serialize s) ∧
      ∀ file₀, ∃ file', writeSummary file₀ s = (.ok (), file') ∧ readSummary file' = some s := by
  obtain ⟨blob, hblob, hdecode⟩ := Option.bind_eq_some_iff.mp h
  have hlen : blob.length ≤ maxBlobLen := by
    obtain ⟨page, -, hpage⟩ := Option.bind_eq_some_iff.mp hblob
    cases page with
    | new => cases hpage
    | init contents =>
        simp only [pageBlob] at hpage
        split at hpage
        · cases hpage
        · rename_i hbounds
          rw [← Option.some.inj hpage, List.length_take]
          omega
  obtain ⟨-, used, tail, rfl, hused⟩ := deserialize_eq_some_iff.mp hdecode
  have hfits : (serialize s).length ≤ maxBlobLen := by
    rw [← map_snd_layout, List.length_map, ← hused.length_eq]
    rw [List.length_append] at hlen
    omega
  refine ⟨hfits, encodeFitting_of_fits hfits, fun file₀ => ?_⟩
  have hwrite : writeSummary file₀ s =
      (.ok (), some (putBlob (file₀.getD .new) (serialize s) hfits)) := by
    rw [writeSummary, encodeFitting_of_fits hfits, writeBlob, dif_pos hfits]
  exact ⟨_, hwrite, by rw [readSummary_writeSummary hwrite, encodeFitting_of_fits hfits]⟩

/-- A page that somebody else has written. -/
theorem readSummary_fits_lenient : ∃ page : Page, readSummary (some page) = some lenientSummary ∧
    encodeFitting lenientSummary = (lenientSummary, serialize lenientSummary) := by
  have hlen : lenientBytes.length ≤ maxBlobLen := by decide
  have hblob : readBlob (some (putBlob .new lenientBytes hlen)) = some lenientBytes :=
    pageBlob_putBlob .new hlen (List.cons_ne_nil _ _)
  have hread : readSummary (some (putBlob .new lenientBytes hlen)) = some lenientSummary := by
    rw [readSummary, hblob, Option.bind_some, deserialize_lenientBytes]
  exact ⟨_, hread, (readSummary_fits hread).2.1⟩

end TableRange
