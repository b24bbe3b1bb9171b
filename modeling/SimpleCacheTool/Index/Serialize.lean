import SimpleCacheTool.Index.Parse

namespace SimpleCacheTool

open Fallible Segments LittleEndian SimpleCacheFormat

namespace IndexEntry

/-- The entries whose size and in-memory bits fit the packed word. -/
structure Valid (e : IndexEntry) : Prop where
  chunks : e.entrySizeChunks.toNat < 2 ^ 30
  memory : e.inMemoryData.toNat < 4

private theorem signExtend_toNat (v : BitVec 32) (h : v.toNat < 2 ^ 31) :
    (v.signExtend 64).toNat = v.toNat := by
  have hm : v.msb = false := by
    rw [BitVec.msb_eq_decide, decide_eq_false_iff_not]
    omega
  rw [BitVec.signExtend_eq_setWidth_of_msb_false hm, BitVec.toNat_setWidth,
    Nat.mod_eq_of_lt (by omega)]

theorem getEntrySize_toNat (e : IndexEntry) (h : e.entrySizeChunks.toNat < 2 ^ 30) :
    e.getEntrySize.toNat = 256 * e.entrySizeChunks.toNat := by
  rw [getEntrySize, BitVec.toNat_shiftLeft, signExtend_toNat _ (by omega), Nat.shiftLeft_eq,
    Nat.mod_eq_of_lt (by omega)]
  ring

/-- Thirty bits of size above the two low bits. -/
theorem packedInfo_toNat (e : IndexEntry) (h : e.Valid) :
    e.packedInfo.toNat = 256 * e.entrySizeChunks.toNat + e.inMemoryData.toNat := by
  have hm := h.memory
  have hlow : (e.inMemoryData.signExtend 64 &&& 3#64).toNat = e.inMemoryData.toNat := by
    rw [BitVec.toNat_and, signExtend_toNat _ (by omega)]
    change e.inMemoryData.toNat &&& 2 ^ 2 - 1 = _
    rw [Nat.and_two_pow_sub_one_eq_mod, Nat.mod_eq_of_lt (by omega)]
  have hsize := e.getEntrySize_toNat h.chunks
  have hshift : 256 * e.entrySizeChunks.toNat = e.entrySizeChunks.toNat <<< 8 := by
    rw [Nat.shiftLeft_eq]
    ring
  rw [packedInfo, ← getEntrySize, BitVec.toNat_or, hlow, hsize, hshift,
    ← Nat.shiftLeft_add_eq_or_of_lt (by omega)]

/-- The record's 24 bytes. -/
def bytes (e : IndexEntry) : List Byte :=
  [LittleEndian.bytes 8 e.hash, LittleEndian.bytes 8 e.lastUsedInternal,
    LittleEndian.bytes 8 e.packedInfo].flatten

@[simp] theorem bytes_length (e : IndexEntry) : e.bytes.length = 24 := by simp [bytes]

end IndexEntry

namespace SimpleCacheIndex

theorem packedAt_of_seg (l : List Byte) (off : Nat) (e : IndexEntry) (h : seg l off 24 = e.bytes) :
    packedAt l off = e.packedInfo :=
  wordAt_of_tile 64 l (off + 16) e.packedInfo rfl
    (by simpa using seg_piece l off 24 [bytes 8 e.hash, bytes 8 e.lastUsedInternal] _ [] h)

/-- Reading back a written record. -/
theorem recordAt_of_seg (l : List Byte) (off : Nat) (e : IndexEntry) (hv : e.Valid)
    (h : seg l off 24 = e.bytes) : recordAt l off = e := by
  have hh : wordAt 64 l off = e.hash := wordAt_of_tile 64 l off e.hash rfl
    (seg_piece l off 24 [] _ [bytes 8 e.lastUsedInternal, bytes 8 e.packedInfo] h)
  have hl : wordAt 64 l (off + 8) = e.lastUsedInternal :=
    wordAt_of_tile 64 l (off + 8) e.lastUsedInternal rfl
      (by simpa using seg_piece l off 24 [bytes 8 e.hash] _ [bytes 8 e.packedInfo] h)
  have hp := packedAt_of_seg l off e h
  have hn := e.packedInfo_toNat hv
  have hc := hv.chunks
  have hm := hv.memory
  refine IndexEntry.ext hh hl ?_ ?_
  · apply BitVec.eq_of_toNat_eq
    rw [recordAt, hp, BitVec.toNat_setWidth, BitVec.toNat_ushiftRight, hn, Nat.shiftRight_eq_div_pow]
    omega
  · apply BitVec.eq_of_toNat_eq
    rw [recordAt, hp, BitVec.toNat_setWidth, BitVec.toNat_and, hn]
    change (256 * _ + _ &&& 2 ^ 2 - 1) % _ = _
    rw [Nat.and_two_pow_sub_one_eq_mod]
    omega

/-- What the parser reads from any record is valid. -/
theorem recordAt_valid (l : List Byte) (off : Nat) (h : (packedAt l off).toNat < 2 ^ 38) :
    (recordAt l off).Valid := by
  constructor
  · rw [recordAt, BitVec.toNat_setWidth, BitVec.toNat_ushiftRight, Nat.shiftRight_eq_div_pow]
    omega
  · rw [recordAt, BitVec.toNat_setWidth, BitVec.toNat_and]
    change (_ &&& 2 ^ 2 - 1) % _ < 4
    rw [Nat.and_two_pow_sub_one_eq_mod]
    omega

/-! The bytes `serialize` writes. -/

def headFields (x : SimpleCacheIndex) : List (List Byte) :=
  [bytes 8 indexMagic, bytes 4 indexFileVersion, bytes 8 (BitVec.ofNat 64 x.entries.length),
    bytes 8 x.cacheSize, bytes 4 x.reason]

def payload (x : SimpleCacheIndex) : List Byte :=
  x.headFields.flatten ++ ((x.entries.map IndexEntry.bytes).flatten ++
    bytes 8 x.cacheLastModifiedInternal)

theorem headFields_length (x : SimpleCacheIndex) : x.headFields.flatten.length = 32 := by
  simp [headFields]

theorem payload_length (x : SimpleCacheIndex) : x.payload.length = 40 + 24 * x.entries.length := by
  rw [payload, List.length_append, List.length_append, headFields_length,
    blocks_length IndexEntry.bytes 24 IndexEntry.bytes_length, bytes_length]
  omega

/-- The pickle's header: payload size and checksum. -/
def pickleHeader (x : SimpleCacheIndex) : List Byte :=
  bytes 4 (BitVec.ofNat 32 x.payload.length) ++ bytes 4 (crc32Of x.payload)

/-- The index file of an index that fits one array. -/
def image (x : SimpleCacheIndex) (h : 48 + 24 * x.entries.length < 2 ^ 31) : Bytes :=
  ⟨x.pickleHeader ++ x.payload, by
    rw [List.length_append, payload_length, pickleHeader, List.length_append, bytes_length,
      bytes_length]
    omega⟩

theorem writeEntries_eq (es : List IndexEntry) (out : List Byte) (h : out.length % 4 = 0) :
    writeEntries es ⟨out⟩ = .ok ⟨out ++ (es.map IndexEntry.bytes).flatten⟩ := by
  induction es generalizing out with
  | nil => simp [writeEntries]
  | cons e es ih =>
    have hl (pre : List Byte) (v : BitVec 64) (hp : pre.length % 4 = 0) :
        (pre ++ bytes 8 v).length % 4 = 0 := by
      rw [List.length_append, bytes_length]
      omega
    have h1 := hl out e.hash h
    have h2 := hl _ e.lastUsedInternal h1
    have h3 := hl _ e.packedInfo h2
    rw [writeEntries, PickleWriter.writeU64_eq _ _ h, ok_bind, PickleWriter.writeI64,
      PickleWriter.writeU64_eq _ _ h1, ok_bind, PickleWriter.writeU64_eq _ _ h2, ok_bind, ih _ h3]
    simp [IndexEntry.bytes, List.append_assoc]

/-- The payload behind its header, in an array of its own. -/
theorem frame_payload (x : SimpleCacheIndex) (h : 48 + 24 * x.entries.length < 2 ^ 31) :
    (PickleWriter.toByteArray ⟨x.payload⟩ >>= fun payload =>
      newBytes (i32 (indexHeaderSize + payload.length)) >>= fun out =>
      putU32 out 0 (BitVec.ofNat 32 payload.length) >>= fun out =>
      putU32 out 4 (crc32 payload) >>= fun out =>
      arraycopy payload 0 out indexHeaderSize payload.length) = .ok (x.image h) := by
  have hlen := x.payload_length
  have hp : x.payload.length < 2 ^ 31 := by omega
  have hl : (⟨x.payload, hp⟩ : Bytes).length = x.payload.length := rfl
  have hsize : i32 ((indexHeaderSize : Int) + (x.payload.length : Nat)) =
      ((8 + x.payload.length : Nat) : Int) :=
    i32_nat _ _ (by rw [indexHeaderSize]; omega) (by omega)
  have hb : (⟨List.replicate (8 + x.payload.length) 0, by rw [List.length_replicate]; omega⟩ :
      Bytes).list = [] ++ List.replicate (4 + (4 + x.payload.length)) 0 := by
    rw [← Nat.add_assoc]
    rfl
  obtain ⟨b0, w0, l0⟩ := putU32_next _ [] _ 0 (BitVec.ofNat 32 x.payload.length) hb rfl
  obtain ⟨b1, w1, l1⟩ := putU32_next b0 _ _ 4 (crc32Of x.payload) l0 (by simp)
  have l1' : b1.list = x.pickleHeader ++ List.replicate x.payload.length 0 := l1
  have hh : x.pickleHeader.length = 8 := by simp [pickleHeader]
  have hn : b1.length = 8 + x.payload.length := by
    rw [Bytes.length, l1', List.length_append, hh, List.length_replicate]
  obtain ⟨b2, w2, l2⟩ := arraycopy_in ⟨x.payload, hp⟩ b1 0 8 x.payload.length (by omega) (by omega)
  have ho := overwrite_append x.pickleHeader (List.replicate x.payload.length 0) x.payload
  rw [hh, List.drop_replicate, Nat.sub_self, List.replicate_zero, List.append_nil] at ho
  rw [PickleWriter.toByteArray, dif_pos hp, ok_bind]
  simp only [hl]
  rw [hsize, newBytes_of_nat _ (by omega), ok_bind, w0, ok_bind]
  change (putU32 b0 4 (crc32Of x.payload) >>= _) = _
  rw [w1, ok_bind]
  refine Eq.trans w2 (congrArg Except.ok (Bytes.ext ?_))
  rw [l2, seg_full, l1', ho]
  rfl

theorem serialize_eq (x : SimpleCacheIndex) (h : 48 + 24 * x.entries.length < 2 ^ 31) :
    x.serialize = .ok (x.image h) := by
  have hlen := x.payload_length
  have w1 := PickleWriter.writeU64_eq {} indexMagic rfl
  have hhead : ((([] : List Byte) ++ bytes 8 indexMagic) ++ bytes 4 indexFileVersion ++
      bytes 8 (BitVec.ofNat 64 x.entries.length) ++ bytes 8 x.cacheSize ++ bytes 4 x.reason) =
      x.headFields.flatten := by simp [headFields]
  have hm (k : Nat) (l : List Byte) (hl : l.length = 4 * k) : l.length % 4 = 0 := by omega
  rw [serialize, w1, ok_bind, PickleWriter.writeU32_eq _ _ (hm 2 _ (by simp)), ok_bind,
    PickleWriter.writeU64_eq _ _ (hm 3 _ (by simp)), ok_bind,
    PickleWriter.writeU64_eq _ _ (hm 5 _ (by simp)), ok_bind,
    PickleWriter.writeU32_eq _ _ (hm 7 _ (by simp)), ok_bind, hhead,
    writeEntries_eq _ _ (hm 8 _ x.headFields_length), ok_bind, PickleWriter.writeI64,
    PickleWriter.writeU64_eq _ _ (hm (8 + 6 * x.entries.length) _ (by
      rw [List.length_append, headFields_length,
        blocks_length IndexEntry.bytes 24 IndexEntry.bytes_length]
      omega)), ok_bind, List.append_assoc]
  exact x.frame_payload h

theorem image_crc (x : SimpleCacheIndex) (h : 48 + 24 * x.entries.length < 2 ^ 31) :
    wordAt 32 (x.image h).list 4 = crc32Of x.payload := by
  apply wordAt_of_tile 32 _ 4 _ rfl
  have hl : (x.image h).list = bytes 4 (BitVec.ofNat 32 x.payload.length) ++
      (bytes 4 (crc32Of x.payload) ++ x.payload) := List.append_assoc _ _ _
  have ha := seg_append_right (bytes 4 (BitVec.ofNat 32 x.payload.length))
    (bytes 4 (crc32Of x.payload) ++ x.payload) 0 4
  rw [bytes_length, seg_prefix _ _ 4 (bytes_length 4 _)] at ha
  rw [hl]
  exact ha

/-- What the parser checks first holds of every image. -/
theorem image_header (x : SimpleCacheIndex) (h : 48 + 24 * x.entries.length < 2 ^ 31) :
    (x.image h).length = 48 + 24 * x.entries.length ∧ PayloadOk (x.image h) ∧
    warningsOf (x.image h) true = [] := by
  have hlen : (x.image h).length = 48 + 24 * x.entries.length := by
    rw [Bytes.length, image, List.length_append, payload_length, pickleHeader, List.length_append,
      bytes_length, bytes_length]
    omega
  have hp := x.payload_length
  have hl : (x.image h).list = bytes 4 (BitVec.ofNat 32 x.payload.length) ++
      (bytes 4 (crc32Of x.payload) ++ x.payload) := List.append_assoc _ _ _
  have hs : wordAt 32 (x.image h).list 0 = BitVec.ofNat 32 x.payload.length := by
    refine wordAt_of_tile 32 _ 0 _ rfl ?_
    rw [hl]
    exact seg_prefix _ _ 4 (bytes_length 4 _)
  have hc := x.image_crc h
  have hpay : seg (x.image h).list 8 x.payload.length = x.payload := by
    have ha := seg_append_right x.pickleHeader x.payload 0 x.payload.length
    rw [seg_full] at ha
    exact ha
  refine ⟨hlen, ⟨by omega, ?_⟩, ?_⟩
  · rw [hs, BitVec.toNat_ofNat, hlen, hp, Nat.mod_eq_of_lt (by omega)]
    omega
  · rw [warningsOf, if_pos rfl, hlen, show 48 + 24 * x.entries.length - 8 = x.payload.length by omega,
      hpay, hc, if_neg (not_not.mpr rfl)]

/-- Where the payload's fields and records lie in the file. -/
theorem image_fields (x : SimpleCacheIndex) (h : 48 + 24 * x.entries.length < 2 ^ 31) :
    wordAt 64 (x.image h).list 8 = indexMagic ∧ wordAt 32 (x.image h).list 16 = indexFileVersion ∧
    wordAt 64 (x.image h).list 20 = BitVec.ofNat 64 x.entries.length ∧
    wordAt 64 (x.image h).list 28 = x.cacheSize ∧ wordAt 32 (x.image h).list 36 = x.reason := by
  have hh : x.pickleHeader.length = 8 := by simp [pickleHeader]
  have hs : seg (x.image h).list 8 32 = x.headFields.flatten := by
    have ha := seg_append_right x.pickleHeader x.payload 0 32
    rw [hh, payload, seg_prefix _ _ 32 x.headFields_length] at ha
    exact ha
  refine ⟨wordAt_of_tile 64 _ 8 _ rfl ?_, wordAt_of_tile 32 _ 16 _ rfl ?_,
    wordAt_of_tile 64 _ 20 _ rfl ?_, wordAt_of_tile 64 _ 28 _ rfl ?_, wordAt_of_tile 32 _ 36 _ rfl ?_⟩
  · simpa [headFields] using seg_piece _ 8 32 [] _ (x.headFields.drop 1) hs
  · simpa [headFields] using seg_piece _ 8 32 (x.headFields.take 1) _ (x.headFields.drop 2) hs
  · simpa [headFields] using seg_piece _ 8 32 (x.headFields.take 2) _ (x.headFields.drop 3) hs
  · simpa [headFields] using seg_piece _ 8 32 (x.headFields.take 3) _ (x.headFields.drop 4) hs
  · simpa [headFields] using seg_piece _ 8 32 (x.headFields.take 4) _ (x.headFields.drop 5) hs

theorem image_record (x : SimpleCacheIndex) (h : 48 + 24 * x.entries.length < 2 ^ 31) (i : Nat)
    (hi : i < x.entries.length) : seg (x.image h).list (40 + 24 * i) 24 = x.entries[i].bytes := by
  have hh : (x.pickleHeader ++ x.headFields.flatten).length = 40 := by
    rw [List.length_append, headFields_length]
    simp [pickleHeader]
  have hb := seg_block IndexEntry.bytes 24 IndexEntry.bytes_length
    (x.pickleHeader ++ x.headFields.flatten) (bytes 8 x.cacheLastModifiedInternal) x.entries i hi
  rw [hh, List.append_assoc] at hb
  exact hb

theorem image_last (x : SimpleCacheIndex) (h : 48 + 24 * x.entries.length < 2 ^ 31) :
    wordAt 64 (x.image h).list (40 + 24 * x.entries.length) = x.cacheLastModifiedInternal := by
  have hh : (x.pickleHeader ++ (x.headFields.flatten ++
      (x.entries.map IndexEntry.bytes).flatten)).length = 40 + 24 * x.entries.length := by
    rw [List.length_append, List.length_append, headFields_length,
      blocks_length IndexEntry.bytes 24 IndexEntry.bytes_length]
    simp [pickleHeader]
    omega
  have ha := seg_append_right (x.pickleHeader ++ (x.headFields.flatten ++
    (x.entries.map IndexEntry.bytes).flatten)) (bytes 8 x.cacheLastModifiedInternal) 0 8
  rw [hh, Nat.add_zero, ← List.append_nil (bytes 8 _), seg_prefix _ _ 8 (bytes_length 8 _),
    List.append_nil] at ha
  refine wordAt_of_tile 64 _ _ _ rfl ?_
  have hl : (x.image h).list = x.pickleHeader ++ (x.headFields.flatten ++
      (x.entries.map IndexEntry.bytes).flatten) ++ bytes 8 x.cacheLastModifiedInternal := by
    simp [image, payload, List.append_assoc]
  rw [hl]
  exact ha

/-- The index as it comes back: the written version, no complaints. -/
def reread (x : SimpleCacheIndex) : SimpleCacheIndex :=
  { x with
    magic := indexMagic
    version := indexFileVersion
    warnings := [] }

theorem parse_image (x : SimpleCacheIndex) (h : 48 + 24 * x.entries.length < 2 ^ 31)
    (hv : ∀ e ∈ x.entries, e.Valid) : parse (x.image h) true = .ok x.reread := by
  obtain ⟨hlen, hp, hw⟩ := x.image_header h
  obtain ⟨hm, hver, hn, hsize, hreason⟩ := x.image_fields h
  have hc : countOf (x.image h) = x.entries.length := by
    rw [countOf, hn, BitVec.toInt_eq_toNat_cond, BitVec.toNat_ofNat]
    split_ifs <;> omega
  have hrec (i : Nat) (hi : i < x.entries.length) :
      recordAt (x.image h).list (40 + 24 * i) = x.entries[i] :=
    recordAt_of_seg _ _ _ (hv _ (List.getElem_mem hi)) (x.image_record h i hi)
  have hlist : recordsAt (x.image h).list 40 x.entries.length = x.entries := by
    apply List.ext_getElem
    · simp [recordsAt]
    · intro i h1 h2
      simp [recordsAt, hrec i h2]
  have hr : Readable (x.image h) := by
    refine ⟨hp, hm, .inr hver, by omega, ?_⟩
    intro i hi
    rw [hc] at hi
    have he := hv _ (List.getElem_mem hi)
    have h1 := he.chunks
    have h2 := he.memory
    rw [packedAt_of_seg _ _ _ (x.image_record h i hi), IndexEntry.packedInfo_toNat _ he]
    omega
  rw [parse_readable _ true hr, hw, readout, hc, hm, hver, hsize, hreason, hlist, x.image_last h]
  rfl

/-- Decoding an encoded index gives the index back, at the written version. -/
theorem indexParse_serialize (x : SimpleCacheIndex) (h : 48 + 24 * x.entries.length < 2 ^ 31)
    (hv : ∀ e ∈ x.entries, e.entrySizeChunks.toNat < 2 ^ 30 ∧ e.inMemoryData.toNat < 4) :
    ∃ out y, x.serialize = .ok out ∧ parse out true = .ok y ∧ y.warnings = [] ∧
      y.version = indexFileVersion ∧ y.cacheSize = x.cacheSize ∧ y.reason = x.reason ∧
      y.cacheLastModifiedInternal = x.cacheLastModifiedInternal ∧ y.entries = x.entries :=
  ⟨x.image h, x.reread, x.serialize_eq h,
    x.parse_image h fun e he => ⟨(hv e he).1, (hv e he).2⟩, rfl, rfl, rfl, rfl, rfl, rfl⟩

/-- An entry at the upper ends of both packed fields, and one inside them. -/
def smallIndex : SimpleCacheIndex where
  reason := reasonShutdown
  entries := [{ hash := 7#64, entrySizeChunks := 0x3fffffff#32, inMemoryData := 3#32 },
    { hash := 5#64, lastUsedInternal := 9#64, entrySizeChunks := 4#32,
      inMemoryData := 1#32 }]

theorem indexParse_serialize_small : ∃ out y, smallIndex.serialize = .ok out ∧
    parse out true = .ok y ∧ y.warnings = [] ∧ y.version = indexFileVersion ∧
    y.cacheSize = smallIndex.cacheSize ∧ y.reason = smallIndex.reason ∧
    y.cacheLastModifiedInternal = smallIndex.cacheLastModifiedInternal ∧
    y.entries = smallIndex.entries :=
  indexParse_serialize smallIndex (by decide) (by decide)

end SimpleCacheIndex

end SimpleCacheTool
