import SimpleCacheTool.Chromium.OpenEntry

namespace SimpleCacheTool.Chromium

open Fallible Segments LittleEndian SimpleCacheFormat

/-- Stream 1 read from an offset on in pieces of the given sizes, each read handed the checksum of what
came before it. -/
def readPieces (file : List Byte) (o : OpenEntry) : Nat → BitVec 32 → List Nat →
    Except NetError (List (List Byte))
  | _, _, [] => .ok []
  | offset, previousCrc32, n :: ns => do
    let out ← readData file o offset n previousCrc32
    let rest ← readPieces file o (offset + out.length) (incrementalCrc32 previousCrc32 out) ns
    .ok (out :: rest)

/-- A checksum goes on from where the last one stopped. -/
theorem incrementalCrc32_append (a b : List Byte) :
    incrementalCrc32 (crc32Of a) b = crc32Of (a ++ b) := by
  rw [incrementalCrc32, crc32Of, crc32Of, BitVec.xor_assoc, BitVec.xor_self, BitVec.xor_zero,
    List.foldl_append]

/-- An entry opened on the file, its header checked. -/
structure OpenOn (f : EntryFile) (o : OpenEntry) : Prop where
  key : o.key = f.key.list
  stat : o.entryStat = statOf f
  checked : o.headerAndKeyCheckNeeded = false
  eof1_size : f.eof1.streamSize.toNat < 2 ^ 31

/-- Stream 1's recorded checksum is not that of its data. -/
def Damaged (f : EntryFile) : Prop := f.eof1.hasCrc32 ∧ f.eof1.crc32 ≠ crc32Of f.stream1.list

instance (f : EntryFile) : Decidable (Damaged f) := inferInstanceAs (Decidable (_ ∧ _))

section Read

variable (f : EntryFile) (o : OpenEntry) (h : OpenOn f o)

include h

theorem checkEOFRecord_stream1 : checkEOFRecord f.toBytes.list o 1 (crc32Of f.stream1.list) =
    if Damaged f then .error .cacheChecksumMismatch else .ok () := by
  have hlen := f.toBytes_length
  have hl : f.toBytes.length = f.toBytes.list.length := rfl
  have heof := getEOFRecordData_in f.toBytes.list {} _ _ f.eof1 (offsets_statOf f).2.2 (of_empty _)
    (by omega) f.seg_eof1 f.eof1_magic h.eof1_size
  rw [checkEOFRecord, h.key, h.stat]
  change (getEOFRecordData _ _ ((statOf f).getEOFOffsetInFile f.key.length 1) >>= _) = _
  rw [heof, ok_bind]
  rfl

theorem getOffset_stream1 (offset : Nat) (ho : offset ≤ f.stream1.length) :
    o.entryStat.getOffsetInFile o.key.length offset 1 = ((24 + f.key.length + offset : Nat) : Int) := by
  have hk : int64 ((24 : Nat) + (f.key.length : Int)) = ((24 + f.key.length : Nat) : Int) :=
    int64_nat _ _ (by omega) (by have := f.key.length_lt'; omega)
  have hf := f.fits
  rw [h.key, h.stat, SimpleEntryStat.getOffsetInFile, if_neg Nat.one_ne_zero, sizeofSimpleFileHeader]
  change int64 (int64 ((24 : Nat) + (f.key.length : Int)) + offset + 0) = _
  rw [hk]
  exact int64_nat _ _ (by omega) (by omega)

/-- One read inside stream 1: the record is checked when the read reaches the end. -/
theorem readData_piece (offset n : Nat) (hn : offset + n ≤ f.stream1.length) :
    readData f.toBytes.list o offset n (crc32Of (f.stream1.list.take offset)) =
      if Damaged f ∧ 0 < n ∧ offset + n = f.stream1.length then .error .cacheChecksumMismatch
      else .ok (seg f.stream1.list offset n) := by
  have hlen : (seg f.stream1.list offset n).length = n := seg_length _ _ _ hn
  have hread : read f.toBytes.list (24 + f.key.length + offset) n = seg f.stream1.list offset n := by
    rw [read, ← f.seg_stream1, seg_seg _ _ _ _ _ hn]
  have hsize : o.entryStat.dataSize 1 = (f.stream1.length : Int) := by
    rw [h.stat]
    rfl
  have hcrc : incrementalCrc32 (crc32Of (f.stream1.list.take offset)) (seg f.stream1.list offset n) =
      crc32Of (f.stream1.list.take (offset + n)) := by
    rw [incrementalCrc32_append, seg, ← List.take_add]
  rw [readData, h.checked]
  simp only [Bool.false_eq_true, if_false, getOffset_stream1 f o h offset (by omega), Int.toNat_natCast,
    hread, hlen, hsize, hcrc, Nat.cast_inj]
  by_cases hc : 0 < n ∧ offset + n = f.stream1.length
  · have hall : f.stream1.list.take (offset + n) = f.stream1.list := by
      rw [hc.2, Bytes.length, List.take_length]
    have hd : (Damaged f ∧ 0 < n ∧ offset + n = f.stream1.length) ↔ Damaged f :=
      and_iff_left hc
    rw [if_pos hc, hall, checkEOFRecord_stream1 f o h]
    simp only [hd]
    by_cases hbad : Damaged f
    · rw [if_pos hbad, if_pos hbad]
      rfl
    · rw [if_neg hbad, if_neg hbad]
      rfl
  · have hc' : ¬(Damaged f ∧ 0 < n ∧ offset + n = f.stream1.length) := fun hd => hc hd.2
    rw [if_neg hc, if_neg hc']

/-- However stream 1 is cut, its pieces come out until the read that reaches its end, and that one fails
exactly when the data is not what the record was made for. -/
theorem readPieces_from (ns : List Nat) (offset : Nat) (hsum : offset + ns.sum = f.stream1.length) :
    readPieces f.toBytes.list o offset (crc32Of (f.stream1.list.take offset)) ns =
      if Damaged f ∧ offset < f.stream1.length then .error .cacheChecksumMismatch
      else .ok (tiles f.stream1.list offset ns) := by
  induction ns generalizing offset with
  | nil =>
    have hend : ¬(Damaged f ∧ offset < f.stream1.length) := by
      rw [List.sum_nil] at hsum
      omega
    rw [if_neg hend]
    rfl
  | cons n ns ih =>
    rw [List.sum_cons] at hsum
    have hlen : (seg f.stream1.list offset n).length = n :=
      seg_length _ _ _ (by rw [← Bytes.length]; omega)
    have hnext := ih (offset + n) (by omega)
    have hcrc : incrementalCrc32 (crc32Of (f.stream1.list.take offset)) (seg f.stream1.list offset n) =
        crc32Of (f.stream1.list.take (offset + n)) := by
      rw [incrementalCrc32_append, seg, ← List.take_add]
    rw [readPieces, readData_piece f o h offset n (by omega)]
    by_cases hd : Damaged f ∧ 0 < n ∧ offset + n = f.stream1.length
    · have hbad : Damaged f ∧ offset < f.stream1.length := ⟨hd.1, by omega⟩
      rw [if_pos hd, if_pos hbad, error_bind]
    · have hiff : (Damaged f ∧ offset + n < f.stream1.length) ↔
          (Damaged f ∧ offset < f.stream1.length) := by
        refine and_congr_right fun hbad => ?_
        have hn : ¬(0 < n ∧ offset + n = f.stream1.length) := fun hn => hd ⟨hbad, hn⟩
        omega
      rw [if_neg hd, ok_bind, hlen, hcrc, hnext, tiles]
      simp only [hiff]
      split_ifs <;> rfl

end Read

/-- Reading stream 1 to its end in pieces of any sizes returns its data, cut so, or else reports the
damage; and which of the two does not depend on how it is cut. -/
theorem readPieces_stream1 (f : EntryFile) (o : OpenEntry) (h : OpenOn f o) (ns : List Nat)
    (hsum : ns.sum = f.stream1.length) :
    readPieces f.toBytes.list o 0 0#32 ns =
      if Damaged f ∧ 0 < f.stream1.length then .error .cacheChecksumMismatch
      else .ok (tiles f.stream1.list 0 ns) := by
  have hr := readPieces_from f o h ns 0 (by rw [Nat.zero_add, hsum])
  rwa [List.take_zero] at hr

/-- The small file, open. -/
def smallOpen : OpenEntry where
  key := SimpleCacheEntry.smallFile.key.list
  entryStat := statOf SimpleCacheEntry.smallFile
  stream0 := ⟨[], 0#32⟩
  stream1 := none
  headerAndKeyCheckNeeded := false

theorem readPieces_stream1_small :
    readPieces SimpleCacheEntry.smallFile.toBytes.list smallOpen 0 0#32 [3, 5] =
      .ok [[0xd8#8, 0x41#8, 0x0d#8], [0x97#8, 0x45#8, 0x6f#8, 0xfa#8, 0xf4#8]] := by
  have hgood : ¬(Damaged SimpleCacheEntry.smallFile ∧ 0 < SimpleCacheEntry.smallFile.stream1.length) :=
    fun h => h.1.2 rfl
  rw [readPieces_stream1 SimpleCacheEntry.smallFile smallOpen ⟨rfl, rfl, rfl, by decide⟩ [3, 5]
    (by decide), if_neg hgood]
  rfl

end SimpleCacheTool.Chromium
