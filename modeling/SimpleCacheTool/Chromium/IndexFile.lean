import SimpleCacheTool.Chromium.IndexHistory
import SimpleCacheTool.Chromium.WriteIndex

namespace SimpleCacheTool.Chromium

open Segments LittleEndian SimpleCacheFormat SimpleCacheIndex

/-! The bytes of a written index. -/

/-- The tool's view of an entry as it is written. -/
def record (lib : PickleLibrary) (appCache : Bool) (e : BitVec 64 × EntryMetadata) : IndexEntry where
  hash := e.1
  lastUsedInternal :=
    if appCache then e.2.lastUsedTimeOrTrailerPrefetchSize.setWidth 64 else e.2.getLastUsedTime lib
  entrySizeChunks := e.2.entrySize256bChunks.setWidth 32
  inMemoryData := e.2.inMemoryData.setWidth 32

namespace IndexWrite

/-- The tool's view of a written index. -/
def asIndex (lib : PickleLibrary) (appCache : Bool) (w : IndexWrite) (mtime : BitVec 64) :
    SimpleCacheIndex where
  reason := w.reason
  cacheSize := w.cacheSize
  cacheLastModifiedInternal := mtime
  entries := w.entrySet.map (record lib appCache)

/-- The bytes that a write puts into the file. -/
def file (lib : PickleLibrary) (appCache : Bool) (w : IndexWrite) (mtime : BitVec 64) : List Byte :=
  let p := serializeFinalData lib mtime (w.pickle lib appCache)
  lib.data p.payload p.crc

end IndexWrite

theorem record_valid (lib : PickleLibrary) (appCache : Bool) (e : BitVec 64 × EntryMetadata) :
    (record lib appCache e).Valid := by
  constructor
  · have h := e.2.entrySize256bChunks.isLt
    rw [record, BitVec.toNat_setWidth]
    omega
  · have h := e.2.inMemoryData.isLt
    rw [record, BitVec.toNat_setWidth]
    omega

theorem pack_eq (lib : PickleLibrary) (appCache : Bool) (e : BitVec 64 × EntryMetadata) :
    EntryMetadata.packEntrySizeAndInMemoryData (e.2.entrySize256bChunks.setWidth 32)
      (e.2.inMemoryData.setWidth 8) = (record lib appCache e).packedInfo := by
  have hc := e.2.entrySize256bChunks.isLt
  have hm := e.2.inMemoryData.isLt
  have hv := (record lib appCache e).packedInfo_toNat (record_valid lib appCache e)
  have h1 : (record lib appCache e).entrySizeChunks.toNat = e.2.entrySize256bChunks.toNat := by
    rw [record, BitVec.toNat_setWidth, Nat.mod_eq_of_lt (by omega)]
  have h2 : (record lib appCache e).inMemoryData.toNat = e.2.inMemoryData.toNat := by
    rw [record, BitVec.toNat_setWidth, Nat.mod_eq_of_lt (by omega)]
  have hshift : e.2.entrySize256bChunks.toNat <<< 8 % 2 ^ 64 =
      e.2.entrySize256bChunks.toNat <<< 8 := by
    rw [Nat.shiftLeft_eq, Nat.mod_eq_of_lt (by omega)]
  apply BitVec.eq_of_toNat_eq
  rw [hv, h1, h2, EntryMetadata.packEntrySizeAndInMemoryData, BitVec.toNat_or, BitVec.toNat_shiftLeft]
  simp only [BitVec.toNat_setWidth]
  rw [Nat.mod_eq_of_lt (by omega : e.2.entrySize256bChunks.toNat < 2 ^ 32),
    Nat.mod_eq_of_lt (by omega : e.2.entrySize256bChunks.toNat < 2 ^ 64), hshift,
    Nat.mod_eq_of_lt (by omega : e.2.inMemoryData.toNat < 2 ^ 8),
    Nat.mod_eq_of_lt (by omega : e.2.inMemoryData.toNat < 2 ^ 64),
    ← Nat.shiftLeft_add_eq_or_of_lt (by omega), Nat.shiftLeft_eq]
  omega

namespace Pickle

theorem writeUInt64_eq (lib : PickleLibrary) (hl : lib.Lawful) (l : List Byte) (crc : BitVec 32)
    (value : BitVec 64) (h : l.length % 4 = 0) :
    writeUInt64 lib ⟨l, crc⟩ value = ⟨l ++ bytes 8 value, crc⟩ := by
  rw [writeUInt64, hl.write _ _ h (by rw [bytes_length])]

theorem writeUInt32_eq (lib : PickleLibrary) (hl : lib.Lawful) (l : List Byte) (crc : BitVec 32)
    (value : BitVec 32) (h : l.length % 4 = 0) :
    writeUInt32 lib ⟨l, crc⟩ value = ⟨l ++ bytes 4 value, crc⟩ := by
  rw [writeUInt32, hl.write _ _ h (by rw [bytes_length])]

end Pickle

open Pickle

theorem serialize_record (lib : PickleLibrary) (hl : lib.Lawful) (appCache : Bool) (l : List Byte)
    (crc : BitVec 32) (e : BitVec 64 × EntryMetadata) (h : l.length % 4 = 0) :
    e.2.serialize lib appCache (writeUInt64 lib ⟨l, crc⟩ e.1) =
      ⟨l ++ (record lib appCache e).bytes, crc⟩ := by
  have hlen (l : List Byte) (v : BitVec 64) (hl4 : l.length % 4 = 0) :
      (l ++ bytes 8 v).length % 4 = 0 := by
    rw [List.length_append, bytes_length]
    omega
  have ht (p : Pickle) : (if appCache then
        p.writeInt64 lib (e.2.lastUsedTimeOrTrailerPrefetchSize.setWidth 64)
      else p.writeInt64 lib (e.2.getLastUsedTime lib)) =
      p.writeUInt64 lib (record lib appCache e).lastUsedInternal := by
    rw [record]
    cases appCache <;> rfl
  rw [EntryMetadata.serialize, pack_eq lib appCache e, ht, writeUInt64_eq lib hl _ _ _ h,
    writeUInt64_eq lib hl _ _ _ (hlen _ _ h), writeUInt64_eq lib hl _ _ _ (hlen _ _ (hlen _ _ h))]
  simp [IndexEntry.bytes, record, List.append_assoc]

theorem serialize_entries (lib : PickleLibrary) (hl : lib.Lawful) (appCache : Bool) (entries : EntrySet)
    (l : List Byte) (crc : BitVec 32) (h : l.length % 4 = 0) :
    entries.foldl (fun p e => e.2.serialize lib appCache (p.writeUInt64 lib e.1)) ⟨l, crc⟩ =
      ⟨l ++ ((entries.map (record lib appCache)).map IndexEntry.bytes).flatten, crc⟩ := by
  induction entries generalizing l with
  | nil => simp
  | cons e entries ih =>
    rw [List.foldl_cons, serialize_record lib hl appCache l crc e h, ih]
    · simp [List.append_assoc]
    · rw [List.length_append, IndexEntry.bytes_length]
      omega

theorem serialize_metadata (lib : PickleLibrary) (hl : lib.Lawful) (appCache : Bool) (w : IndexWrite)
    (mtime : BitVec 64) :
    (IndexMetadata.new w.reason (BitVec.ofNat 64 w.entrySet.length) w.cacheSize).serialize lib {} =
      ⟨(w.asIndex lib appCache mtime).headFields.flatten, 0#32⟩ := by
  have hm (k : Nat) (l : List Byte) (hk : l.length = 4 * k) : l.length % 4 = 0 := by omega
  have hcount : (w.asIndex lib appCache mtime).entries.length = w.entrySet.length := List.length_map _
  rw [IndexMetadata.serialize, writeUInt64_eq lib hl [] 0#32 _ rfl,
    writeUInt32_eq lib hl (_ ++ _) _ _ (hm 2 _ (by simp)),
    writeUInt64_eq lib hl (_ ++ _) _ _ (hm 3 _ (by simp)),
    writeUInt64_eq lib hl (_ ++ _) _ _ (hm 5 _ (by simp)),
    writeUInt32_eq lib hl (_ ++ _) _ _ (hm 7 _ (by simp)), headFields, hcount]
  simp only [List.flatten_cons, List.flatten_nil, List.append_nil, List.nil_append, List.append_assoc]
  rfl

/-- The browser writes the bytes the tool would write of the same index. -/
theorem file_eq (lib : PickleLibrary) (hl : lib.Lawful) (appCache : Bool) (w : IndexWrite)
    (mtime : BitVec 64) : w.file lib appCache mtime =
      (w.asIndex lib appCache mtime).pickleHeader ++ (w.asIndex lib appCache mtime).payload := by
  have hhead := (w.asIndex lib appCache mtime).headFields_length
  have hpickle : w.pickle lib appCache = ⟨(w.asIndex lib appCache mtime).headFields.flatten ++
      ((w.asIndex lib appCache mtime).entries.map IndexEntry.bytes).flatten, 0#32⟩ := by
    rw [IndexWrite.pickle, serialize, serialize_metadata lib hl appCache w mtime,
      serialize_entries lib hl appCache _ _ _ (by rw [hhead])]
    rfl
  have hlen : ((w.asIndex lib appCache mtime).headFields.flatten ++
      ((w.asIndex lib appCache mtime).entries.map IndexEntry.bytes).flatten).length % 4 = 0 := by
    rw [List.length_append, hhead, blocks_length IndexEntry.bytes 24 IndexEntry.bytes_length]
    omega
  have hpayload : (w.pickle lib appCache).writeInt64 lib mtime =
      ⟨(w.asIndex lib appCache mtime).payload, 0#32⟩ := by
    rw [writeInt64, hpickle, writeUInt64_eq lib hl _ _ _ hlen, SimpleCacheIndex.payload,
      List.append_assoc]
    rfl
  rw [IndexWrite.file, serializeFinalData, hpayload, hl.data]
  rfl

theorem file_length (lib : PickleLibrary) (hl : lib.Lawful) (appCache : Bool) (w : IndexWrite)
    (mtime : BitVec 64) : (w.file lib appCache mtime).length = 48 + 24 * w.entrySet.length := by
  rw [file_eq lib hl, List.length_append, payload_length, pickleHeader, List.length_append,
    bytes_length, bytes_length, IndexWrite.asIndex, List.length_map]
  omega

/-! Reading it again. -/

/-- Times after the Unix epoch are the seconds they were made of. -/
def BaseLibrary.Timely (base : BaseLibrary) : Prop := ∀ seconds : BitVec 32,
  base.inSeconds (BitVec.ofNat 64 ((11644473600 + seconds.toNat) * 1000000)) = seconds.toNat

theorem saturatedCast_seconds (seconds : BitVec 32) :
    EntryMetadata.saturatedCast (seconds.toNat : Int) = seconds := by
  have h := seconds.isLt
  have hm : max 0 (min (seconds.toNat : Int) (2 ^ 32 - 1)) = (seconds.toNat : Int) := by omega
  apply BitVec.eq_of_toNat_eq
  rw [EntryMetadata.saturatedCast, hm, BitVec.toNat_ofInt]
  omega

/-- Seconds, prefetch sizes and the null time all survive being written. -/
theorem setTimeOrPrefetchSize_record (base : BaseLibrary) (ht : base.Timely) (lib : PickleLibrary)
    (hl : lib.Lawful) (appCache : Bool) (e : BitVec 64 × EntryMetadata) :
    (EntryMetadata.setTimeOrPrefetchSize base appCache true {}
      (record lib appCache e).lastUsedInternal).lastUsedTimeOrTrailerPrefetchSize =
      e.2.lastUsedTimeOrTrailerPrefetchSize := by
  have hlt := e.2.lastUsedTimeOrTrailerPrefetchSize.isLt
  rw [record, EntryMetadata.setTimeOrPrefetchSize]
  cases appCache with
  | true =>
    simp only [if_true, EntryMetadata.setTrailerPrefetchSize]
    split_ifs with h
    · apply BitVec.eq_of_toNat_eq
      rw [BitVec.toNat_setWidth, BitVec.toNat_setWidth]
      omega
    · rw [not_and_or, not_not] at h
      have hz : e.2.lastUsedTimeOrTrailerPrefetchSize.setWidth 64 = 0#64 := by
        refine h.resolve_left (not_not.mpr ?_)
        rw [BitVec.toNat_setWidth]
        omega
      apply BitVec.eq_of_toNat_eq
      have hn := congrArg BitVec.toNat hz
      rw [BitVec.toNat_setWidth] at hn
      change 0 = _
      change _ = 0 at hn
      omega
  | false =>
    simp only [Bool.false_eq_true, if_false, EntryMetadata.setLastUsedTime,
      EntryMetadata.getLastUsedTime]
    by_cases h0 : e.2.lastUsedTimeOrTrailerPrefetchSize = 0#32
    · rw [if_pos h0, if_pos rfl, h0]
    · have hne : BitVec.ofNat 64 ((11644473600 + e.2.lastUsedTimeOrTrailerPrefetchSize.toNat) * 1000000) ≠
          0#64 := by
        rw [ne_eq, ← BitVec.toNat_inj, BitVec.toNat_ofNat, Nat.mod_eq_of_lt (by omega),
          BitVec.toNat_zero, Nat.mul_eq_zero]
        omega
      rw [if_neg h0, hl.time, if_neg hne, ht, saturatedCast_seconds, if_neg h0]

theorem metadata_ext (m m' : EntryMetadata)
    (h1 : m.lastUsedTimeOrTrailerPrefetchSize = m'.lastUsedTimeOrTrailerPrefetchSize)
    (h2 : m.entrySize256bChunks.toNat = m'.entrySize256bChunks.toNat)
    (h3 : m.inMemoryData.toNat = m'.inMemoryData.toNat) : m = m' := by
  cases m
  cases m'
  simp only [EntryMetadata.mk.injEq]
  exact ⟨h1, BitVec.eq_of_toNat_eq h2, BitVec.eq_of_toNat_eq h3⟩

/-- The browser loads what it wrote of an entry. -/
theorem loaded_record (base : BaseLibrary) (ht : base.Timely) (lib : PickleLibrary) (hl : lib.Lawful)
    (appCache : Bool) (e : BitVec 64 × EntryMetadata) :
    loaded base appCache true (record lib appCache e) = e.2 := by
  obtain ⟨hchunks, hmem⟩ := loaded_packed base appCache true _ (record_valid lib appCache e)
  have htime := setTimeOrPrefetchSize_record base ht lib hl appCache e
  have hc := e.2.entrySize256bChunks.isLt
  have hm := e.2.inMemoryData.isLt
  have h1 : (record lib appCache e).entrySizeChunks.toNat = e.2.entrySize256bChunks.toNat := by
    rw [record, BitVec.toNat_setWidth, Nat.mod_eq_of_lt (by omega)]
  have h2 : (record lib appCache e).inMemoryData.toNat = e.2.inMemoryData.toNat := by
    rw [record, BitVec.toNat_setWidth, Nat.mod_eq_of_lt (by omega)]
  exact metadata_ext _ _ htime (hchunks.trans h1) (hmem.trans h2)

/-- The largest index that a load does not find too large. -/
def maxLoadedEntries : Nat := 999998

/-- The browser reads back the index it wrote, to the last bit, unless its file is larger than it is
ready to read; then the file is deleted. -/
theorem syncLoad_file (base : BaseLibrary) (hb : base.Lawful) (ht : base.Timely) (lib : PickleLibrary)
    (hl : lib.Lawful) (appCache : Bool) (w : IndexWrite) (mtime : BitVec 64)
    (hr : w.reason < indexWriteReasonMax) (hnd : w.entrySet.keys.Nodup) :
    syncLoadFromDisk base appCache (some (w.file lib appCache mtime)) true =
      if w.entrySet.length ≤ maxLoadedEntries then
        ({ didLoad := true
           entries := w.entrySet
           indexWriteReason := w.reason
           cacheLastModified := some mtime }, some (w.file lib appCache mtime))
      else ({}, none) := by
  have hlen := file_length lib hl appCache w mtime
  have hmax : kMaxIndexFileSizeBytes = 24000000 := rfl
  have hload : maxLoadedEntries = 999998 := rfl
  have hk : kMaxEntriesInIndex = 1000000 := rfl
  rw [syncLoadFromDisk]
  by_cases hn : w.entrySet.length ≤ maxLoadedEntries
  · have hcount : (w.asIndex lib appCache mtime).entries.length = w.entrySet.length :=
      List.length_map _
    have hsize : 48 + 24 * (w.asIndex lib appCache mtime).entries.length < 2 ^ 31 := by omega
    have hhash : (w.asIndex lib appCache mtime).entries.map IndexEntry.hash = w.entrySet.keys := by
      rw [IndexWrite.asIndex, List.map_map]
      rfl
    have hd := deserialize_image base hb appCache (w.asIndex lib appCache mtime) hsize (by omega) hr
      (by
        intro e he
        obtain ⟨x, -, rfl⟩ := List.mem_map.mp he
        exact record_valid lib appCache x) (hhash ▸ hnd)
    have hfile : ((w.asIndex lib appCache mtime).image hsize).list = w.file lib appCache mtime :=
      (file_eq lib hl appCache w mtime).symm
    have hentries : (w.asIndex lib appCache mtime).entries.map
        (fun e => (e.hash, loaded base appCache true e)) = w.entrySet := by
      rw [IndexWrite.asIndex, List.map_map]
      conv_rhs => rw [← List.map_id w.entrySet]
      apply List.map_congr_left
      intro e _
      exact Prod.ext rfl (loaded_record base ht lib hl appCache e)
    rw [hfile, hentries] at hd
    rw [if_neg (by omega), if_neg Bool.false_ne_true.symm, if_pos hn, hd]
    rfl
  · rw [if_pos (by omega), if_neg hn]

/-- A base library that behaves as the browser's does where an index is written. -/
def alignedPickles : PickleLibrary where
  writeBytes payload field :=
    payload ++ field ++ List.replicate ((field.length + 3) / 4 * 4 - field.length) 0#8
  data payload crc := bytes 4 (BitVec.ofNat 32 payload.length) ++ bytes 4 crc ++ payload
  unixEpochPlusSeconds seconds := BitVec.ofNat 64 ((11644473600 + seconds.toNat) * 1000000)

theorem alignedPickles_lawful : alignedPickles.Lawful where
  write := by
    intro payload field _ h4
    have hn : (field.length + 3) / 4 * 4 - field.length = 0 := by omega
    simp only [alignedPickles, hn, List.replicate_zero, List.append_nil]
  data _ _ := rfl
  time _ := rfl

theorem alignedBase_timely : SimpleCacheLibrary.alignedBase.Timely := by
  intro seconds
  have h := seconds.isLt
  have hn : (BitVec.ofNat 64 ((11644473600 + seconds.toNat) * 1000000)).toNat =
      (11644473600 + seconds.toNat) * 1000000 := by
    rw [BitVec.toNat_ofNat, Nat.mod_eq_of_lt (by omega)]
  have hi : (BitVec.ofNat 64 ((11644473600 + seconds.toNat) * 1000000)).toInt - 11644473600000000 =
      (seconds.toNat : Int) * 1000000 := by
    rw [BitVec.toInt_eq_toNat_of_lt (by rw [hn]; omega), hn]
    push_cast
    ring
  change ((BitVec.ofNat 64 ((11644473600 + seconds.toNat) * 1000000)).toInt -
    11644473600000000).tdiv 1000000 = _
  rw [hi, Int.mul_tdiv_cancel _ (by decide)]

/-- Entries of one and of three chunks. -/
def smallWrite : IndexWrite where
  reason := 1#32
  entrySet := SimpleIndex.fileEntries
  cacheSize := 1024#64

theorem syncLoad_file_small :
    syncLoadFromDisk SimpleCacheLibrary.alignedBase false
        (some (smallWrite.file alignedPickles false 9#64)) true =
      if smallWrite.entrySet.length ≤ maxLoadedEntries then
        ({ didLoad := true
           entries := smallWrite.entrySet
           indexWriteReason := smallWrite.reason
           cacheLastModified := some 9#64 }, some (smallWrite.file alignedPickles false 9#64))
      else ({}, none) :=
  syncLoad_file SimpleCacheLibrary.alignedBase SimpleCacheLibrary.alignedBase_lawful alignedBase_timely
    alignedPickles alignedPickles_lawful false smallWrite 9#64 (by decide) (by decide)

end SimpleCacheTool.Chromium
