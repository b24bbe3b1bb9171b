import SimpleCacheTool.Chromium.SimpleIndexFile
import SimpleCacheTool.Library.UpdateIndex

namespace SimpleCacheTool.Chromium

open Segments LittleEndian SimpleCacheFormat

namespace PickleIterator

theorem readUInt64_at (base : BaseLibrary) (hb : base.Lawful) (payload : List Byte) (i : Nat)
    (h4 : i % 4 = 0) (hl : i + 8 ≤ payload.length) :
    readUInt64 base ⟨payload, i⟩ = some (wordAt 64 payload i, ⟨payload, i + 8⟩) := by
  have hr := hb.read payload i 8 h4 hl
  simp only [readUInt64, hr]
  rfl

theorem readUInt32_at (base : BaseLibrary) (hb : base.Lawful) (payload : List Byte) (i : Nat)
    (h4 : i % 4 = 0) (hl : i + 4 ≤ payload.length) :
    readUInt32 base ⟨payload, i⟩ = some (wordAt 32 payload i, ⟨payload, i + 4⟩) := by
  have hr := hb.read payload i 4 h4 hl
  simp only [readUInt32, hr]
  rfl

end PickleIterator

open PickleIterator SimpleCacheIndex

theorem deserialize_metadata (base : BaseLibrary) (hb : base.Lawful) (payload : List Byte)
    (hl : 32 ≤ payload.length) :
    IndexMetadata.deserialize base { payload } =
      some (⟨wordAt 64 payload 0, wordAt 32 payload 8, wordAt 32 payload 28, wordAt 64 payload 12,
        wordAt 64 payload 20⟩, ⟨payload, 32⟩) := by
  have h0 := readUInt64_at base hb payload 0 rfl (by omega)
  have h1 := readUInt32_at base hb payload 8 rfl (by omega)
  have h2 := readUInt64_at base hb payload 12 rfl (by omega)
  have h3 := readUInt64_at base hb payload 20 rfl (by omega)
  have h4 := readUInt32_at base hb payload 28 rfl (by omega)
  simp only [IndexMetadata.deserialize, h0, h1, h2, h3, h4, Option.bind_eq_bind, Option.bind_some]

/-- What the browser keeps of a record. -/
def loaded (base : BaseLibrary) (appCache trailer : Bool) (e : IndexEntry) : EntryMetadata :=
  (EntryMetadata.setTimeOrPrefetchSize base appCache trailer {} e.lastUsedInternal).setPacked
    e.packedInfo

/-- Size and in-memory bits pass through the packed word. -/
theorem loaded_packed (base : BaseLibrary) (appCache trailer : Bool) (e : IndexEntry) (hv : e.Valid) :
    (loaded base appCache trailer e).entrySize256bChunks.toNat = e.entrySizeChunks.toNat ∧
    (loaded base appCache trailer e).inMemoryData.toNat = e.inMemoryData.toNat := by
  have hn := e.packedInfo_toNat hv
  have hc := hv.chunks
  have hm := hv.memory
  constructor
  · change ((((e.packedInfo >>> 8).setWidth 32).setWidth 30).toNat) = _
    rw [BitVec.toNat_setWidth, BitVec.toNat_setWidth, BitVec.toNat_ushiftRight, hn,
      Nat.shiftRight_eq_div_pow]
    omega
  · change (((e.packedInfo &&& 3#64).setWidth 8).setWidth 2).toNat = _
    rw [BitVec.toNat_setWidth, BitVec.toNat_setWidth, BitVec.toNat_and, hn]
    change (256 * _ + _ &&& 2 ^ 2 - 1) % _ % _ = _
    rw [Nat.and_two_pow_sub_one_eq_mod]
    omega

/-- One record read in its place. -/
theorem deserialize_record (base : BaseLibrary) (hb : base.Lawful) (appCache trailer : Bool)
    (payload : List Byte) (i : Nat) (e : IndexEntry) (hv : e.Valid) (h4 : i % 4 = 0)
    (hl : i + 24 ≤ payload.length) (hs : seg payload i 24 = e.bytes) :
    readUInt64 base ⟨payload, i⟩ = some (e.hash, ⟨payload, i + 8⟩) ∧
    EntryMetadata.deserialize base appCache ⟨payload, i + 8⟩ trailer =
      some (loaded base appCache trailer e, ⟨payload, i + 24⟩) := by
  have hh : wordAt 64 payload i = e.hash := wordAt_of_tile 64 payload i e.hash rfl
    (seg_piece payload i 24 [] _ [bytes 8 e.lastUsedInternal, bytes 8 e.packedInfo] hs)
  have ht : wordAt 64 payload (i + 8) = e.lastUsedInternal :=
    wordAt_of_tile 64 payload (i + 8) e.lastUsedInternal rfl
      (by simpa using seg_piece payload i 24 [bytes 8 e.hash] _ [bytes 8 e.packedInfo] hs)
  have hp : wordAt 64 payload (i + 16) = e.packedInfo := packedAt_of_seg payload i e hs
  have r0 := readUInt64_at base hb payload i h4 (by omega)
  have r1 := readUInt64_at base hb payload (i + 8) (by omega) (by omega)
  have r2 := readUInt64_at base hb payload (i + 16) (by omega) (by omega)
  have hn := e.packedInfo_toNat hv
  have hc := hv.chunks
  have hm := hv.memory
  have hbits : ¬e.packedInfo >>> 38 ≠ 0#64 := by
    rw [ushiftRight_ne_zero]
    omega
  constructor
  · rw [r0, hh]
  · simp only [EntryMetadata.deserialize, readInt64, r1, ht, r2, hp, Option.bind_eq_bind,
      Option.bind_some]
    rw [if_neg hbits]
    rfl

theorem insertInEntrySet_new (hash : BitVec 64) (m : EntryMetadata) (entries : EntrySet)
    (h : hash ∉ entries.map Prod.fst) :
    insertInEntrySet hash m entries = entries ++ [(hash, m)] := if_neg h

/-- The records of a payload with distinct hashes: every round adds one to the set. -/
theorem deserializeEntries_records (base : BaseLibrary) (hb : base.Lawful) (appCache : Bool)
    (m : IndexMetadata) (payload : List Byte) (todo done : List IndexEntry) (rounds : Nat)
    (hr : todo.length < rounds) (hm : m.entryCount.toNat = (done ++ todo).length)
    (hl : 32 + 24 * (done ++ todo).length ≤ payload.length) (hv : ∀ e ∈ done ++ todo, e.Valid)
    (hnd : ((done ++ todo).map IndexEntry.hash).Nodup)
    (hs : ∀ i (hi : i < (done ++ todo).length),
      seg payload (32 + 24 * i) 24 = (done ++ todo)[i].bytes) :
    deserializeEntries base appCache m rounds ⟨payload, 32 + 24 * done.length⟩
        (done.map fun e => (e.hash, loaded base appCache m.appCacheHasTrailerPrefetchSize e)) =
      some ((done ++ todo).map fun e =>
        (e.hash, loaded base appCache m.appCacheHasTrailerPrefetchSize e),
        ⟨payload, 32 + 24 * (done ++ todo).length⟩) := by
  induction todo generalizing done rounds with
  | nil =>
    obtain ⟨n, rfl⟩ : ∃ n, rounds = n + 1 := ⟨rounds - 1, by omega⟩
    rw [List.append_nil] at hm ⊢
    rw [deserializeEntries, List.length_map, if_neg (by omega)]
  | cons e todo ih =>
    obtain ⟨n, rfl⟩ : ∃ n, rounds = n + 1 := ⟨rounds - 1, by omega⟩
    have hlen : (done ++ e :: todo).length = done.length + (todo.length + 1) := by simp
    have hsplit : done ++ e :: todo = (done ++ [e]) ++ todo := by simp
    have hin : done.length < (done ++ e :: todo).length := by omega
    have he : (done ++ e :: todo)[done.length] = e := by simp
    have hseg := hs done.length hin
    rw [he] at hseg
    obtain ⟨hhash, hmeta⟩ := deserialize_record base hb appCache m.appCacheHasTrailerPrefetchSize
      payload (32 + 24 * done.length) e (hv e (by simp)) (by omega) (by omega) hseg
    have hnew : e.hash ∉ (done.map fun e =>
        (e.hash, loaded base appCache m.appCacheHasTrailerPrefetchSize e)).map Prod.fst := by
      rw [List.map_map]
      rw [List.map_append, List.nodup_append] at hnd
      exact fun hmem => hnd.2.2 _ hmem e.hash (by simp) rfl
    have hnext : 32 + 24 * done.length + 24 = 32 + 24 * (done ++ [e]).length := by
      rw [List.length_append, List.length_singleton]
      omega
    rw [deserializeEntries, List.length_map, if_pos (by omega), hhash]
    simp only [Option.bind_eq_bind, Option.bind_some, hmeta]
    rw [insertInEntrySet_new _ _ _ hnew, hnext]
    rw [hsplit] at hm hl hv hnd hs ⊢
    have hstep := ih (done ++ [e]) n (by simpa using hr) hm hl hv hnd hs
    rw [List.map_append] at hstep
    exact hstep

/-- What the browser checks first holds of every image. -/
theorem image_pickle (base : BaseLibrary) (hb : base.Lawful) (x : SimpleCacheIndex)
    (h : 48 + 24 * x.entries.length < 2 ^ 31) :
    base.hasData (x.image h).list = true ∧ base.headerSize (x.image h).list = 8 ∧
    base.payloadBytes (x.image h).list = x.payload ∧
    wordAt 32 (x.image h).list 4 = crc32Of x.payload := by
  obtain ⟨hlen, hp, -⟩ := x.image_header h
  obtain ⟨hd, hs, hpay⟩ := hb.pickle (x.image h).list hp.1 hp.2
  have hh : x.pickleHeader.length = 8 := by simp [pickleHeader]
  have hl : (x.image h).list = x.pickleHeader ++ x.payload := rfl
  exact ⟨hd, hs, by rw [hpay, hl, ← hh, List.drop_left], x.image_crc h⟩

/-- Words of the payload are words of the file behind its header. -/
theorem wordAt_payload (w : Nat) (x : SimpleCacheIndex) (h : 48 + 24 * x.entries.length < 2 ^ 31)
    (off : Nat) : wordAt w x.payload off = wordAt w (x.image h).list (8 + off) := by
  have hh : x.pickleHeader.length = 8 := by simp [pickleHeader]
  have ha := wordAt_append w x.pickleHeader x.payload off
  rw [hh] at ha
  exact ha.symm

theorem seg_payload (x : SimpleCacheIndex) (h : 48 + 24 * x.entries.length < 2 ^ 31) (i : Nat)
    (hi : i < x.entries.length) : seg x.payload (32 + 24 * i) 24 = x.entries[i].bytes := by
  have hh : x.pickleHeader.length = 8 := by simp [pickleHeader]
  have ha := seg_append_right x.pickleHeader x.payload (32 + 24 * i) 24
  have hr := x.image_record h i hi
  have hoff : 40 + 24 * i = 8 + (32 + 24 * i) := by omega
  rw [hh] at ha
  rw [hoff] at hr
  exact ha.symm.trans hr

/-- The browser loads every image of an index with distinct hashes and a known reason. -/
theorem deserialize_image (base : BaseLibrary) (hb : base.Lawful) (appCache : Bool)
    (x : SimpleCacheIndex) (h : 48 + 24 * x.entries.length < 2 ^ 31)
    (hn : x.entries.length ≤ kMaxEntriesInIndex) (hr : x.reason < indexWriteReasonMax)
    (hv : ∀ e ∈ x.entries, e.Valid) (hnd : (x.entries.map IndexEntry.hash).Nodup) :
    deserialize base appCache (x.image h).list =
      { didLoad := true
        entries := x.entries.map fun e => (e.hash, loaded base appCache true e)
        indexWriteReason := x.reason
        cacheLastModified := some x.cacheLastModifiedInternal } := by
  obtain ⟨hdata, hsize, hpay, hcrc⟩ := image_pickle base hb x h
  obtain ⟨fm, fv, fn, fs, fr⟩ := x.image_fields h
  have hlen := x.payload_length
  have hk : kMaxEntriesInIndex = 1000000 := rfl
  have hmeta := deserialize_metadata base hb x.payload (by omega)
  simp only [wordAt_payload _ x h, Nat.add_zero, Nat.reduceAdd, fm, fv, fn, fs, fr] at hmeta
  have hcount : (BitVec.ofNat 64 x.entries.length).toNat = x.entries.length := by
    rw [BitVec.toNat_ofNat, Nat.mod_eq_of_lt (by omega)]
  have hcheck : (IndexMetadata.mk indexMagic indexFileVersion x.reason
      (BitVec.ofNat 64 x.entries.length) x.cacheSize).checkIndexMetadata = true := by
    rw [IndexMetadata.checkIndexMetadata, if_neg (by rw [hcount]; simpa using ⟨hn, rfl⟩)]
    simpa using ⟨by decide, by decide, hr⟩
  have hloop := deserializeEntries_records base hb appCache (IndexMetadata.mk indexMagic
    indexFileVersion x.reason (BitVec.ofNat 64 x.entries.length) x.cacheSize) x.payload x.entries []
    (x.payload.length + 1) (by omega) hcount (by simp only [List.nil_append]; omega) hv hnd
    fun i hi => seg_payload x h i hi
  have hlast := readUInt64_at base hb x.payload (32 + 24 * x.entries.length) (by omega) (by omega)
  have hoff : 8 + (32 + 24 * x.entries.length) = 40 + 24 * x.entries.length := by omega
  rw [wordAt_payload 64 x h, hoff, x.image_last h] at hlast
  rw [deserialize, hpay, hdata, hsize, if_neg (by simp), if_neg (not_not.mpr hcrc), deserializePayload,
    hmeta]
  simp only [Option.bind_eq_bind, Option.bind_some, hcheck, not_true_eq_false, if_false]
  simp only [List.map_nil, List.length_nil, Nat.mul_zero, Nat.add_zero, List.nil_append] at hloop
  rw [hloop]
  simp only [Option.bind_some, readInt64, hlast, Option.getD_some]
  rfl

end SimpleCacheTool.Chromium

namespace SimpleCacheTool.SimpleCacheLibrary

open Segments SimpleCacheFormat SimpleCacheIndex Chromium

/-- The browser loads what `updateIndex` writes, with the entries `parseIndex` reads. -/
theorem deserialize_updateIndex (base : BaseLibrary) (hb : base.Lawful) (appCache : Bool)
    (d file : Bytes) (time hash : BitVec 64) (x : SimpleCacheIndex) (hx : parseIndex d = .ok x)
    (hnd : (x.entries.map IndexEntry.hash).Nodup)
    (hf : ∃ e key, parseEntry file = .ok e ∧ e.key = some key ∧ entryHash key = .ok hash)
    (hlen : (if hash ∈ x.entries.map IndexEntry.hash then x.entries.length
      else x.entries.length + 1) ≤ 1000000) :
    ∃ out y, updateIndex d file time = .ok out ∧ parseIndex out = .ok y ∧
      (deserialize base appCache out.list).didLoad = true ∧
      List.Forall₂ (fun m e => m.1 = e.hash ∧
          m.2.entrySize256bChunks.toNat = e.entrySizeChunks.toNat ∧
          m.2.inMemoryData.toNat = e.inMemoryData.toNat)
        (deserialize base appCache out.list).entries y.entries ∧
      (deserialize base appCache out.list).cacheLastModified = some y.cacheLastModifiedInternal := by
  have hkeys := KeyedList.upsert_keys IndexEntry.hash (refreshed hash time file.length) x.entries
  have hh : (refreshed hash time file.length).hash = hash := rfl
  rw [hh] at hkeys
  have hl : (updated x hash time file.length).entries.length ≤ 1000000 := by
    rw [updated_entries, ← List.length_map (f := IndexEntry.hash), hkeys]
    split_ifs at hlen ⊢ with hmem
    · simpa using hlen
    · simpa using hlen
  have hs : 48 + 24 * (updated x hash time file.length).entries.length < 2 ^ 31 := by omega
  have hv := updated_valid x hash time file.length file.length_lt' (parse_entries d true x hx).1
  have hnd' : ((updated x hash time file.length).entries.map IndexEntry.hash).Nodup := by
    rw [updated_entries]
    exact KeyedList.upsert_nodup IndexEntry.hash _ _ hnd
  have hload := deserialize_image base hb appCache (updated x hash time file.length) hs hl
    (by change reasonIdle < indexWriteReasonMax; decide) hv hnd'
  refine ⟨(updated x hash time file.length).image hs, (updated x hash time file.length).reread,
    (updateIndex_eq d file time hash x hx hf).trans (serialize_eq _ hs), parse_image _ hs hv, ?_⟩
  rw [hload]
  refine ⟨rfl, ?_, rfl⟩
  change List.Forall₂ _ _ (updated x hash time file.length).entries
  rw [List.forall₂_map_left_iff, List.forall₂_same]
  exact fun e he => ⟨rfl, loaded_packed base appCache true e (hv e he)⟩

/-- A base library that behaves as the browser's does, on times in microseconds from 1601. -/
def alignedBase : BaseLibrary where
  hasData data := 4 ≤ data.length ∧ (wordAt 32 data 0).toNat < data.length ∧
    (data.length - (wordAt 32 data 0).toNat) % 4 = 0
  headerSize data :=
    if 4 ≤ data.length ∧ (data.length - (wordAt 32 data 0).toNat) % 4 = 0 then
      data.length - (wordAt 32 data 0).toNat
    else 0
  payloadBytes data := data.drop (data.length - (wordAt 32 data 0).toNat)
  readBytes payload readIndex n :=
    if readIndex + n ≤ payload.length then
      some (seg payload readIndex n, min (readIndex + (n + 3) / 4 * 4) payload.length)
    else none
  inSeconds time := (time.toInt - 11644473600000000).tdiv 1000000

theorem alignedBase_lawful : alignedBase.Lawful where
  pickle := by
    intro data h8 hp
    have hs : data.length - (wordAt 32 data 0).toNat = 8 := by omega
    refine ⟨?_, ?_, ?_⟩
    · have hc : 4 ≤ data.length ∧ (wordAt 32 data 0).toNat < data.length ∧
          (data.length - (wordAt 32 data 0).toNat) % 4 = 0 := by omega
      exact decide_eq_true hc
    · have hc : 4 ≤ data.length ∧ (data.length - (wordAt 32 data 0).toNat) % 4 = 0 := by omega
      exact (if_pos hc).trans hs
    · exact congrArg data.drop hs
  read := by
    intro payload readIndex n h4 hl
    have hn : n ≤ (n + 3) / 4 * 4 := by omega
    simp only [alignedBase]
    rw [if_pos (by omega), min_eq_left hl]

theorem deserialize_updateIndex_listing :
    ∃ out y, updateIndex (listingFile 3#32) SimpleCacheEntry.smallFile.toBytes 9#64 = .ok out ∧
      parseIndex out = .ok y ∧ (deserialize alignedBase false out.list).didLoad = true ∧
      List.Forall₂ (fun m e => m.1 = e.hash ∧
          m.2.entrySize256bChunks.toNat = e.entrySizeChunks.toNat ∧
          m.2.inMemoryData.toNat = e.inMemoryData.toNat)
        (deserialize alignedBase false out.list).entries y.entries ∧
      (deserialize alignedBase false out.list).cacheLastModified =
        some y.cacheLastModifiedInternal :=
  deserialize_updateIndex alignedBase alignedBase_lawful false (listingFile 3#32)
    SimpleCacheEntry.smallFile.toBytes 9#64 smallHash (listing 3#32).reread (parse_listing _ (by decide))
    (listing_nodup _) smallFile_names (by
      change (if smallHash ∈ [smallHash, ~~~smallHash] then 2 else 3) ≤ 1000000
      rw [if_pos List.mem_cons_self]
      decide)

end SimpleCacheTool.SimpleCacheLibrary
