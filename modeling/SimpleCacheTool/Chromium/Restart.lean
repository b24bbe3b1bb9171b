import SimpleCacheTool.Chromium.IndexFile

namespace SimpleCacheTool.Chromium

open Segments LittleEndian SimpleCacheFormat SimpleCacheIndex SimpleCacheLibrary

/-! The tool on an index the browser wrote. -/

/-- Every file of the browser's bytes is read as the index that was written. -/
theorem parseIndex_file (lib : PickleLibrary) (hl : lib.Lawful) (appCache : Bool) (w : IndexWrite)
    (mtime : BitVec 64) (d : Bytes) (hd : d.list = w.file lib appCache mtime) :
    parseIndex d = .ok (w.asIndex lib appCache mtime).reread := by
  have hcount : (w.asIndex lib appCache mtime).entries.length = w.entrySet.length := List.length_map _
  have hsize : 48 + 24 * (w.asIndex lib appCache mtime).entries.length < 2 ^ 31 := by
    rw [hcount, ← file_length lib hl appCache w mtime, ← hd]
    exact d.length_lt'
  have himage : d = (w.asIndex lib appCache mtime).image hsize :=
    Bytes.ext (hd.trans (file_eq lib hl appCache w mtime))
  rw [parseIndex, himage]
  apply parse_image
  intro e he
  obtain ⟨x, -, rfl⟩ := List.mem_map.mp he
  exact record_valid lib appCache x

theorem record_getEntrySize (lib : PickleLibrary) (appCache : Bool) (e : BitVec 64 × EntryMetadata) :
    (record lib appCache e).getEntrySize = e.2.getEntrySize := by
  have hc := e.2.entrySize256bChunks.isLt
  have hv := (record_valid lib appCache e).chunks
  have h1 : (record lib appCache e).entrySizeChunks.toNat = e.2.entrySize256bChunks.toNat := by
    rw [record, BitVec.toNat_setWidth, Nat.mod_eq_of_lt (by omega)]
  apply BitVec.eq_of_toNat_eq
  rw [IndexEntry.getEntrySize_toNat _ hv, h1, EntryMetadata.getEntrySize, BitVec.toNat_shiftLeft,
    BitVec.toNat_setWidth, Nat.shiftLeft_eq]
  omega

/-- The tool adds the sizes up to what the browser adds them up to. -/
theorem recomputeCacheSize_asIndex (lib : PickleLibrary) (appCache : Bool) (w : IndexWrite)
    (mtime : BitVec 64) (hw : w.cacheSize = BitVec.ofNat 64 w.entrySet.totalSize) :
    (w.asIndex lib appCache mtime).reread.recomputeCacheSize =
      (w.asIndex lib appCache mtime).reread := by
  have hsum : (w.asIndex lib appCache mtime).reread.entries.foldl
      (fun total e => total + e.getEntrySize) 0#64 = w.cacheSize := by
    rw [hw, ← EntrySet.sumSizes_eq, EntrySet.sumSizes]
    change List.foldl _ _ (w.entrySet.map (record lib appCache)) = _
    rw [List.foldl_map]
    simp only [record_getEntrySize]
  rw [recomputeCacheSize, hsum]
  rfl

/-- In every run, whatever the browser writes is an index that the tool reads in full, without a warning
and with nothing to correct. -/
theorem written_parse (c : IndexConfig) (events : List IndexEvent) (he : ∀ e ∈ events, e.Sound)
    (lib : PickleLibrary) (hl : lib.Lawful) (appCache : Bool) (mtime : BitVec 64)
    (w : IndexWrite) (hw : (w.entrySet, w.cacheSize) ∈ (SimpleIndex.after c events).written)
    (d : Bytes) (hd : d.list = w.file lib appCache mtime) :
    ∃ x, parseIndex d = .ok x ∧ x.warnings = [] ∧
      x.entries = w.entrySet.map (record lib appCache) ∧ (x.entries.map IndexEntry.hash).Nodup ∧
      x.cacheSize = w.cacheSize ∧ x.reason = w.reason ∧ x.cacheLastModifiedInternal = mtime ∧
      x.recomputeCacheSize = x := by
  have hc : (SimpleIndex.after c events).Consistent :=
    SimpleIndex.run_consistent c events he {} SimpleIndex.new_consistent
  obtain ⟨hnd, hsum⟩ := hc.written _ hw
  refine ⟨_, parseIndex_file lib hl appCache w mtime d hd, rfl, rfl, ?_, rfl, rfl, rfl,
    recomputeCacheSize_asIndex lib appCache w mtime hsum⟩
  change ((w.entrySet.map (record lib appCache)).map IndexEntry.hash).Nodup
  rw [List.map_map]
  exact hnd

/-- The bytes of the small index. -/
def smallIndexFile : Bytes :=
  ⟨smallWrite.file alignedPickles false 9#64, by
    rw [file_length alignedPickles alignedPickles_lawful]
    decide⟩

theorem written_parse_small : ∃ x, parseIndex smallIndexFile = .ok x ∧ x.warnings = [] ∧
    x.entries = smallWrite.entrySet.map (record alignedPickles false) ∧
    (x.entries.map IndexEntry.hash).Nodup ∧ x.cacheSize = smallWrite.cacheSize ∧
    x.reason = smallWrite.reason ∧ x.cacheLastModifiedInternal = 9#64 ∧ x.recomputeCacheSize = x :=
  written_parse SimpleIndex.smallConfig
    [.mergeInitializingSet SimpleIndex.fileEntries true]
    (by simp [SimpleIndex.fileEntries, IndexEvent.Sound, EntrySet.keys]) alignedPickles
    alignedPickles_lawful false 9#64 smallWrite (List.mem_singleton.mpr rfl) smallIndexFile rfl

/-! The files of interrupted and failed writes. -/

/-- A write that meets no failure. -/
structure WriteOutcome.Clean (o : WriteOutcome) (mtime : BitVec 64) : Prop where
  createDirectory : o.createDirectory = true
  fileInfo : o.fileInfo = some mtime
  openFile : o.openFile = true
  written : o.written = none
  replaceFile : o.replaceFile = true

/-- An entry is removed after the load, and what is left is written at once. -/
def shrinking : List IndexEvent :=
  [.insert 7#64 13400000000000000#64, .mergeInitializingSet SimpleIndex.fileEntries true,
    .remove 7#64, .writeToDisk, .setEntryInMemoryData 5#64 1#2]

/-- What the browser makes of the entry the tool puts into an index. -/
def publishedMetadata (base : BaseLibrary) (appCache : Bool) (hash time : BitVec 64) (size : Nat) :
    EntryMetadata :=
  loaded base appCache true (refreshed hash time size)

end SimpleCacheTool.Chromium
