import SimpleCacheTool.Chromium.Restart
import SimpleCacheTool.Chromium.RestoreIndex

namespace SimpleCacheTool.Chromium

open SimpleCacheFormat SimpleCacheLibrary EntrySet

/-! Entries one by one. -/

namespace EntrySet

theorem find_insert (entries : EntrySet) (hash x : BitVec 64) (m : EntryMetadata)
    (h : entries.find hash = none) :
    find (insertInEntrySet hash m entries) x = if x = hash then some m else entries.find x := by
  have hn : hash ∉ entries.map Prod.fst := (find_eq_none entries hash).mp h
  rw [insertInEntrySet, if_neg hn, find, List.lookup_append]
  by_cases hx : x = hash
  · have hl : List.lookup hash entries = none := h
    simp [hl, hx]
  · have hne : (x == hash) = false := by simpa using hx
    simp [List.lookup_cons, hne, hx, find]

theorem find_modify (entries : EntrySet) (hash x : BitVec 64) (m m' : EntryMetadata)
    (hnd : entries.keys.Nodup) (h : entries.find hash = some m) :
    find (entries.modify hash m') x = if x = hash then some m' else entries.find x := by
  obtain ⟨a, b, he, ha, hb⟩ := find_split entries hash m hnd h
  have hla : List.lookup hash a = none := (find_eq_none a hash).mpr ha
  rw [he, modify_split a b hash m m' ha hb, find, find, List.lookup_append, List.lookup_append]
  by_cases hx : x = hash
  · simp [hx, hla]
  · have hne : (x == hash) = false := by simpa using hx
    simp [List.lookup_cons, hne, hx]

end EntrySet

/-- The hash that a file counts for. -/
def fileHash (c : ScanConfig) (f : DirectoryEntry) : Option (BitVec 64) :=
  if (asciiBytes "todelete_").isPrefixOf f.name then none else namedHash c f

/-- The files of an entry. -/
def filesOf (c : ScanConfig) (hash : BitVec 64) (files : List DirectoryEntry) : List DirectoryEntry :=
  files.filter fun f => fileHash c f = some hash

theorem processEntryFile_none (c : ScanConfig) (s : Scan) (f : DirectoryEntry)
    (h : fileHash c f = none) : (processEntryFile c s f).entries = s.entries := by
  rw [fileHash] at h
  rw [processEntryFile]
  split_ifs at h with hd
  · simp [hd]
  · simp [hd, h]

/-- A file changes its own entry and no other. -/
theorem processEntryFile_some (c : ScanConfig) (s : Scan) (f : DirectoryEntry) (hash x : BitVec 64)
    (hnd : s.entries.keys.Nodup) (h : fileHash c f = some hash) :
    (processEntryFile c s f).entries.keys.Nodup ∧
      (processEntryFile c s f).entries.find x =
        if x = hash then some (withFile c f (s.entries.find hash)) else s.entries.find x := by
  rw [fileHash] at h
  split_ifs at h with hd
  rw [processEntryFile, if_neg hd, h]
  cases hf : s.entries.find hash with
  | none =>
    simp only [hf]
    exact ⟨SimpleIndex.keys_insert_nodup _ _ _ hnd, find_insert _ _ _ _ hf⟩
  | some m =>
    simp only [hf]
    exact ⟨by rw [keys_modify]; exact hnd, find_modify _ _ _ _ _ hnd hf⟩

/-- What the directory says of one entry depends on this entry's files alone. -/
theorem scan_find (c : ScanConfig) (files : List DirectoryEntry) (s : Scan) (hash : BitVec 64)
    (hnd : s.entries.keys.Nodup) :
    (files.foldl (processEntryFile c) s).entries.keys.Nodup ∧
      (files.foldl (processEntryFile c) s).entries.find hash =
        (filesOf c hash files).foldl (fun m f => some (withFile c f m)) (s.entries.find hash) := by
  induction files generalizing s with
  | nil => exact ⟨hnd, rfl⟩
  | cons f files ih =>
    rw [List.foldl_cons]
    cases hf : fileHash c f with
    | none =>
      have he := processEntryFile_none c s f hf
      have hskip : filesOf c hash (f :: files) = filesOf c hash files := by simp [filesOf, hf]
      obtain ⟨h1, h2⟩ := ih (processEntryFile c s f) (he ▸ hnd)
      rw [he, ← hskip] at h2
      exact ⟨h1, h2⟩
    | some x =>
      obtain ⟨hn, hfind⟩ := processEntryFile_some c s f x hash hnd hf
      obtain ⟨h1, h2⟩ := ih (processEntryFile c s f) hn
      refine ⟨h1, ?_⟩
      rw [h2, hfind]
      by_cases hx : hash = x
      · have htake : filesOf c hash (f :: files) = f :: filesOf c hash files := by
          simp [filesOf, hf, hx]
        rw [if_pos hx, htake, List.foldl_cons, hx]
      · have hskip : filesOf c hash (f :: files) = filesOf c hash files := by
          have hne : x ≠ hash := fun h => hx h.symm
          simp [filesOf, hf, hne]
        rw [if_neg hx, hskip]

/-! Sizes. -/

/-- A file's size in chunks, rounded up. -/
def chunksOf (size : BitVec 64) : Nat := (size.toNat + 255) / 256

theorem setEntrySize_eq (m : EntryMetadata) (size : BitVec 32) :
    m.setEntrySize (size.setWidth 64) =
      some { m with entrySize256bChunks := BitVec.ofNat 30 ((size.toNat + 255) / 256) } := by
  have h := size.isLt
  have hn : (size.setWidth 64 + 255#64).toNat = size.toNat + 255 := by
    rw [BitVec.toNat_add, BitVec.toNat_setWidth, BitVec.toNat_ofNat]
    omega
  have hr : ((size.setWidth 64 + 255#64) >>> 8).toNat = (size.toNat + 255) / 256 := by
    rw [BitVec.toNat_ushiftRight, hn, Nat.shiftRight_eq_div_pow]
  have hz : ¬(size.setWidth 64 + 255#64) >>> 8 >>> 30 ≠ 0#64 := by
    rw [not_not, ← BitVec.toNat_inj, BitVec.toNat_ushiftRight, hr, Nat.shiftRight_eq_div_pow]
    show (size.toNat + 255) / 256 / 2 ^ 30 = 0
    omega
  have hw : ((size.setWidth 64 + 255#64) >>> 8).setWidth 30 =
      BitVec.ofNat 30 ((size.toNat + 255) / 256) := by
    apply BitVec.eq_of_toNat_eq
    rw [BitVec.toNat_setWidth, hr, BitVec.toNat_ofNat]
  rw [EntryMetadata.setEntrySize, if_neg hz, hw]

/-- An entry's chunks with one more of its files, or those of the placeholder where they do not fit. -/
def addChunks (chunks : Nat) (f : DirectoryEntry) : Nat :=
  if 256 * chunks + f.size.toNat < 2 ^ 32 then chunks + chunksOf f.size else 128

theorem addChunks_lt (chunks : Nat) (f : DirectoryEntry) : addChunks chunks f < 2 ^ 30 := by
  rw [addChunks, chunksOf]
  split_ifs <;> omega

theorem withFile_none (c : ScanConfig) (f : DirectoryEntry) :
    (withFile c f none).entrySize256bChunks.toNat = addChunks 0 f ∧
      (withFile c f none).inMemoryData = 0#2 := by
  have hs : ((((checkedUInt32 f.size).getD kPlaceHolderSizeWhenInvalid).toNat) + 255) / 256 =
      addChunks 0 f := by
    rw [checkedUInt32, addChunks, chunksOf, Nat.mul_zero, Nat.zero_add, Nat.zero_add]
    by_cases h : f.size.toNat < 2 ^ 32
    · rw [if_pos h, if_pos h, Option.getD_some, BitVec.toNat_setWidth, Nat.mod_eq_of_lt h]
    · rw [if_neg h, if_neg h]
      rfl
  have hc : (BitVec.ofNat 30 (addChunks 0 f)).toNat = addChunks 0 f := by
    rw [BitVec.toNat_ofNat, Nat.mod_eq_of_lt (addChunks_lt 0 f)]
  simp only [withFile, setEntrySize_eq, Option.getD_some, hs]
  cases c.appCache
  · exact ⟨hc, rfl⟩
  · exact ⟨hc, rfl⟩

theorem getEntrySize_toNat (m : EntryMetadata) :
    m.getEntrySize.toNat = 256 * m.entrySize256bChunks.toNat := by
  have hc := m.entrySize256bChunks.isLt
  rw [EntryMetadata.getEntrySize, BitVec.toNat_shiftLeft, BitVec.toNat_setWidth, Nat.shiftLeft_eq]
  omega

/-- A sum of sizes of 32 bits, or the placeholder. -/
theorem checkedAdd_toNat (size y : BitVec 64) :
    ((checkedAdd (checkedUInt32 size) y).getD kPlaceHolderSizeWhenInvalid).toNat =
      if y.toNat + size.toNat < 2 ^ 32 then y.toNat + size.toNat else 32768 := by
  rw [checkedUInt32]
  by_cases hlt : size.toNat < 2 ^ 32
  · have hw : (size.setWidth 32).toNat = size.toNat := by
      rw [BitVec.toNat_setWidth, Nat.mod_eq_of_lt hlt]
    rw [if_pos hlt, checkedAdd, Option.bind_some, hw, Nat.add_comm]
    by_cases h : y.toNat + size.toNat < 2 ^ 32
    · rw [if_pos h, if_pos h, Option.getD_some, BitVec.toNat_add, hw, BitVec.toNat_setWidth]
      omega
    · rw [if_neg h, if_neg h]
      rfl
  · have h : ¬y.toNat + size.toNat < 2 ^ 32 := by omega
    rw [if_neg hlt, if_neg h]
    rfl

/-- The chunks of one more file are added, and nothing else changes. -/
theorem withFile_some (c : ScanConfig) (f : DirectoryEntry) (m : EntryMetadata) :
    withFile c f (some m) =
      { m with
        entrySize256bChunks := BitVec.ofNat 30 (addChunks m.entrySize256bChunks.toNat f) } := by
  have hs : (((checkedAdd (checkedUInt32 f.size) m.getEntrySize).getD
      kPlaceHolderSizeWhenInvalid).toNat + 255) / 256 = addChunks m.entrySize256bChunks.toNat f := by
    rw [checkedAdd_toNat, getEntrySize_toNat, addChunks, chunksOf]
    by_cases h : 256 * m.entrySize256bChunks.toNat + f.size.toNat < 2 ^ 32
    · rw [if_pos h, if_pos h]
      omega
    · rw [if_neg h, if_neg h]
  simp only [withFile, setEntrySize_eq, Option.getD_some, hs]

/-- The files behind the first one. -/
theorem withFiles_some (c : ScanConfig) (files : List DirectoryEntry) (m : EntryMetadata) :
    ∃ m', files.foldl (fun m f => some (withFile c f m)) (some m) = some m' ∧
      m'.entrySize256bChunks.toNat = files.foldl addChunks m.entrySize256bChunks.toNat ∧
      m'.inMemoryData = m.inMemoryData ∧
      m'.lastUsedTimeOrTrailerPrefetchSize = m.lastUsedTimeOrTrailerPrefetchSize := by
  induction files generalizing m with
  | nil => exact ⟨m, rfl, rfl, rfl, rfl⟩
  | cons f files ih =>
    obtain ⟨m', h1, h2, h3, h4⟩ := ih (withFile c f (some m))
    rw [withFile_some] at h1 h2 h3 h4
    rw [BitVec.toNat_ofNat, Nat.mod_eq_of_lt (addChunks_lt _ f)] at h2
    rw [List.foldl_cons, List.foldl_cons, withFile_some]
    exact ⟨m', h1, h2, h3, h4⟩

/-- The chunks of all files of an entry. -/
def totalChunks (files : List DirectoryEntry) : Nat := (files.map fun f => chunksOf f.size).sum

/-- Sizes that fit together are added up. -/
theorem addChunks_total (files : List DirectoryEntry) (chunks : Nat)
    (h : 256 * (chunks + totalChunks files) < 2 ^ 32) :
    files.foldl addChunks chunks = chunks + totalChunks files := by
  induction files generalizing chunks with
  | nil => simp [totalChunks]
  | cons f files ih =>
    have ht : totalChunks (f :: files) = chunksOf f.size + totalChunks files := by
      rw [totalChunks, List.map_cons, List.sum_cons, ← totalChunks]
    have hc : f.size.toNat ≤ 256 * chunksOf f.size := by
      rw [chunksOf]
      omega
    rw [List.foldl_cons, addChunks, if_pos (by omega), ih _ (by omega), ht, Nat.add_assoc]

/-- Reading the directory finds each entry that it has files of once: with their rounded sizes added up
in the order of the listing, the placeholder in the place of a sum that does not fit, and the time of
the first of them. Where all fit together, the order makes no difference. -/
theorem restore_entries (c : ScanConfig) (files : List DirectoryEntry) (hasError : Bool)
    (hash : BitVec 64) :
    (syncRestoreFromDisk c files hasError).1.entries.keys.Nodup ∧
      match filesOf c hash files with
      | [] => (syncRestoreFromDisk c files hasError).1.entries.find hash = none
      | first :: _ => ∃ m, (syncRestoreFromDisk c files hasError).1.entries.find hash = some m ∧
          m.entrySize256bChunks.toNat = (filesOf c hash files).foldl addChunks 0 ∧
          (256 * totalChunks (filesOf c hash files) < 2 ^ 32 →
            m.entrySize256bChunks.toNat = totalChunks (filesOf c hash files)) ∧
          m.inMemoryData = 0#2 ∧
          m.lastUsedTimeOrTrailerPrefetchSize = if c.appCache then 0#32 else
            (EntryMetadata.setLastUsedTime c.base {}
              (lastUsedTime c first)).lastUsedTimeOrTrailerPrefetchSize := by
  obtain ⟨hnd, hfind⟩ := scan_find c files {} hash List.nodup_nil
  refine ⟨hnd, ?_⟩
  rw [syncRestoreFromDisk]
  simp only
  rw [hfind]
  cases filesOf c hash files with
  | nil => rfl
  | cons f fs =>
    obtain ⟨hchunks, hmem⟩ := withFile_none c f
    obtain ⟨m, h1, h2, h3, h4⟩ := withFiles_some c fs (withFile c f none)
    rw [hchunks] at h2
    refine ⟨m, h1, h2, ?_, h3.trans hmem, h4.trans ?_⟩
    · intro hfit
      have ht := addChunks_total (f :: fs) 0 (by rwa [Nat.zero_add])
      rw [Nat.zero_add] at ht
      exact h2.trans ht
    · simp only [withFile, setEntrySize_eq, Option.getD_some]
      cases c.appCache
      · rfl
      · rfl

/-- A POSIX system's directory with an ordinary parser of hex digits. -/
def smallScan : ScanConfig where
  base := alignedBase
  hexStringToUInt64 l := l.foldlM
    (fun v b => (hexValue (b.setWidth 16)).map fun d => v * 16#64 + BitVec.ofNat 64 d) 0#64
  isPosix := true
  appCache := false

/-- A file of three bytes, never read since it was written. -/
def smallDirectoryEntry : DirectoryEntry where
  name := (entryFileName 0x0123456789abcdef#64).utf8
  lastAccessed := 0#64
  lastModified := 13400000000000000#64
  size := 3#64

/-- A file of another entry, which is too large to be true. -/
def hugeDirectoryEntry : DirectoryEntry where
  name := entryFileNameOf { entryHash := 0xfedcba9876543210#64 } 0x30#8
  lastAccessed := 13400000000000000#64
  lastModified := 0#64
  size := 0xffffffffffffffff#64

/-- The entry's file for stream 2. -/
def secondDirectoryEntry : DirectoryEntry where
  name := entryFileNameOf { entryHash := 0x0123456789abcdef#64 } 0x31#8
  lastAccessed := 0#64
  lastModified := 13400000009000000#64
  size := 257#64

/-- A file of no entry. -/
def strayDirectoryEntry : DirectoryEntry where
  name := asciiBytes "index"
  lastAccessed := 0#64
  lastModified := 0#64
  size := 24#64

example : (filesOf smallScan 0x0123456789abcdef#64
      [secondDirectoryEntry, hugeDirectoryEntry, strayDirectoryEntry, smallDirectoryEntry]).foldl
        addChunks 0 = 3 ∧
    (filesOf smallScan 0xfedcba9876543210#64 [secondDirectoryEntry, hugeDirectoryEntry]).foldl
        addChunks 0 = 128 := by decide

/-! Names. -/

theorem hexByte_ne (v : Nat) (h : v < 16) : hexByte v ≠ 0x74#8 := by
  revert v
  decide

theorem convert_length (hash : BitVec 64) : (convertEntryHashKeyToHexString hash).length = 16 := by
  simp [convertEntryHashKeyToHexString]

/-- The name of an entry's file stands for its hash. -/
theorem fileHash_name (c : ScanConfig) (f : DirectoryEntry) (hash : BitVec 64) (suffix : Byte)
    (hc : c.hexStringToUInt64 (convertEntryHashKeyToHexString hash) = some hash)
    (hname : f.name = entryFileNameOf { entryHash := hash } suffix) : fileHash c f = some hash := by
  have hn : f.name = convertEntryHashKeyToHexString hash ++ (asciiBytes "_" ++ [suffix]) := by
    rw [hname, entryFileNameOf]
    simp
  have hmark : ¬(asciiBytes "todelete_").isPrefixOf f.name := by
    rw [hn]
    intro h
    have hhead : convertEntryHashKeyToHexString hash =
        hexByte (hash.toNat / 16 ^ 15 % 16) :: (convertEntryHashKeyToHexString hash).tail := rfl
    rw [hhead, List.isPrefixOf_iff_prefix, List.cons_append] at h
    have h0 : 0x74#8 = hexByte (hash.toNat / 16 ^ 15 % 16) :=
      (List.prefix_cons_iff.mp h).elim (fun hnil => by cases hnil) fun ⟨t, ht, _⟩ => by
        have := congrArg List.head? ht
        simpa [asciiBytes] using this
    exact hexByte_ne _ (Nat.mod_lt _ (by decide)) h0.symm
  have hlen : f.name.length = 18 := by
    rw [hn]
    simp [convert_length, asciiBytes]
  have htake : f.name.take 16 = convertEntryHashKeyToHexString hash := by
    rw [hn, List.take_append_of_le_length (by rw [convert_length]),
      List.take_of_length_le (by rw [convert_length])]
  rw [fileHash, if_neg hmark, namedHash, if_neg (not_not.mpr hlen), htake,
    getEntryHashKeyFromHexString, if_neg (not_not.mpr (convert_length hash)), hc]

/-- The tool names an entry's file as the browser does. -/
theorem entryFileName_utf8 (hash : BitVec 64) : (entryFileName hash).utf8 =
    getFilenameFromEntryFileKeyAndFileIndex { entryHash := hash } 0 := by
  have hdigit : ∀ v < 16, (hexDigit v).toNat < 0x80 ∧ (hexDigit v).setWidth 8 = hexByte v := by
    decide
  have hat (n : Nat) : (hexDigit (n % 16)).toNat < 0x80 ∧
      (hexDigit (n % 16)).setWidth 8 = hexByte (n % 16) := hdigit (n % 16) (by omega)
  have hlit : ∀ c ∈ JString.lit "_0", c.toNat < 0x80 := by simp [JString.lit]
  have hascii : JString.IsAscii (entryFileName hash) := by
    intro c hc
    rcases List.mem_append.mp hc with hc | hc
    · obtain ⟨i, -, hi⟩ := List.mem_map.mp hc
      rw [← hi]
      exact (hat _).1
    · exact hlit c hc
  have hdigits : (hexPadded hash).map (fun c => c.setWidth 8) = convertEntryHashKeyToHexString hash := by
    rw [hexPadded, convertEntryHashKeyToHexString, List.map_map]
    apply List.map_congr_left
    intro i _
    exact (hat _).2
  rw [JString.utf8_ascii _ hascii, entryFileName, List.map_append, hdigits,
    getFilenameFromEntryFileKeyAndFileIndex, entryFileNameOf, if_pos rfl, List.append_assoc]
  rfl

/-- Among files of other entries, the one file of an entry the tool publishes is recovered by the browser
exactly as the entry that the tool's own update of the index would have given it. -/
theorem published_restored (c : ScanConfig) (hcache : c.appCache = false)
    (before after : List DirectoryEntry) (hasError : Bool) (f : DirectoryEntry) (hash : BitVec 64)
    (hc : c.hexStringToUInt64 (convertEntryHashKeyToHexString hash) = some hash) (file : Bytes)
    (hname : f.name = (entryFileName hash).utf8)
    (hsize : f.size = BitVec.ofNat 64 file.length)
    (honly : ∀ g ∈ before ++ after, fileHash c g ≠ some hash) :
    (syncRestoreFromDisk c (before ++ f :: after) hasError).1.entries.find hash =
      some (publishedMetadata c.base false hash (lastUsedTime c f) file.length) := by
  obtain ⟨-, hfind⟩ := scan_find c (before ++ f :: after) {} hash List.nodup_nil
  have hf : fileHash c f = some hash :=
    fileHash_name c f hash 0x30#8 hc (hname.trans (entryFileName_utf8 hash))
  have hfiles : filesOf c hash (before ++ f :: after) = [f] := by
    have hskip (l : List DirectoryEntry) (hl : ∀ g ∈ l, fileHash c g ≠ some hash) :
        filesOf c hash l = [] := by
      rw [filesOf, List.filter_eq_nil_iff]
      intro g hg
      simpa using hl g hg
    have h1 := hskip before fun g hg => honly g (by simp [hg])
    have h2 := hskip after fun g hg => honly g (by simp [hg])
    rw [filesOf] at h1 h2 ⊢
    simp [List.filter_append, h1, h2, hf]
  have hlt := file.length_lt'
  have hn : f.size.toNat = file.length := by
    rw [hsize, BitVec.toNat_ofNat]
    omega
  have h32 : (f.size.setWidth 32).toNat = file.length := by
    rw [BitVec.toNat_setWidth, hn]
    omega
  rw [syncRestoreFromDisk]
  simp only
  rw [hfind, hfiles, List.foldl_cons, List.foldl_nil]
  apply congrArg
  show withFile c f none = _
  simp only [withFile, hcache, checkedUInt32, if_pos (by omega : f.size.toNat < 2 ^ 32),
    Option.getD_some, setEntrySize_eq, h32, Bool.false_eq_true, if_false]
  obtain ⟨hchunks, hmem⟩ := loaded_packed c.base false true _
    (refreshed_valid hash (lastUsedTime c f) file.length hlt)
  apply metadata_ext
  · rfl
  · rw [publishedMetadata, hchunks, refreshed]
    simp only [EntryMetadata.setLastUsedTime, BitVec.toNat_ofNat]
    omega
  · rw [publishedMetadata, hmem]
    rfl

theorem published_restored_small :
    (syncRestoreFromDisk smallScan
        ([hugeDirectoryEntry] ++ smallDirectoryEntry :: [strayDirectoryEntry]) false).1.entries.find
        0x0123456789abcdef#64 =
      some (publishedMetadata smallScan.base false 0x0123456789abcdef#64
        (lastUsedTime smallScan smallDirectoryEntry) (Bytes.length ⟨[1#8, 2#8, 3#8], by decide⟩)) :=
  published_restored smallScan rfl [hugeDirectoryEntry] [strayDirectoryEntry] false
    smallDirectoryEntry 0x0123456789abcdef#64 (by decide) ⟨[1#8, 2#8, 3#8], by decide⟩ rfl rfl
    (by decide)

/-! Startup. -/

theorem mem_keys_restored (c : ScanConfig) (files : List DirectoryEntry) (hasError : Bool)
    (hash : BitVec 64) : hash ∈ (syncRestoreFromDisk c files hasError).1.entries.keys ↔
      ∃ f ∈ files, fileHash c f = some hash := by
  obtain ⟨-, hfind⟩ := scan_find c files {} hash List.nodup_nil
  have hsome (fs : List DirectoryEntry) (m : EntryMetadata) :
      fs.foldl (fun m f => some (withFile c f m)) (some m) ≠ none := by
    induction fs generalizing m with
    | nil => simp
    | cons f fs ih => exact ih _
  have hnone : (filesOf c hash files).foldl (fun m f => some (withFile c f m)) none = none ↔
      filesOf c hash files = [] := by
    cases filesOf c hash files with
    | nil => simp
    | cons f fs => simpa using hsome fs _
  rw [← not_iff_not, ← find_eq_none]
  show (files.foldl (processEntryFile c) {}).entries.find hash = none ↔ _
  rw [hfind]
  show (filesOf c hash files).foldl (fun m f => some (withFile c f m)) none = none ↔ _
  rw [hnone, filesOf, List.filter_eq_nil_iff]
  simp

/-- Calls around one load load once. -/
theorem loadsOnce_around (fileHashes : Set (BitVec 64)) (entries : EntrySet) (flush : Bool)
    (early late : List IndexEvent) (hnd : entries.keys.Nodup)
    (hk : ∀ h, h ∈ entries.keys ↔ h ∈ fileHashes)
    (hcalls : ∀ e ∈ early ++ late, e.isMerge = false) :
    LoadsOnce fileHashes false (early ++ .mergeInitializingSet entries flush :: late) := by
  have hlate (es : List IndexEvent) (hes : ∀ e ∈ es, e.isMerge = false) (loaded : Bool) :
      LoadsOnce fileHashes loaded es := by
    induction es generalizing loaded with
    | nil => trivial
    | cons e es ih =>
      have hrest := ih (fun x hx => hes x (by simp [hx])) loaded
      have hm := hes e (by simp)
      cases e with
      | mergeInitializingSet _ _ => exact Bool.noConfusion hm
      | _ => exact hrest
  induction early with
  | nil => exact ⟨rfl, hnd, hk, hlate late (fun e he => hcalls e (by simp [he])) true⟩
  | cons e early ih =>
    have hrest := ih fun x hx => hcalls x (by
      rw [List.cons_append]
      exact List.mem_cons_of_mem _ hx)
    have hm := hcalls e (by simp)
    cases e with
    | mergeInitializingSet _ _ => exact Bool.noConfusion hm
    | _ => exact hrest

/-- A browser that starts without a fresh index file, damaged, old or missing, comes to know exactly the
entries that the directory has files of, as the calls before and after change them. -/
theorem startup_known (ci : IndexConfig) (c : ScanConfig) (indexFile : Option (List Byte))
    (readOk : Bool) (mtime : BitVec 64) (files : List DirectoryEntry) (o : LoadOutcome)
    (ho : (syncLoadIndexEntries c indexFile readOk mtime files false).1 = o)
    (hstale : o.initMethod ≠ .loaded) (early late : List IndexEvent)
    (hcalls : ∀ e ∈ early ++ late, e.isMerge = false)
    (hkept : (SimpleIndex.after ci (early ++
      .mergeInitializingSet o.result.entries o.flushRequired :: late)).doomed = []) (h : BitVec 64) :
    (SimpleIndex.after ci (early ++
        .mergeInitializingSet o.result.entries o.flushRequired :: late)).has h = true ↔
      h ∈ (early ++ late).foldl (fun hashes e => SimpleIndex.applyEvent hashes (e, []))
        {x | ∃ f ∈ files, fileHash c f = some x} := by
  have hresult : o.result = (syncRestoreFromDisk c files false).1 := by
    rw [← ho, syncLoadIndexEntries] at hstale ⊢
    simp only at hstale ⊢
    by_cases hf : (syncLoadFromDisk c.base c.appCache indexFile readOk).1.didLoad = true ∧
        mtime.toInt ≤
          ((syncLoadFromDisk c.base c.appCache indexFile readOk).1.cacheLastModified.getD 0#64).toInt
    · rw [if_pos hf] at hstale
      exact absurd rfl hstale
    · rw [if_neg hf]
  obtain ⟨hnd, -⟩ := scan_find c files {} 0#64 List.nodup_nil
  have hload := loadsOnce_around {x | ∃ f ∈ files, fileHash c f = some x} o.result.entries
    o.flushRequired early late (by rw [hresult]; exact hnd)
    (fun x => by rw [hresult]; exact mem_keys_restored c files false x) hcalls
  have hmerge (x : Set (BitVec 64)) :
      SimpleIndex.applyEvent x (.mergeInitializingSet o.result.entries o.flushRequired, []) = x := by
    ext y
    simp [SimpleIndex.applyEvent, IndexEvent.added, IndexEvent.gone]
  rw [SimpleIndex.has_iff_view ci _ _ hload (by simp [IndexEvent.isMerge]),
    SimpleIndex.after_view ci _ _ hload hkept]
  simp only [List.foldl_append, List.foldl_cons, hmerge]

/-- Two entries and a stray file. -/
def smallDirectory : List DirectoryEntry :=
  [secondDirectoryEntry, hugeDirectoryEntry, strayDirectoryEntry, smallDirectoryEntry]

/-- The start with a damaged index file. -/
def smallLoad : LoadOutcome :=
  (syncLoadIndexEntries smallScan (some [1#8]) true 0#64 smallDirectory false).1

theorem startup_known_small :
    (SimpleIndex.after SimpleIndex.smallConfig ([.remove 0xfedcba9876543210#64] ++
        .mergeInitializingSet smallLoad.result.entries smallLoad.flushRequired ::
        [.insert 7#64 13400000000000000#64])).has 0xfedcba9876543210#64 = true ↔
      0xfedcba9876543210#64 ∈ ([IndexEvent.remove 0xfedcba9876543210#64] ++
          [IndexEvent.insert 7#64 13400000000000000#64]).foldl
        (fun hashes e => SimpleIndex.applyEvent hashes (e, []))
        {x | ∃ f ∈ smallDirectory, fileHash smallScan f = some x} :=
  startup_known SimpleIndex.smallConfig smallScan (some [1#8]) true 0#64 smallDirectory smallLoad rfl
    (by decide) [.remove 0xfedcba9876543210#64] [.insert 7#64 13400000000000000#64]
    (by simp [IndexEvent.isMerge]) (by decide) 0xfedcba9876543210#64

end SimpleCacheTool.Chromium
