import SimpleCacheTool.Chromium.SynchronousEntry
import SimpleCacheTool.Entry.RoundTrip

namespace SimpleCacheTool.Chromium

open Fallible Segments LittleEndian SimpleCacheFormat

theorem int64_nat (x : Int) (n : Nat) (hx : x = n) (hn : n < 2 ^ 63) : int64 x = n := by
  rw [hx]
  unfold int64
  omega

/-- The prefetched bytes are a stretch of the file. -/
structure PrefetchData.Of (p : PrefetchData) (file : List Byte) : Prop where
  inside : p.offsetInFile + p.buffer.length ≤ file.length
  bytes_eq : p.buffer = seg file p.offsetInFile p.buffer.length

theorem of_empty (file : List Byte) : PrefetchData.Of {} file :=
  ⟨Nat.zero_le _, (seg_zero file 0).symm⟩

theorem readAndCheck_in (file : List Byte) (offset size : Nat) (h : offset + size ≤ file.length) :
    readAndCheck file offset size = some (seg file offset size) := by
  have hc : 0 ≤ (offset : Int) ∧ (offset : Int) + size ≤ file.length := by omega
  rw [readAndCheck, if_pos hc, Int.toNat_natCast]

/-- Where a read is served from makes no difference. -/
theorem readFromFileOrPrefetched_in (file : List Byte) (p : PrefetchData) (off : Int)
    (offset size : Nat) (ho : off = offset) (hp : p.Of file) (h : offset + size ≤ file.length) :
    readFromFileOrPrefetched file p off size = some (seg file offset size) := by
  subst ho
  have h0 : ¬(offset : Int) < 0 := by omega
  rw [readFromFileOrPrefetched, if_neg h0, Int.toNat_natCast]
  split_ifs with hz
  · rw [hz, seg_zero]
  · rw [PrefetchData.readData, if_neg hz]
    cases hd : p.hasData offset size with
    | false => exact readAndCheck_in file offset size h
    | true =>
      have hr := of_decide_eq_true hd
      have hs : seg p.buffer (offset - p.offsetInFile) size = seg file offset size := by
        rw [hp.bytes_eq, seg_seg _ _ _ _ _ (by omega)]
        congr 1
        omega
      simp only [if_true, hs]

theorem prefetchFromFile_in (file : List Byte) (offset length : Nat)
    (h : offset + length ≤ file.length) :
    ∃ p, PrefetchData.prefetchFromFile {} file offset length = .ok p ∧ p.Of file := by
  refine ⟨⟨seg file offset length, offset⟩, ?_, ?_, ?_⟩
  · rw [PrefetchData.prefetchFromFile, if_neg (not_not.mpr rfl), readAndCheck_in file offset length h]
  · rw [seg_length file offset length h]
    exact h
  · rw [seg_length file offset length h]

theorem prefetch_of (file : List Byte) (full trailer : BitVec 32) :
    ∃ p, prefetch file full trailer = .ok p ∧ p.Of file := by
  rw [prefetch]
  split_ifs
  · exact prefetchFromFile_in file 0 file.length (by omega)
  · exact prefetchFromFile_in file _ _ (by omega)
  · exact ⟨{}, rfl, of_empty file⟩

/-- The browser's view of a record of the file. -/
def SimpleFileEOF.ofEof (e : Eof) : SimpleFileEOF where
  finalMagicNumber := e.magic
  flags := e.flags
  dataCrc32 := e.crc32
  streamSize := e.streamSize
  unusedPadding := e.padding

theorem ofBytes_bytes (e : Eof) : SimpleFileEOF.ofBytes e.bytes = .ofEof e := by
  have hs : seg e.bytes 0 24 = e.bytes := by
    rw [← e.bytes_length, seg_full]
  have h : SimpleFileEOF.ofBytes e.bytes = .ofEof (Eof.ofBytes e.bytes 0) := by
    simp only [SimpleFileEOF.ofBytes, SimpleFileEOF.ofEof, Eof.ofBytes, Nat.zero_add]
  rw [h, Eof.ofBytes_of_seg e.bytes 0 e hs]

theorem getEOFRecordData_in (file : List Byte) (p : PrefetchData) (off : Int) (offset : Nat) (e : Eof)
    (ho : off = offset) (hp : p.Of file) (hf : offset + 24 ≤ file.length)
    (hs : seg file offset 24 = e.bytes) (hm : e.magic = finalMagic) (hz : e.streamSize.toNat < 2 ^ 31) :
    getEOFRecordData file p off = .ok (.ofEof e) := by
  have hr := readFromFileOrPrefetched_in file p off offset 24 ho hp hf
  have hm' : ¬(SimpleFileEOF.ofEof e).finalMagicNumber ≠ kSimpleFinalMagicNumber := not_not.mpr hm
  have hz' : ¬2 ^ 31 ≤ (SimpleFileEOF.ofEof e).streamSize.toNat := Nat.not_le.mpr hz
  rw [getEOFRecordData, sizeofSimpleFileEOF, hr, hs]
  simp only [ofBytes_bytes]
  rw [throwIf_bind_of_not _ _ _ hm', throwIf_bind_of_not _ _ _ hz']

/-- The sizes the browser computes for a file. -/
def statOf (f : EntryFile) : SimpleEntryStat where
  dataSize0 := f.stream0.length
  dataSize1 := f.stream1.length

theorem offsets_statOf (f : EntryFile) :
    (statOf f).getOffsetInFile f.key.length 0 0 =
      ((48 + f.key.length + f.stream1.length : Nat) : Int) ∧
    (statOf f).getOffsetInFile f.key.length 0 1 = ((24 + f.key.length : Nat) : Int) ∧
    (statOf f).getEOFOffsetInFile f.key.length 1 =
      ((24 + f.key.length + f.stream1.length : Nat) : Int) := by
  have hf := f.fits
  have hk : int64 ((24 : Nat) + (f.key.length : Int)) = ((24 + f.key.length : Nat) : Int) :=
    int64_nat _ _ (by omega) (by omega)
  have hn : int64 ((f.stream1.length : Int) + (24 : Nat)) = ((f.stream1.length + 24 : Nat) : Int) :=
    int64_nat _ _ (by omega) (by omega)
  have h1 : int64 (((24 + f.key.length : Nat) : Int) + f.stream1.length + 0) =
      ((24 + f.key.length + f.stream1.length : Nat) : Int) := int64_nat _ _ (by omega) (by omega)
  simp only [SimpleEntryStat.getEOFOffsetInFile, SimpleEntryStat.getOffsetInFile,
    SimpleEntryStat.dataSize, statOf, sizeofSimpleFileHeader, sizeofSimpleFileEOF, hk, hn, h1, if_true,
    if_neg Nat.one_ne_zero]
  refine ⟨int64_nat _ _ ?_ ?_, int64_nat _ _ ?_ ?_, int64_nat _ _ ?_ ?_⟩ <;> omega

theorem ofEof_hasKeySha256 (e : Eof) : (SimpleFileEOF.ofEof e).hasKeySha256 = e.hasKeySha256 := by
  have h : e.flags &&& 2#32 = if e.flags.getLsbD 1 then 2#32 else 0#32 :=
    BitVec.and_twoPow e.flags 1
  rw [SimpleFileEOF.hasKeySha256, Eof.hasKeySha256, flagHasKeySha256]
  change (e.flags &&& 2#32 == 2#32) = _
  rw [h]
  split_ifs <;> decide

theorem preReadStreamPayload_in (file : List Byte) (p : PrefetchData) (keyLength i extra : Nat)
    (s : SimpleEntryStat) (e : Eof) (size off : Nat) (hsize : s.dataSize i = size)
    (hoff : s.getOffsetInFile keyLength 0 i = off) (hp : p.Of file)
    (hf : off + (size + extra) ≤ file.length) (hlt : size + extra < 2 ^ 31)
    (hcrc : e.hasCrc32 → crc32Of (seg file off size) = e.crc32) :
    preReadStreamPayload file p keyLength i extra s (.ofEof e) =
      .ok ⟨seg file off (size + extra), crc32Of (seg file off size)⟩ := by
  have hbig : ¬((size : Int) + extra > 2 ^ 31 - 1 ∨ (size : Int) < 0) := by omega
  have hsum : ((size : Int) + extra).toNat = size + extra := by omega
  have hr := readFromFileOrPrefetched_in file p (s.getOffsetInFile keyLength 0 i) off (size + extra)
    hoff hp hf
  have htake : (seg file off (size + extra)).take size = seg file off size := by
    have h := seg_seg file off (size + extra) 0 size (by omega)
    simpa [seg] using h
  have hc : ¬((SimpleFileEOF.ofEof e).hasCrc32 ∧
      (SimpleFileEOF.ofEof e).dataCrc32 ≠ crc32 (seg file off size)) := by
    rintro ⟨hflag, hne⟩
    exact hne (hcrc hflag).symm
  simp only [preReadStreamPayload, hsize]
  rw [throwIf_bind_of_not _ _ _ hbig, hsum, hr]
  simp only [Int.toNat_natCast, htake]
  rw [throwIf_bind_of_not _ _ _ hc]
  rfl

/-! The header and the key. -/

theorem read_min (file : List Byte) (size : Nat) :
    read file 0 size = seg file 0 (min size file.length) := by
  rw [read, seg, seg, List.drop_zero]
  by_cases h : size ≤ file.length
  · rw [min_eq_left h]
  · rw [min_eq_right (by omega), List.take_length, List.take_of_length_le (by omega)]

theorem extendHeader_in (file : List Byte) (m n : Nat) (hm : m ≤ file.length)
    (hn : n ≤ file.length) : extendHeader file (seg file 0 m) n = .ok (seg file 0 (max m n)) := by
  have hl : (seg file 0 m).length = m := seg_length file 0 m (by omega)
  rw [extendHeader, hl]
  split_ifs with h
  · have hj := seg_join file 0 m (n - m)
    rw [Nat.zero_add, Nat.add_sub_cancel' h.le] at hj
    rw [readAndCheck_in file m (n - m) (by omega), max_eq_right h.le]
    simp only [hj]
  · rw [max_eq_left (by omega)]

theorem headerOfBytes_seg (file : List Byte) (m : Nat) (h : 24 ≤ m) :
    SimpleFileHeader.ofBytes (seg file 0 m) = SimpleFileHeader.ofBytes file := by
  have hw (w off : Nat) (ho : off + w / 8 ≤ m) : wordAt w (seg file 0 m) off = wordAt w file off := by
    rw [wordAt_seg w file 0 m off ho, Nat.zero_add]
  simp only [SimpleFileHeader.ofBytes, hw 64 0 (by omega), hw 32 8 (by omega), hw 32 12 (by omega),
    hw 32 16 (by omega), hw 32 20 (by omega)]

/-- What the browser requires of a file it opens, beyond the layout. -/
structure Accepted (f : EntryFile) : Prop where
  version : f.version = kSimpleEntryVersionOnDisk
  keyHash : persistentHash f.key.list = f.keyHash
  crc1 : f.eof1.hasCrc32 → crc32Of f.stream1.list = f.eof1.crc32
  crc0 : f.eof0.hasCrc32 → crc32Of f.stream0.list = f.eof0.crc32
  sha : ∀ sha, f.keySha256 = some sha → sha256Of f.key.list = sha.list
  eof1_size : f.eof1.streamSize.toNat < 2 ^ 31

theorem headerOfBytes_toBytes (f : EntryFile) : SimpleFileHeader.ofBytes f.toBytes.list =
    ⟨SimpleCacheFormat.initialMagic, f.version, BitVec.ofNat 32 f.key.length, f.keyHash,
      f.headerPadding⟩ := by
  obtain ⟨wm, wv, wk, wh, wp⟩ := f.header_words
  rw [SimpleFileHeader.ofBytes, wm, wv, wk, wh, wp]

/-- The header passes and gives the key, whether the key was known or not. -/
theorem checkHeaderAndKey_toBytes (f : EntryFile) (h : Accepted f) (key : Option (List Byte))
    (hkey : key = none ∨ key = some f.key.list) :
    checkHeaderAndKey f.toBytes.list key = .ok f.key.list := by
  have hlen := f.toBytes_length
  have hl : f.toBytes.length = f.toBytes.list.length := rfl
  have hkl := f.key.length_lt'
  have h24 : 24 ≤ headerDataSize key := by
    rcases hkey with rfl | rfl
    · decide
    · exact Nat.le_add_right 24 _
  have hmin : 24 ≤ min (headerDataSize key) f.toBytes.list.length := by omega
  have hlong : ¬(seg f.toBytes.list 0 (min (headerDataSize key) f.toBytes.list.length)).length <
      sizeofSimpleFileHeader := by
    rw [seg_length _ _ _ (by omega), sizeofSimpleFileHeader]
    omega
  have hk : (BitVec.ofNat 32 f.key.length).toNat = f.key.length := by
    rw [BitVec.toNat_ofNat, Nat.mod_eq_of_lt (by omega)]
  have hspan (m : Nat) (hm : 24 + f.key.length ≤ m) :
      seg (seg f.toBytes.list 0 m) sizeofSimpleFileHeader f.key.length = f.key.list := by
    rw [sizeofSimpleFileHeader, seg_seg _ _ _ _ _ hm, Nat.zero_add, f.seg_key]
  have hmagic : ¬SimpleCacheFormat.initialMagic ≠ kSimpleInitialMagicNumber := not_not.mpr rfl
  unfold checkHeaderAndKey
  simp only [read_min]
  rw [throwIf_bind_of_not _ _ _ hlong, headerOfBytes_seg _ _ hmin, headerOfBytes_toBytes]
  simp only [hk]
  rw [throwIf_bind_of_not _ _ _ hmagic, throwIf_bind_of_not _ _ _ (not_not.mpr h.version),
    extendHeader_in _ _ _ (by omega) (by rw [getHeaderSize, sizeofSimpleFileHeader]; omega), ok_bind,
    headerOfBytes_seg _ _ (by omega), headerOfBytes_toBytes]
  simp only [hk]
  rw [hspan _ (by rw [getHeaderSize, sizeofSimpleFileHeader]; omega),
    throwIf_bind_of_not _ _ _ (not_not.mpr h.keyHash)]
  rcases hkey with rfl | rfl
  · rfl
  · simp

/-! The streams. -/

theorem stream0_prefetched (f : EntryFile) (h : Accepted f) (p : PrefetchData)
    (hp : p.Of f.toBytes.list) :
    preReadStreamPayload f.toBytes.list p f.key.length 0 (shaBytes f.keySha256).length (statOf f)
      (.ofEof f.eof0) =
      .ok ⟨f.stream0.list ++ shaBytes f.keySha256, crc32Of f.stream0.list⟩ := by
  have hlen := f.toBytes_length
  have hl : f.toBytes.length = f.toBytes.list.length := rfl
  have hf := f.fits
  have hj : seg f.toBytes.list (48 + f.key.length + f.stream1.length)
      (f.stream0.length + (shaBytes f.keySha256).length) =
      f.stream0.list ++ shaBytes f.keySha256 := by
    rw [← seg_join, f.seg_stream0, f.seg_sha]
  have hr := preReadStreamPayload_in f.toBytes.list p f.key.length 0 (shaBytes f.keySha256).length
    (statOf f) f.eof0 f.stream0.length (48 + f.key.length + f.stream1.length) rfl
    (offsets_statOf f).1 hp (by omega) (by omega) (by rw [f.seg_stream0]; exact h.crc0)
  rw [hr, hj, f.seg_stream0]

theorem eof1_read (f : EntryFile) (h : Accepted f) (p : PrefetchData) (hp : p.Of f.toBytes.list) :
    getEOFRecordData f.toBytes.list p ((statOf f).getEOFOffsetInFile f.key.length 1) =
      .ok (.ofEof f.eof1) := by
  have hlen := f.toBytes_length
  have hl : f.toBytes.length = f.toBytes.list.length := rfl
  exact getEOFRecordData_in f.toBytes.list p _ _ f.eof1 (offsets_statOf f).2.2 hp (by omega) f.seg_eof1
    f.eof1_magic h.eof1_size

/-- Stream 1 is prefetched whole and checked, or not at all. -/
theorem readStream1_toBytes (f : EntryFile) (h : Accepted f) (p : PrefetchData)
    (hp : p.Of f.toBytes.list) (hasSha : Bool) :
    ∃ s, readStream1 f.toBytes.list p f.key.length hasSha (statOf f) = .ok s ∧
      ∀ s1, s = some s1 → s1 = ⟨f.stream1.list, crc32Of f.stream1.list⟩ := by
  have hlen := f.toBytes_length
  have hl : f.toBytes.length = f.toBytes.list.length := rfl
  have hf := f.fits
  have hr := preReadStreamPayload_in f.toBytes.list p f.key.length 1 0 (statOf f) f.eof1
    f.stream1.length (24 + f.key.length) rfl (offsets_statOf f).2.1 hp (by omega) (by omega)
    (by rw [f.seg_stream1]; exact h.crc1)
  rw [Nat.add_zero, f.seg_stream1] at hr
  simp only [readStream1]
  split_ifs
  · refine ⟨some ⟨f.stream1.list, crc32Of f.stream1.list⟩, ?_, fun s1 hs => (Option.some.inj hs).symm⟩
    rw [eof1_read f h p hp, ok_bind, hr, ok_bind]
  · exact ⟨none, rfl, fun s1 hs => by cases hs⟩

theorem validateKey_toBytes (f : EntryFile) (h : Accepted f) (needed : Bool) :
    validateKey f.toBytes.list f.key.list f.eof0.hasKeySha256 f.stream0.length
      ⟨f.stream0.list ++ shaBytes f.keySha256, crc32Of f.stream0.list⟩ needed = .ok false := by
  rw [validateKey]
  split_ifs with hflag hsha hneed
  · -- the checksum stored behind stream 0 is that of the key
    have hsome := f.sha_flag
    cases hs : f.keySha256 with
    | none =>
      rw [hs, hflag] at hsome
      cases hsome
    | some sha =>
      have hl : sha.list.length = 32 := f.sha_length sha (by simp [hs])
      have hseg : seg (f.stream0.list ++ sha.list) f.stream0.length 32 = sha.list := by
        have ha := seg_append_right f.stream0.list sha.list 0 32
        rw [Nat.add_zero, ← hl, seg_full] at ha
        rw [← hl]
        exact ha
      rw [hs] at hsha
      exact absurd ((h.sha sha hs).trans hseg.symm) hsha
  · rfl
  · rw [checkHeaderAndKey_toBytes f h _ (.inr rfl)]
  · rfl

/-- What an open yields: the key, the sizes and the streams of the file. -/
structure Opened (f : EntryFile) (o : OpenEntry) : Prop where
  key : o.key = f.key.list
  stat : o.entryStat = statOf f
  stream0 : o.stream0 = ⟨f.stream0.list ++ shaBytes f.keySha256, crc32Of f.stream0.list⟩
  stream1 : ∀ s1, o.stream1 = some s1 → s1 = ⟨f.stream1.list, crc32Of f.stream1.list⟩

/-- The sizes computed from the file size are those of the layout. -/
theorem readAndValidate_toBytes (f : EntryFile) (h : Accepted f) (needed : Bool)
    (full trailer : BitVec 32) :
    ∃ o, readAndValidateStream0AndMaybe1 f.toBytes.list f.key.list needed full trailer = .ok o ∧
      Opened f o := by
  have hlen := f.eof0Off_eq
  have hl : f.toBytes.length = f.toBytes.list.length := rfl
  have hf := f.fits
  have ho0 : int64 ((f.toBytes.list.length : Int) - sizeofSimpleFileEOF) = (f.eof0Off : Int) :=
    int64_nat _ _ (by rw [sizeofSimpleFileEOF]; omega) (by rw [EntryFile.eof0Off]; omega)
  obtain ⟨p, hpre, hp⟩ := prefetch_of f.toBytes.list full trailer
  have hz : f.eof0.streamSize.toInt = f.stream0.length := by
    have h0 := f.stream0.length_lt'
    rw [f.stream0_length] at h0 ⊢
    rw [BitVec.toInt_eq_toNat_cond]
    split_ifs <;> omega
  have heof0 := getEOFRecordData_in f.toBytes.list p _ f.eof0Off f.eof0 ho0 hp (by omega) f.seg_eof0
    f.eof0_magic (by rw [← f.stream0_length]; exact f.stream0.length_lt')
  obtain ⟨s1, hs1, h1⟩ := readStream1_toBytes f h p hp f.eof0.hasKeySha256
  have hx : (if f.eof0.hasKeySha256 then sizeofSHA256HashValue else 0) =
      (shaBytes f.keySha256).length := f.shaBytes_length.symm
  have hstream1 : int64 ((f.toBytes.list.length : Int) - 2 * sizeofSimpleFileEOF -
      (f.stream0.length : Int) - sizeofSimpleFileHeader - f.key.list.length -
      ((shaBytes f.keySha256).length : Nat)) = (f.stream1.length : Int) := by
    have hkl : f.key.list.length = f.key.length := rfl
    apply int64_nat
    · rw [sizeofSimpleFileEOF, sizeofSimpleFileHeader, EntryFile.eof0Off] at *
      omega
    · omega
  have c0 : ¬(f.stream0.length : Int) > (f.toBytes.list.length : Int) := by
    rw [EntryFile.eof0Off] at hlen
    omega
  have c1 : ¬((f.stream1.length : Int) < 0 ∨
      (f.stream1.length : Int) > (f.toBytes.list.length : Int)) := by
    rw [EntryFile.eof0Off] at hlen
    omega
  refine ⟨⟨f.key.list, statOf f, ⟨f.stream0.list ++ shaBytes f.keySha256, crc32Of f.stream0.list⟩, s1,
    false⟩, ?_, rfl, rfl, rfl, h1⟩
  have hz' : (SimpleFileEOF.ofEof f.eof0).streamSize.toInt = f.stream0.length := hz
  have hstat : SimpleEntryStat.mk (f.stream0.length : Int) (f.stream1.length : Int) = statOf f := rfl
  rw [readAndValidateStream0AndMaybe1, hpre, ok_bind, heof0, ok_bind, ofEof_hasKeySha256]
  simp only [hx, hz', hstream1, hstat]
  rw [throwIf_bind_of_not _ _ _ c0, throwIf_bind_of_not _ _ _ c1]
  change (preReadStreamPayload _ _ f.key.length _ _ _ _ >>= _) = _
  rw [stream0_prefetched f h p hp, ok_bind]
  change (readStream1 _ _ f.key.length _ _ >>= _) = _
  rw [hs1, ok_bind, validateKey_toBytes f h needed, ok_bind]

/-- The browser opens every such file, with its key known or not and whatever it prefetches. -/
theorem initializeForOpen_toBytes (f : EntryFile) (h : Accepted f) (key : Option (List Byte))
    (hkey : key = none ∨ key = some f.key.list) (full trailer : BitVec 32) :
    ∃ o, initializeForOpen f.toBytes.list key full trailer = .ok o ∧ Opened f o := by
  rcases hkey with rfl | rfl
  · rw [initializeForOpen, checkHeaderAndKey_toBytes f h none (.inl rfl)]
    exact readAndValidate_toBytes f h false full trailer
  · exact readAndValidate_toBytes f h true full trailer

theorem incrementalCrc32_start (data : List Byte) : incrementalCrc32 0#32 data = crc32Of data := rfl

theorem checkEOFRecord_toBytes (f : EntryFile) (h : Accepted f) (o : OpenEntry) (ho : Opened f o) :
    checkEOFRecord f.toBytes.list o 1 (crc32Of f.stream1.list) = .ok () := by
  have hc : ¬((SimpleFileEOF.ofEof f.eof1).hasCrc32 ∧
      (SimpleFileEOF.ofEof f.eof1).dataCrc32 ≠ crc32Of f.stream1.list) := by
    rintro ⟨hflag, hne⟩
    exact hne (h.crc1 hflag).symm
  rw [checkEOFRecord, ho.key, ho.stat]
  change (getEOFRecordData _ _ ((statOf f).getEOFOffsetInFile f.key.length 1) >>= _) = _
  rw [eof1_read f h {} (of_empty _), ok_bind, throwIf_of_not _ _ hc]

theorem readData_toBytes (f : EntryFile) (h : Accepted f) (o : OpenEntry) (ho : Opened f o) :
    readData f.toBytes.list o 0 f.stream1.length 0#32 = .ok f.stream1.list := by
  have hoff : o.entryStat.getOffsetInFile o.key.length 0 1 = ((24 + f.key.length : Nat) : Int) := by
    rw [ho.key, ho.stat]
    exact (offsets_statOf f).2.1
  have hcheck := checkEOFRecord_toBytes f h o ho
  have hhead := checkHeaderAndKey_toBytes f h (some o.key) (.inr (by rw [ho.key]))
  rw [readData]
  simp only [hhead, Nat.cast_zero, hoff, Int.toNat_natCast, read, f.seg_stream1,
    incrementalCrc32_start, hcheck]
  split_ifs <;> rfl

end SimpleCacheTool.Chromium

namespace SimpleCacheTool.SimpleCacheEntry

open Fallible SimpleCacheFormat Chromium

theorem file_accepted (e : SimpleCacheEntry) (key : Bytes) (w : Bool)
    (hv : e.version = entryVersion) (hs : e.writtenSize key w < 2 ^ 31) :
    Accepted (e.file key w hs) where
  version := hv
  keyHash := rfl
  crc1 := fun _ => rfl
  crc0 := fun _ => rfl
  sha := by
    intro sha hsha
    cases w with
    | false => cases hsha
    | true => exact congrArg Bytes.list (Option.some.inj hsha)
  eof1_size := by
    change (0#32).toNat < 2 ^ 31
    decide

/-- The browser opens what `serialize` writes, with every check passed and every byte in place. -/
theorem initializeForOpen_serialize (e : SimpleCacheEntry) (key : Bytes) (w : Bool)
    (full trailer : BitVec 32) (hk : e.key = some key)
    (hm : e.initialMagic = SimpleCacheFormat.initialMagic) (hv : e.version = entryVersion)
    (hs : e.writtenSize key w < 2 ^ 31) :
    ∃ out e', e.serialize w = .ok (out, e') ∧
      checkHeaderAndKey out.list none = .ok key.list ∧
      checkHeaderAndKey out.list (some key.list) = .ok key.list ∧
      ∀ known, known = none ∨ known = some key.list →
        ∃ o, initializeForOpen out.list known full trailer = .ok o ∧ o.key = key.list ∧
          o.entryStat.dataSize 0 = e.stream0.length ∧ o.entryStat.dataSize 1 = e.stream1.length ∧
          o.stream0.data.take e.stream0.length = e.stream0.list ∧
          (∀ s1, o.stream1 = some s1 → s1.data = e.stream1.list) ∧
          checkEOFRecord out.list o 1 (Chromium.crc32 e.stream1.list) = .ok () ∧
          readData out.list o 0 e.stream1.length 0#32 = .ok e.stream1.list := by
  have h := e.file_accepted key w hv hs
  refine ⟨_, _, e.serialize_file key w hk hm hs, checkHeaderAndKey_toBytes _ h none (.inl rfl),
    checkHeaderAndKey_toBytes _ h _ (.inr rfl), ?_⟩
  intro known hknown
  obtain ⟨o, hopen, ho⟩ := initializeForOpen_toBytes _ h known hknown full trailer
  refine ⟨o, hopen, ho.key, by rw [ho.stat]; rfl, by rw [ho.stat]; rfl, ?_, ?_,
    checkEOFRecord_toBytes _ h o ho, readData_toBytes _ h o ho⟩
  · rw [ho.stream0]
    exact List.take_left
  · intro s1 hs1
    rw [ho.stream1 s1 hs1]
    rfl

theorem initializeForOpen_serialize_small :
    ∃ out e', smallEntry.serialize true = .ok (out, e') ∧
      checkHeaderAndKey out.list none = .ok smallKey.list ∧
      checkHeaderAndKey out.list (some smallKey.list) = .ok smallKey.list ∧
      ∀ known, known = none ∨ known = some smallKey.list →
        ∃ o, initializeForOpen out.list known 32768#32 0#32 = .ok o ∧ o.key = smallKey.list ∧
          o.entryStat.dataSize 0 = smallEntry.stream0.length ∧
          o.entryStat.dataSize 1 = smallEntry.stream1.length ∧
          o.stream0.data.take smallEntry.stream0.length = smallEntry.stream0.list ∧
          (∀ s1, o.stream1 = some s1 → s1.data = smallEntry.stream1.list) ∧
          checkEOFRecord out.list o 1 (Chromium.crc32 smallEntry.stream1.list) = .ok () ∧
          readData out.list o 0 smallEntry.stream1.length 0#32 = .ok smallEntry.stream1.list :=
  initializeForOpen_serialize smallEntry smallKey true 32768#32 0#32 rfl rfl rfl (by decide)

end SimpleCacheTool.SimpleCacheEntry
