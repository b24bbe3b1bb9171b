import SimpleCacheTool.Chromium.OpenEntry

namespace SimpleCacheTool.Chromium

open Fallible Segments SimpleCacheFormat

/-- The browser opens the file with its key unknown, every check passes, and the key and the
streams are those of the entry. -/
def Opens (d : Bytes) (e : SimpleCacheEntry) : Prop :=
  ∀ full trailer, ∃ o, initializeForOpen d.list none full trailer = .ok o ∧
    e.key.map Bytes.list = some o.key ∧ o.entryStat.dataSize 0 = e.stream0.length ∧
    o.entryStat.dataSize 1 = e.stream1.length ∧
    o.stream0.data.take e.stream0.length = e.stream0.list ∧
    (∀ s1, o.stream1 = some s1 → s1.data = e.stream1.list) ∧
    checkEOFRecord d.list o 1 (crc32 e.stream1.list) = .ok () ∧
    readData d.list o 0 e.stream1.length 0#32 = .ok e.stream1.list

theorem opens_of_accepted (f : EntryFile) (h : Accepted f) (verify : Bool) :
    Opens f.toBytes (f.parsed verify) := by
  intro full trailer
  obtain ⟨o, hopen, ho⟩ := initializeForOpen_toBytes f h none (.inl rfl) full trailer
  have hp : (f.parsed verify).stream0 = f.stream0 ∧ (f.parsed verify).stream1 = f.stream1 ∧
      (f.parsed verify).key = some f.key := by
    cases verify with
    | false => exact ⟨rfl, rfl, rfl⟩
    | true => exact ⟨rfl, rfl, rfl⟩
  rw [hp.1, hp.2.1, hp.2.2]
  refine ⟨o, hopen, by rw [ho.key]; rfl, by rw [ho.stat]; rfl, by rw [ho.stat]; rfl, ?_, ?_,
    checkEOFRecord_toBytes f h o ho, readData_toBytes f h o ho⟩
  · rw [ho.stream0]
    exact List.take_left
  · intro s1 hs1
    rw [ho.stream1 s1 hs1]

/-- An entry without warnings meets all the browser's conditions but two. -/
theorem accepted_of_problems (f : EntryFile) (hw : f.unverified.problems f.key = [])
    (hv : f.version = entryVersion) (hz : f.eof1.streamSize.toNat < 2 ^ 31) : Accepted f := by
  obtain ⟨hk, hc1, hc0, hsha⟩ := (SimpleCacheEntry.problems_eq_nil _ _).mp hw
  refine ⟨hv, hk, hc1, hc0, ?_, hz⟩
  intro sha hs
  have hflag : f.eof0.hasKeySha256 = true := by
    rw [← f.sha_flag, hs]
    rfl
  exact congrArg Bytes.list (hsha sha hs hflag)

/-- The version is checked before anything is read of the key. -/
theorem checkHeaderAndKey_version (f : EntryFile) (hv : f.version ≠ entryVersion) :
    checkHeaderAndKey f.toBytes.list none = .error .badVersion := by
  have hlen := f.toBytes_length
  have hl : f.toBytes.length = f.toBytes.list.length := rfl
  have h24 : 24 ≤ headerDataSize none := by decide
  have hlong : ¬(seg f.toBytes.list 0 (min (headerDataSize none) f.toBytes.list.length)).length <
      sizeofSimpleFileHeader := by
    rw [seg_length _ _ _ (by omega), sizeofSimpleFileHeader]
    omega
  have hmagic : ¬SimpleCacheFormat.initialMagic ≠ kSimpleInitialMagicNumber := not_not.mpr rfl
  have hversion : f.version ≠ kSimpleEntryVersionOnDisk := hv
  unfold checkHeaderAndKey
  simp only [read_min]
  rw [throwIf_bind_of_not _ _ _ hlong, headerOfBytes_seg _ _ (by omega), headerOfBytes_toBytes,
    throwIf_bind_of_not _ _ _ hmagic, throwIf_bind_of _ _ _ hversion]

/-- A record whose stream size has the sign bit is refused, whatever the stream. -/
theorem getEOFRecordData_big (file : List Byte) (p : PrefetchData) (off : Int) (offset : Nat) (e : Eof)
    (ho : off = offset) (hp : p.Of file) (hf : offset + 24 ≤ file.length)
    (hs : seg file offset 24 = e.bytes) (hm : e.magic = finalMagic) (hz : 2 ^ 31 ≤ e.streamSize.toNat) :
    getEOFRecordData file p off = .error .failed := by
  have hr := readFromFileOrPrefetched_in file p off offset 24 ho hp hf
  have hm' : ¬(SimpleFileEOF.ofEof e).finalMagicNumber ≠ kSimpleFinalMagicNumber := not_not.mpr hm
  have hz' : 2 ^ 31 ≤ (SimpleFileEOF.ofEof e).streamSize.toNat := hz
  rw [getEOFRecordData, sizeofSimpleFileEOF, hr, hs]
  simp only [ofBytes_bytes]
  rw [throwIf_bind_of_not _ _ _ hm', throwIf_bind_of _ _ _ hz']

theorem version_of_opens (f : EntryFile) (e : SimpleCacheEntry) (h : Opens f.toBytes e) :
    f.version = entryVersion := by
  by_contra hv
  obtain ⟨o, hopen, -⟩ := h 0#32 0#32
  rw [initializeForOpen, checkHeaderAndKey_version f hv] at hopen
  cases hopen

theorem eof1_size_of_opens (f : EntryFile) (h : Opens f.toBytes (f.parsed true)) :
    f.eof1.streamSize.toNat < 2 ^ 31 := by
  by_contra hz
  obtain ⟨o, -, hkey, h0, h1, -, -, hcheck, -⟩ := h 0#32 0#32
  have hlen := f.toBytes_length
  have hl : f.toBytes.length = f.toBytes.list.length := rfl
  have hk : o.key = f.key.list := (Option.some.inj hkey).symm
  have hstat : o.entryStat = statOf f := by
    cases hs : o.entryStat with
    | mk s0 s1 =>
      rw [hs] at h0 h1
      change s0 = _ at h0
      change s1 = _ at h1
      rw [h0, h1]
      rfl
  have hbig := getEOFRecordData_big f.toBytes.list {} _ _ f.eof1 (offsets_statOf f).2.2 (of_empty _)
    (by omega) f.seg_eof1 f.eof1_magic (by omega)
  rw [checkEOFRecord, hk, hstat] at hcheck
  change (getEOFRecordData _ _ ((statOf f).getEOFOffsetInFile f.key.length 1) >>= _) = _ at hcheck
  rw [hbig, error_bind] at hcheck
  cases hcheck

end SimpleCacheTool.Chromium

namespace SimpleCacheTool.SimpleCacheEntry

open SimpleCacheFormat Chromium

/-- A file parsed without warnings is one the browser opens with the same contents exactly when two
fields that `parse` reads and does not check are right: the version and the size in stream 1's
record. -/
theorem opens_iff (d : Bytes) (e : SimpleCacheEntry) (h : parse d true = .ok e)
    (hw : e.warnings = []) :
    Opens d e ↔ e.version = entryVersion ∧ e.eof1.streamSize.toNat < 2 ^ 31 := by
  obtain ⟨f, rfl, rfl⟩ := (parse_eq_ok d true e).mp h
  constructor
  · intro ho
    exact ⟨version_of_opens f _ ho, eof1_size_of_opens f ho⟩
  · rintro ⟨hv, hz⟩
    exact opens_of_accepted f (accepted_of_problems f hw hv hz) true

theorem opens_iff_small : Opens smallFile.toBytes (smallFile.parsed true) ↔
    (smallFile.parsed true).version = entryVersion ∧
      (smallFile.parsed true).eof1.streamSize.toNat < 2 ^ 31 :=
  opens_iff smallFile.toBytes _ (smallFile.parse_toBytes true)
    (smallEntry.file_problems smallKey true (by decide))

/-- The small file in an older version of the format. -/
def oldFile : EntryFile := { smallFile with version := 4#32 }

theorem oldFile_not_opened : ¬∀ (d : Bytes) (e : SimpleCacheEntry), parse d true = .ok e →
    e.warnings = [] → Opens d e := by
  intro h
  have ho := h oldFile.toBytes _ (oldFile.parse_toBytes true)
    (smallEntry.file_problems smallKey true (by decide))
  exact absurd (version_of_opens oldFile _ ho) (by decide)

end SimpleCacheTool.SimpleCacheEntry
