import SimpleCacheTool.Chromium.WriteRun
import SimpleCacheTool.Entry.Stream2

namespace SimpleCacheTool.Chromium

open Fallible Segments LittleEndian SimpleCacheFormat

/-! The end records that `Close` writes. -/

/-- A record as the tool reads it. -/
def SimpleFileEOF.toEof (e : SimpleFileEOF) : Eof where
  magic := e.finalMagicNumber
  flags := e.flags
  crc32 := e.dataCrc32
  streamSize := e.streamSize
  padding := e.unusedPadding

/-- A record that names one of the three streams and knows its checksum, or none. -/
structure CRCRecord.Right (r : CRCRecord) (s : Streams) : Prop where
  index : r.index ≤ 2
  crc : r.hasCrc32 → r.dataCrc32 = crc32Of (s.stream r.index)

namespace SimpleSynchronousEntry

theorem closeEof_flags (stat : FullEntryStat) (r : CRCRecord) :
    (closeEof stat r).toEof.hasCrc32 = r.hasCrc32 ∧
    ((closeEof stat r).toEof.hasKeySha256 = true ↔ r.index = 0) := by
  simp only [Eof.hasCrc32, Eof.hasKeySha256, SimpleFileEOF.toEof, closeEof, flagHasCrc32,
    flagHasKeySha256]
  cases r.hasCrc32 <;> by_cases h : r.index = 0 <;> simp [h]

theorem closeEof_closes (s : Streams) (r : CRCRecord) (hr : r.Right s) (h0 : s.stream0.length < 2 ^ 31) :
    Closes (closeEof s.stat r).toEof (s.stream r.index) := by
  refine ⟨rfl, ?_, ?_⟩
  · intro hf
    rw [(closeEof_flags s.stat r).1] at hf
    exact (hr.crc hf).symm
  · change (if r.index = 0 then BitVec.ofInt 32 (s.stream0.length : Int) else 0#32).toNat < 2 ^ 31
    split_ifs
    · rw [BitVec.ofInt_natCast, BitVec.toNat_ofNat]
      omega
    · decide

/-- Stream 0's checksum is computed when it is not known. -/
theorem completeRecord_right (s : Streams) (stream0Data : List Byte) (r : CRCRecord) (hr : r.Right s)
    (hs : stream0Data.take s.stream0.length = s.stream0) :
    (completeRecord stream0Data s.stat r).Right s ∧
      (completeRecord stream0Data s.stat r).index = r.index := by
  rw [completeRecord]
  split_ifs with h
  · refine ⟨⟨hr.index, fun _ => ?_⟩, rfl⟩
    have ht : (s.stat.dataSize 0).toNat = s.stream0.length := Int.toNat_natCast _
    rw [ht, hs, h.1]
    rfl
  · exact ⟨hr, rfl⟩

end SimpleSynchronousEntry

/-! The three kinds of records written. -/

theorem front_length (hdr : SimpleFileHeader) (key data : List Byte) :
    (hdr.bytes ++ key ++ data).length = 24 + key.length + data.length := by
  simp [Nat.add_assoc]

section Close

variable (key : List Byte) (s : Streams) (owed : Set Nat) (file : List Byte) (e : Eof)

/-- Stream 1's record goes right behind its data. -/
theorem tracks0_eof1 (h : Tracks0 key s.stream0 s.stream1 owed file) (he : Closes e s.stream1) :
    Tracks0 key s.stream0 s.stream1 (owed \ {1})
      (Extents.writeAt 0 file (24 + key.length + s.stream1.length) e.bytes) := by
  obtain ⟨hdr, hn, hp⟩ := h.front
  have hlen := front_length hdr key s.stream1
  have hge := hp.length_le
  refine ⟨⟨hdr, hn, Extents.prefix_writeAt 0 _ _ _ _ hp hlen.le⟩, fun _ => ⟨e, he, ?_⟩, ?_⟩
  · have hw := Extents.seg_writeAt 0 file e.bytes (24 + key.length + s.stream1.length)
    rwa [e.bytes_length] at hw
  · intro h0
    obtain ⟨e0, sha, hc, hd⟩ := h.eof0 (fun hm => h0 ⟨hm, by simp⟩)
    refine ⟨e0, sha, hc, ?_⟩
    have hw := Extents.drop_writeAt 0 file e.bytes (24 + key.length + s.stream1.length) (by omega)
    have ho : 24 + key.length + s.stream1.length + e.bytes.length =
        48 + key.length + s.stream1.length := by
      rw [e.bytes_length]
      omega
    rw [ho] at hw
    rw [hw, hd]

/-- Stream 0 and its record end the file. -/
theorem tracks0_eof0 (sha : Bytes) (h : Tracks0 key s.stream0 s.stream1 owed file)
    (he : ClosesFile e (some sha) key s.stream0) :
    Tracks0 key s.stream0 s.stream1 (owed \ {0})
      (Extents.resize 0 file (48 + key.length + s.stream1.length) ++
        (s.stream0 ++ (sha.list ++ e.bytes))) := by
  obtain ⟨hdr, hn, hp⟩ := h.front
  have hlen := front_length hdr key s.stream1
  have hr := Extents.resize_length 0 file (48 + key.length + s.stream1.length)
  refine ⟨⟨hdr, hn, ?_⟩, ?_, fun _ => ⟨e, some sha, he, ?_⟩⟩
  · exact (Extents.prefix_resize 0 _ _ _ hp (by omega)).trans (List.prefix_append _ _)
  · intro h1
    obtain ⟨e1, hc, hs⟩ := h.eof1 (fun hm => h1 ⟨hm, by simp⟩)
    refine ⟨e1, hc, ?_⟩
    have hl : 24 + key.length + s.stream1.length + 24 ≤ file.length := by
      have hsl := congrArg List.length hs
      rw [e1.bytes_length, seg, List.length_take, List.length_drop] at hsl
      omega
    rw [seg_append_left _ _ _ _ (by omega), Extents.seg_resize 0 _ _ _ _ hl (by omega), hs]
  · exact List.drop_left' hr

/-- Stream 2's record ends its file. -/
theorem tracks2_eof2 (data : List Byte) (h : Tracks2 key data owed file) (he : Closes e data) :
    Tracks2 key data (owed \ {2})
      (Extents.writeAt 0 file (24 + key.length + data.length) e.bytes) := by
  obtain ⟨hdr, hn, hp⟩ := h.front
  have hlen := front_length hdr key data
  have hge := hp.length_le
  have hne : e.bytes ≠ [] := List.ne_nil_of_length_pos (by rw [e.bytes_length]; omega)
  have hl := Extents.writeAt_length 0 file e.bytes (24 + key.length + data.length) hne
  have hmax := h.length
  rw [e.bytes_length] at hl
  refine ⟨⟨hdr, hn, Extents.prefix_writeAt 0 _ _ _ _ hp hlen.le⟩, by omega, fun _ => ⟨e, he, ?_⟩⟩
  have hw := Extents.seg_writeAt 0 file e.bytes (24 + key.length + data.length)
  rwa [seg, List.take_of_length_le] at hw
  rw [List.length_drop, e.bytes_length]
  omega

end Close

namespace SimpleSynchronousEntry

theorem writeStream0_eq (file key stream0Data : List Byte) (s : Streams) (hs : s.Fits)
    (hk : key.length < 2 ^ 31) (ht : stream0Data.take s.stream0.length = s.stream0) :
    writeStream0 file key stream0Data s.stat =
      .ok (Extents.resize 0 file (48 + key.length + s.stream1.length) ++
        (s.stream0 ++ sha256Of key)) := by
  have h0 := hs.stream0
  have h1 := hs.stream1
  have hoff := s.getOffset_stream0 hs key.length 0 hk (by decide)
  have hd : s.stat.dataSize 0 = (s.stream0.length : Int) := rfl
  have hsha : int64 (((48 + key.length + s.stream1.length + 0 : Nat) : Int) + s.stream0.length) =
      ((48 + key.length + s.stream1.length + s.stream0.length : Nat) : Int) :=
    int64_nat _ _ (by omega) (by omega)
  have heof := s.getEOFOffset_stat hs key.length 0 (by decide) hk
  have hend : s.eofOffset key.length 0 =
      48 + key.length + s.stream1.length + s.stream0.length + (sha256Of key).length := by
    rw [sha256Of_length, Streams.eofOffset, if_pos rfl]
    omega
  rw [hend] at heof
  rw [writeStream0]
  change (writeAndCheck file (s.stat.getOffsetInFile key.length ((0 : Nat) : Int) 0) _ >>= _) = _
  rw [hoff, hd, Int.toNat_natCast, ht, writeAndCheck_nat _ _ _ _ rfl, ok_bind]
  change (writeAndCheck _ (int64 (s.stat.getOffsetInFile key.length ((0 : Nat) : Int) 0 + _)) _ >>= _) = _
  rw [hoff, hsha, writeAndCheck_nat _ _ _ _ rfl, ok_bind, setLength_nat _ _ _ heof,
    Extents.resize_writeAt, Nat.add_zero, Extents.resize_writeAt, List.append_assoc]

/-- The record for stream 1 or 2 is all that is written. -/
theorem closeFile_data (file key stream0Data : List Byte) (s : Streams) (r : CRCRecord) (hs : s.Fits)
    (hk : key.length < 2 ^ 31) (hi : r.index = 1 ∨ r.index = 2) :
    closeFile file key stream0Data s.stat r =
      .ok (Extents.writeAt 0 file (24 + key.length + (s.stream r.index).length)
        (closeEof s.stat (completeRecord stream0Data s.stat r)).toEof.bytes) := by
  have hi0 : ¬r.index = 0 := by omega
  have heof := s.getEOFOffset_stat hs key.length r.index (by omega) hk
  rw [Streams.eofOffset, if_neg hi0] at heof
  rw [closeFile, if_neg hi0]
  exact writeAndCheck_nat _ _ _ _ heof

theorem closeFile_stream0 (file key stream0Data : List Byte) (s : Streams) (r : CRCRecord)
    (hs : s.Fits) (hk : key.length < 2 ^ 31) (ht : stream0Data.take s.stream0.length = s.stream0)
    (hi : r.index = 0) :
    closeFile file key stream0Data s.stat r =
      .ok (Extents.resize 0 file (48 + key.length + s.stream1.length) ++ (s.stream0 ++ (sha256Of key ++
        (closeEof s.stat (completeRecord stream0Data s.stat r)).toEof.bytes))) := by
  have heof := s.getEOFOffset_stat hs key.length 0 (by decide) hk
  have hend : s.eofOffset key.length 0 =
      (Extents.resize 0 file (48 + key.length + s.stream1.length) ++
        (s.stream0 ++ sha256Of key)).length := by
    rw [List.length_append, List.length_append, Extents.resize_length, sha256Of_length,
      Streams.eofOffset, if_pos rfl]
    omega
  rw [closeFile, if_pos hi, writeStream0_eq file key stream0Data s hs hk ht]
  change writeAndCheck _ (s.stat.getEOFOffsetInFile key.length r.index) _ = _
  rw [hi, writeAndCheck_nat _ _ _ _ heof, hend, Extents.writeAt_end, List.append_assoc,
    List.append_assoc]
  rfl

theorem closeStream_some (stat : FullEntryStat) (stream0Data file file' : List Byte)
    (e : SimpleSynchronousEntry) (r : CRCRecord) (i : FileIndex)
    (hi : getFileIndexFromStreamIndex r.index = i) (hf : e.files i = some file)
    (hc : closeFile file e.key stream0Data stat r = .ok file') :
    closeStream stat stream0Data e r = .ok (e.setFile i file') := by
  subst hi
  rw [closeStream]
  simp only [hf, hc, ok_bind]

theorem setFile_files (e : SimpleSynchronousEntry) (i : FileIndex) (file : List Byte) :
    (e.setFile i file).files i = some file := Function.update_self _ _ _

theorem tracks_setFile0 (e : SimpleSynchronousEntry) (key file : List Byte) (s : Streams)
    (owed owed' : Set Nat) (h : Tracks key s owed e) (ht : Tracks0 key s.stream0 s.stream1 owed' file)
    (h2 : 2 ∈ owed → 2 ∈ owed') : Tracks key s owed' (e.setFile 0 file) := by
  refine ⟨h.key_eq, ⟨file, setFile_files e 0 file, ht⟩, h.noFile1, ?_⟩
  intro data hd
  obtain ⟨f, hf, hf2⟩ := h.file1 data hd
  exact ⟨f, hf, hf2.mono h2⟩

theorem tracks_setFile1 (e : SimpleSynchronousEntry) (key data file : List Byte) (s : Streams)
    (owed owed' : Set Nat) (h : Tracks key s owed e) (hs : s.stream2 = some data)
    (ht : Tracks2 key data owed' file) (h0 : 0 ∈ owed → 0 ∈ owed') (h1 : 1 ∈ owed → 1 ∈ owed') :
    Tracks key s owed' (e.setFile 1 file) := by
  obtain ⟨f, hf, hf0⟩ := h.file0
  refine ⟨h.key_eq, ⟨f, hf, hf0.mono h0 h1⟩, ?_, ?_⟩
  · intro hn
    rw [hs] at hn
    cases hn
  · intro d hd
    rw [hs] at hd
    obtain rfl := Option.some.inj hd
    exact ⟨file, setFile_files e 1 file, ht⟩

/-- A round of `Close` settles what is owed to its stream. -/
theorem tracks_closeStream (e : SimpleSynchronousEntry) (stream0Data key : List Byte) (s : Streams)
    (owed : Set Nat) (r : CRCRecord) (hr : r.Right s) (hs : s.Fits) (hk : key.length < 2 ^ 31)
    (ht : stream0Data.take s.stream0.length = s.stream0) (h : Tracks key s owed e) :
    ∃ e', closeStream s.stat stream0Data e r = .ok e' ∧ Tracks key s (owed \ {r.index}) e' := by
  obtain ⟨hright, hindex⟩ := completeRecord_right s stream0Data r hr ht
  have hcloses := closeEof_closes s _ hright hs.stream0
  obtain ⟨-, hflag⟩ := closeEof_flags s.stat (completeRecord stream0Data s.stat r)
  rw [hindex] at hcloses hflag
  have hle := hr.index
  have hkey := h.key_eq
  obtain hi | hi | hi : r.index = 0 ∨ r.index = 1 ∨ r.index = 2 := by omega
  · obtain ⟨file, hf, htrack⟩ := h.file0
    have hc := closeFile_stream0 file key stream0Data s r hs hk ht hi
    rw [← hkey] at hc
    refine ⟨_, closeStream_some _ _ file _ e r 0 (by rw [hi]; rfl) hf hc, ?_⟩
    rw [hi] at hcloses ⊢
    have hsize : s.stream0.length =
        (closeEof s.stat (completeRecord stream0Data s.stat r)).toEof.streamSize.toNat := by
      change _ = (if (completeRecord stream0Data s.stat r).index = 0 then
        BitVec.ofInt 32 (s.stream0.length : Int) else 0#32).toNat
      have h0 := hs.stream0
      rw [if_pos (hindex.trans hi), BitVec.ofInt_natCast, BitVec.toNat_ofNat]
      omega
    have hsha : (sha256Of key).length < 2 ^ 31 := by
      rw [sha256Of_length]
      decide
    refine tracks_setFile0 e key _ s owed _ h ?_ fun h2 => ⟨h2, by simp⟩
    rw [hkey]
    exact tracks0_eof0 key s owed file _ ⟨sha256Of key, hsha⟩ htrack
      ⟨hcloses, hsize, (hflag.mpr hi).symm, fun x hx => by rw [← Option.some.inj hx]⟩
  · obtain ⟨file, hf, htrack⟩ := h.file0
    have hc := closeFile_data file key stream0Data s r hs hk (.inl hi)
    rw [← hkey] at hc
    refine ⟨_, closeStream_some _ _ file _ e r 0 (by rw [hi]; rfl) hf hc, ?_⟩
    rw [hi] at hcloses ⊢
    refine tracks_setFile0 e key _ s owed _ h ?_ fun h2 => ⟨h2, by simp⟩
    rw [hkey]
    exact tracks0_eof1 key s owed file _ htrack hcloses
  · cases hs2 : s.stream2 with
    | none =>
      -- without a file there is nothing to close
      have hnone : e.files (getFileIndexFromStreamIndex r.index) = none := by
        rw [hi]
        exact h.noFile1 hs2
      obtain ⟨f, hf, hf0⟩ := h.file0
      refine ⟨e, by rw [closeStream]; simp only [hnone], hkey,
        ⟨f, hf, hf0.mono (fun h0 => ⟨h0, by simp [hi]⟩) fun h1 => ⟨h1, by simp [hi]⟩⟩, h.noFile1, ?_⟩
      intro data hd
      rw [hs2] at hd
      cases hd
    | some data =>
      obtain ⟨file, hf, htrack⟩ := h.file1 data hs2
      have hc := closeFile_data file key stream0Data s r hs hk (.inr hi)
      rw [← hkey] at hc
      have hstream : s.stream 2 = data := by
        rw [Streams.stream, hs2]
        rfl
      refine ⟨_, closeStream_some _ _ file _ e r 1 (by rw [hi]; rfl) hf hc, ?_⟩
      rw [hi, hstream] at hcloses
      rw [hi, hstream, hkey]
      exact tracks_setFile1 e key data _ s owed _ h hs2 (tracks2_eof2 key owed file _ data htrack hcloses)
        (fun h0 => ⟨h0, by simp⟩) fun h1 => ⟨h1, by simp⟩

/-- What no record settles is still owed when the records are written. -/
theorem tracks_closeStreams (records : List CRCRecord) (stream0Data key : List Byte) (s : Streams)
    (hr : ∀ r ∈ records, r.Right s) (hs : s.Fits) (hk : key.length < 2 ^ 31)
    (ht : stream0Data.take s.stream0.length = s.stream0) (e : SimpleSynchronousEntry)
    (owed : Set Nat) (h : Tracks key s owed e) :
    ∃ e', run (closeStream s.stat stream0Data) e records = .ok e' ∧
      Tracks key s (owed \ {i | ∃ r ∈ records, r.index = i}) e' := by
  induction records generalizing e owed with
  | nil =>
    refine ⟨e, rfl, ?_⟩
    have ho : owed \ {i | ∃ r ∈ ([] : List CRCRecord), r.index = i} = owed := by simp
    rw [ho]
    exact h
  | cons r records ih =>
    obtain ⟨e1, he1, h1⟩ := tracks_closeStream e stream0Data key s owed r (hr r (by simp)) hs hk ht h
    obtain ⟨e', he', h'⟩ := ih (fun x hx => hr x (by simp [hx])) e1 _ h1
    refine ⟨e', by rw [run, he1, ok_bind, he'], ?_⟩
    have ho : (owed \ {r.index}) \ {i | ∃ r ∈ records, r.index = i} =
        owed \ {i | ∃ x ∈ r :: records, x.index = i} := by
      ext i
      simp only [Set.mem_sdiff, Set.mem_singleton_iff, Set.mem_ofPred_eq]
      grind
    rw [← ho]
    exact h'

/-- With every record written, `Close` leaves the files as they are then. -/
theorem close_tracks (e : SimpleSynchronousEntry) (records : List CRCRecord)
    (stream0Data key : List Byte) (s : Streams) (owed : Set Nat) (hr : ∀ r ∈ records, r.Right s)
    (hs : s.Fits) (hk : key.length < 2 ^ 31) (ht : stream0Data.take s.stream0.length = s.stream0)
    (h : Tracks key s owed e) (ho : ∀ i ∈ owed, ∃ r ∈ records, r.index = i) :
    ∃ e', e.close s.stat records stream0Data = .ok e'.files ∧ Tracks key s ∅ e' := by
  obtain ⟨e1, he1, h1⟩ := tracks_closeStreams records stream0Data key s hr hs hk ht e owed h
  have hnone : owed \ {i | ∃ r ∈ records, r.index = i} = ∅ := Set.sdiff_eq_empty.mpr ho
  rw [hnone] at h1
  have hcheck (x : SimpleSynchronousEntry) (i : FileIndex) (hx : Tracks key s ∅ x) :
      ∃ x', x.ensureHeaderAndKey i = .ok x' ∧ x'.files = x.files ∧ Tracks key s ∅ x' := by
    obtain ⟨x', hok, hkey, hfiles⟩ := x.ensureHeaderAndKey_ok i (hx.key_eq ▸ hk) (hx.names i)
    exact ⟨x', hok, hfiles, hkey.trans hx.key_eq, hfiles ▸ hx.file0, hfiles ▸ hx.noFile1,
      hfiles ▸ hx.file1⟩
  obtain ⟨e2, he2, hf2, h2⟩ := hcheck e1 0 h1
  obtain ⟨e3, he3, hf3, h3⟩ := hcheck e2 1 h2
  refine ⟨e3, ?_, h3⟩
  rw [close, he1, ok_bind, he2, ok_bind, he3, ok_bind]

end SimpleSynchronousEntry

/-! Closed files. -/

theorem split_front (hdr : SimpleFileHeader) (key data file : List Byte)
    (hp : hdr.bytes ++ key ++ data <+: file) :
    hdr.bytes ++ key ++ data ++ (seg file (24 + key.length + data.length) 24 ++
      file.drop (48 + key.length + data.length)) = file := by
  have hl := front_length hdr key data
  have hoff : 48 + key.length + data.length = 24 + key.length + data.length + 24 := by omega
  rw [hoff, seg_drop, List.prefix_iff_eq_take.mp hp, hl, List.take_append_drop]

/-- The file of streams 0 and 1 has the layout that both readers go by. -/
theorem entryFile_of_tracks0 (key : Bytes) (s : Streams) (file : List Byte)
    (h : Tracks0 key.list s.stream0 s.stream1 ∅ file)
    (hfit : 104 + key.length + s.stream1.length + s.stream0.length < 2 ^ 31) :
    ∃ f : EntryFile, Accepted f ∧ f.toBytes.list = file ∧ f.key = key ∧
      f.stream0.list = s.stream0 ∧ f.stream1.list = s.stream1 := by
  obtain ⟨hdr, hn, hp⟩ := h.front
  obtain ⟨e1, hc1, hseg⟩ := h.eof1 (Set.notMem_empty 1)
  obtain ⟨e0, sha, hc0, hdrop⟩ := h.eof0 (Set.notMem_empty 0)
  have hsha (x : Bytes) (hx : x ∈ sha) : x.length = 32 := by
    rw [Bytes.length, hc0.sha_eq x hx, sha256Of_length]
  have hshale : (shaBytes sha).length ≤ 32 := by
    cases sha with
    | none => exact Nat.zero_le _
    | some x => exact (hsha x rfl).le
  have h0 : s.stream0.length < 2 ^ 31 := by omega
  have h1 : s.stream1.length < 2 ^ 31 := by omega
  let f : EntryFile :=
    { version := hdr.version, keyHash := hdr.keyHash, headerPadding := hdr.unusedPadding, key
      stream1 := ⟨s.stream1, h1⟩, eof1 := e1, stream0 := ⟨s.stream0, h0⟩, keySha256 := sha, eof0 := e0
      eof1_magic := hc1.magic, eof0_magic := hc0.magic, stream0_length := hc0.length
      sha_flag := hc0.sha_flag, sha_length := hsha
      fits := by
        change 72 + key.length + s.stream1.length + s.stream0.length + (shaBytes sha).length < 2 ^ 31
        omega }
  have hheader : f.header = hdr.bytes := by
    rw [SimpleFileHeader.bytes, SimpleFileHeader.fields, hn.magic, hn.keyLength]
    rfl
  have hfile := split_front hdr key.list s.stream1 file hp
  rw [hseg, hdrop] at hfile
  refine ⟨f, ⟨hn.version, hn.keyHash.symm, hc1.crc, hc0.crc, ?_, hc1.size⟩, ?_, rfl, rfl, rfl⟩
  · intro x hx
    exact (hc0.sha_eq x hx).symm
  · rw [← hfile]
    change f.pieces.flatten = _
    rw [EntryFile.pieces, hheader]
    simp only [List.flatten_cons, List.flatten_nil, List.append_nil, List.append_assoc]
    rfl

end SimpleCacheTool.Chromium
