import SimpleCacheTool.Chromium.WriteEntry

namespace SimpleCacheTool.Chromium

open Fallible Segments LittleEndian SimpleCacheFormat

/-! The abstract entry: three streams. -/

/-- An entry's streams; stream 2 may have no file. -/
structure Streams where
  stream0 : List Byte := []
  stream1 : List Byte := []
  stream2 : Option (List Byte) := none

namespace Streams

/-- The sizes kept along with the streams. -/
def stat (s : Streams) : FullEntryStat where
  dataSize0 := s.stream0.length
  dataSize1 := s.stream1.length
  dataSize2 := (s.stream2.getD []).length

def stream (s : Streams) (streamIndex : Nat) : List Byte :=
  if streamIndex = 0 then s.stream0 else if streamIndex = 1 then s.stream1 else s.stream2.getD []

def setStream (s : Streams) (streamIndex : Nat) (data : List Byte) : Streams :=
  if streamIndex = 1 then { s with stream1 := data } else { s with stream2 := some data }

/-- Every stream's size is an int. -/
structure Fits (s : Streams) : Prop where
  stream0 : s.stream0.length < 2 ^ 31
  stream1 : s.stream1.length < 2 ^ 31
  stream2 : (s.stream2.getD []).length < 2 ^ 31

end Streams

/-- What happens to an open entry: a write to a file, or stream 0 replaced in memory, where the caller
keeps it up to the end. -/
inductive EntryOp where
  | writeData (op : WriteRequest)
  | setStream0 (data : List Byte)

namespace EntryOp

/-- The streams after an operation. -/
def apply (s : Streams) : EntryOp → Streams
  | .writeData op =>
    s.setStream op.index (Extents.put 0 (s.stream op.index) op.offset op.buf op.truncate)
  | .setStream0 data => { s with stream0 := data }

/-- The streams whose end records `Close` has to write anew: writing stream 1 moves stream 0. -/
def owes : EntryOp → List Nat
  | .writeData op => if op.index = 1 then [0, 1] else [2]
  | .setStream0 _ => [0]

/-- Requests name stream 1 or 2, lie within int range and do not come from a doomed entry. -/
def Fits : EntryOp → Prop
  | .writeData op =>
    (op.index = 1 ∨ op.index = 2) ∧ op.offset + op.buf.length < 2 ^ 31 ∧ op.doomed = false
  | .setStream0 data => data.length < 2 ^ 31

end EntryOp

/-- An open entry with the sizes and the stream 0 that its owner keeps. -/
structure Session where
  entry : SimpleSynchronousEntry
  stat : FullEntryStat
  stream0Data : List Byte

namespace Session

def step (t : Session) : EntryOp → Except WriteError Session
  | .writeData op => do
    let (entry, stat, _) ← t.entry.writeData op t.stat
    .ok { t with entry, stat }
  | .setStream0 data =>
    .ok { t with stat := t.stat.setDataSize 0 data.length, stream0Data := data }

def create (key : List Byte) : Session :=
  let (entry, stat) := SimpleSynchronousEntry.initializeForCreate key
  { entry, stat, stream0Data := [] }

def openFiles (files : FileIndex → Option (List Byte)) (key : Option (List Byte))
    (fullPrefetchSize trailerPrefetchSize : BitVec 32) : Except NetError Session := do
  let (entry, stat, stream0Data) ← SimpleSynchronousEntry.initializeForOpen files key
    fullPrefetchSize trailerPrefetchSize
  .ok { entry, stat, stream0Data }

def close (t : Session) (crc32sToWrite : List CRCRecord) :
    Except WriteError (FileIndex → Option (List Byte)) :=
  t.entry.close t.stat crc32sToWrite t.stream0Data

end Session

/-! The headers. -/

@[simp] theorem SimpleFileHeader.bytes_length (h : SimpleFileHeader) : h.bytes.length = 24 := by
  simp [SimpleFileHeader.bytes, SimpleFileHeader.fields]

theorem SimpleFileHeader.ofBytes_append (h : SimpleFileHeader) (rest : List Byte) :
    SimpleFileHeader.ofBytes (h.bytes ++ rest) = h := by
  have hs : seg (h.bytes ++ rest) 0 24 = h.bytes := seg_prefix _ _ _ h.bytes_length
  have hm := wordAt_of_tile 64 (h.bytes ++ rest) 0 h.initialMagicNumber rfl
    (seg_piece _ 0 24 [] _ (h.fields.drop 1) hs)
  have hv := wordAt_of_tile 32 (h.bytes ++ rest) 8 h.version rfl
    (by simpa [fields] using seg_piece _ 0 24 (h.fields.take 1) _ (h.fields.drop 2) hs)
  have hk := wordAt_of_tile 32 (h.bytes ++ rest) 12 h.keyLength rfl
    (by simpa [fields] using seg_piece _ 0 24 (h.fields.take 2) _ (h.fields.drop 3) hs)
  have hh := wordAt_of_tile 32 (h.bytes ++ rest) 16 h.keyHash rfl
    (by simpa [fields] using seg_piece _ 0 24 (h.fields.take 3) _ (h.fields.drop 4) hs)
  have hp := wordAt_of_tile 32 (h.bytes ++ rest) 20 h.unusedPadding rfl
    (by simpa [fields] using seg_piece _ 0 24 (h.fields.take 4) _ (h.fields.drop 5) hs)
  rw [SimpleFileHeader.ofBytes, hm, hv, hk, hh, hp]

/-- A header that names the key. -/
structure SimpleFileHeader.Names (h : SimpleFileHeader) (key : List Byte) : Prop where
  magic : h.initialMagicNumber = kSimpleInitialMagicNumber
  version : h.version = kSimpleEntryVersionOnDisk
  keyLength : h.keyLength = BitVec.ofNat 32 key.length
  keyHash : h.keyHash = persistentHash key

theorem newHeader_names (key : List Byte) : (newHeader key).Names key := ⟨rfl, rfl, rfl, rfl⟩

theorem initializeCreatedFile_eq (key : List Byte) :
    initializeCreatedFile key = (newHeader key).bytes ++ key := by
  have hw (l : List Byte) : Extents.writeAt (0 : Byte) [] 0 l = l := by
    have h := Extents.put_eq_writeAt (0 : Byte) [] l 0 (.inr le_rfl)
    rw [← h, Extents.put]
    simp
  have hl := Extents.writeAt_append (0 : Byte) (newHeader key).bytes [] key 0
  rw [SimpleFileHeader.bytes_length, List.append_nil, hw] at hl
  rw [initializeCreatedFile, hw]
  exact hl

/-- The check needs the header and the key alone. -/
theorem checkHeaderAndKey_front (h : SimpleFileHeader) (file key : List Byte) (hn : h.Names key)
    (hk : key.length < 2 ^ 31) (hp : h.bytes ++ key <+: file) :
    checkHeaderAndKey file (some key) = .ok key := by
  obtain ⟨rest, rfl⟩ := hp
  have hread : read (h.bytes ++ key ++ rest) 0 (headerDataSize (some key)) = h.bytes ++ key := by
    rw [read, headerDataSize, getHeaderSize, sizeofSimpleFileHeader]
    exact seg_prefix _ _ _ (by simp)
  have hlong : ¬(h.bytes ++ key).length < sizeofSimpleFileHeader := by
    simp [sizeofSimpleFileHeader]
  have hkl : h.keyLength.toNat = key.length := by
    rw [hn.keyLength, BitVec.toNat_ofNat, Nat.mod_eq_of_lt (by omega)]
  have hext : extendHeader (h.bytes ++ key ++ rest) (h.bytes ++ key) (getHeaderSize key.length) =
      .ok (h.bytes ++ key) := by
    rw [extendHeader, if_neg (by simp [getHeaderSize, sizeofSimpleFileHeader])]
  have hspan : seg (h.bytes ++ key) sizeofSimpleFileHeader key.length = key := by
    have hs := seg_at h.bytes key [] 24 key.length (by simp) rfl
    rwa [List.append_nil] at hs
  rw [checkHeaderAndKey]
  simp only [hread]
  rw [throwIf_bind_of_not _ _ _ hlong, SimpleFileHeader.ofBytes_append,
    throwIf_bind_of_not _ _ _ (not_not.mpr hn.magic),
    throwIf_bind_of_not _ _ _ (not_not.mpr hn.version), hkl, hext, ok_bind,
    SimpleFileHeader.ofBytes_append, hkl, hspan,
    throwIf_bind_of_not _ _ _ (not_not.mpr hn.keyHash.symm)]
  simp

/-! The sizes and offsets of an entry whose sizes are those of its streams. -/

namespace Streams

theorem fits_stream (s : Streams) (h : s.Fits) (i : Nat) : (s.stream i).length < 2 ^ 31 := by
  rw [stream]
  split_ifs
  exacts [h.stream0, h.stream1, h.stream2]

theorem dataSize_stat (s : Streams) (i : Nat) (hi : i = 1 ∨ i = 2) :
    s.stat.dataSize i = (s.stream i).length := by
  rcases hi with rfl | rfl <;> rfl

theorem setDataSize_stat (s : Streams) (i : Nat) (hi : i = 1 ∨ i = 2) (data : List Byte) :
    s.stat.setDataSize i data.length = (s.setStream i data).stat := by
  rcases hi with rfl | rfl <;> rfl

theorem fits_setStream (s : Streams) (h : s.Fits) (i : Nat) (data : List Byte)
    (hd : data.length < 2 ^ 31) : (s.setStream i data).Fits := by
  rw [setStream]
  split_ifs
  · exact ⟨h.stream0, hd, h.stream2⟩
  · exact ⟨h.stream0, h.stream1, hd⟩

/-- Streams 1 and 2 follow the key. -/
theorem getOffset_data (s : Streams) (k off i : Nat) (hi : i = 1 ∨ i = 2) (hk : k < 2 ^ 31)
    (ho : off < 2 ^ 31) : s.stat.getOffsetInFile k off i = ((24 + k + off : Nat) : Int) := by
  have hi0 : i ≠ 0 := by omega
  rw [SimpleEntryStat.getOffsetInFile, if_neg hi0, sizeofSimpleFileHeader]
  have h1 : int64 ((24 : Nat) + (k : Int)) = ((24 + k : Nat) : Int) :=
    int64_nat _ _ (by omega) (by omega)
  simp only [h1]
  exact int64_nat _ _ (by omega) (by omega)

/-- Stream 0 follows the record of stream 1. -/
theorem getOffset_stream0 (s : Streams) (h : s.Fits) (k off : Nat) (hk : k < 2 ^ 31)
    (ho : off < 2 ^ 31) :
    s.stat.getOffsetInFile k off 0 = ((48 + k + s.stream1.length + off : Nat) : Int) := by
  have h1 := h.stream1
  have hh : int64 ((24 : Nat) + (k : Int)) = ((24 + k : Nat) : Int) :=
    int64_nat _ _ (by omega) (by omega)
  have ha : int64 ((s.stream1.length : Int) + (24 : Nat)) = ((s.stream1.length + 24 : Nat) : Int) :=
    int64_nat _ _ (by omega) (by omega)
  rw [SimpleEntryStat.getOffsetInFile, if_pos rfl, sizeofSimpleFileHeader, sizeofSimpleFileEOF]
  change int64 (int64 ((24 : Nat) + (k : Int)) + off + int64 ((s.stream1.length : Int) + (24 : Nat))) = _
  rw [hh, ha]
  exact int64_nat _ _ (by omega) (by omega)

/-- Where a stream's record goes. -/
def eofOffset (s : Streams) (k i : Nat) : Nat :=
  if i = 0 then 80 + k + s.stream1.length + s.stream0.length else 24 + k + (s.stream i).length

theorem getEOFOffset_stat (s : Streams) (h : s.Fits) (k i : Nat) (hi : i ≤ 2) (hk : k < 2 ^ 31) :
    s.stat.getEOFOffsetInFile k i = (s.eofOffset k i : Int) := by
  have h0 := h.stream0
  have h1 := h.stream1
  have hs := s.fits_stream h i
  rcases Nat.eq_zero_or_pos i with rfl | hpos
  · have hd : s.stat.dataSize 0 = (s.stream0.length : Int) := rfl
    rw [FullEntryStat.getEOFOffsetInFile, if_pos rfl, hd, s.getOffset_stream0 h k _ hk h0,
      sizeofSHA256HashValue, eofOffset, if_pos rfl]
    exact int64_nat _ _ (by omega) (by omega)
  · have hi' : i = 1 ∨ i = 2 := by omega
    have hne : i ≠ 0 := by omega
    rw [FullEntryStat.getEOFOffsetInFile, if_neg hne, s.dataSize_stat i hi',
      s.getOffset_data k _ i hi' hk hs, eofOffset, if_neg hne]
    exact int64_nat _ _ (by omega) (by omega)

/-- Where the last record of a stream's file goes. -/
def lastEofOffset (s : Streams) (k i : Nat) : Nat := s.eofOffset k (if i = 1 then 0 else i)

theorem getLastEOFOffset_stat (s : Streams) (h : s.Fits) (k i : Nat) (hi : i = 1 ∨ i = 2)
    (hk : k < 2 ^ 31) : s.stat.getLastEOFOffsetInFile k i = (s.lastEofOffset k i : Int) := by
  rw [FullEntryStat.getLastEOFOffsetInFile, lastEofOffset]
  split_ifs
  · exact s.getEOFOffset_stat h k 0 (by omega) hk
  · exact s.getEOFOffset_stat h k i (by omega) hk

end Streams

theorem setLength_nat (file : List Byte) (off : Int) (n : Nat) (h : off = n) :
    setLength file off = .ok (Extents.resize 0 file n) := by
  rw [h, setLength, if_pos (Int.natCast_nonneg n), Int.toNat_natCast]

theorem writeAndCheck_nat (file data : List Byte) (off : Int) (n : Nat) (h : off = n) :
    writeAndCheck file off data = .ok (Extents.writeAt 0 file n data) := by
  rw [h, writeAndCheck, if_pos (Int.natCast_nonneg n), Int.toNat_natCast]

/-! One write. -/

namespace SimpleSynchronousEntry

/-- A check that is due passes where the header names the key, and changes neither key nor files. -/
theorem ensureHeaderAndKey_ok (e : SimpleSynchronousEntry) (i : FileIndex)
    (hk : e.key.length < 2 ^ 31)
    (hf : ∀ file, e.files i = some file →
      ∃ h : SimpleFileHeader, h.Names e.key ∧ h.bytes ++ e.key <+: file) :
    ∃ e', e.ensureHeaderAndKey i = .ok e' ∧ e'.key = e.key ∧ e'.files = e.files := by
  rw [ensureHeaderAndKey]
  cases hfile : e.files i with
  | none => exact ⟨e, rfl, rfl, rfl⟩
  | some file =>
    obtain ⟨h, hn, hp⟩ := hf file hfile
    simp only [checkHeaderAndKey_front h file e.key hn hk hp]
    split_ifs
    · exact ⟨_, rfl, rfl, rfl⟩
    · exact ⟨e, rfl, rfl, rfl⟩

section Write

variable (op : WriteRequest) (s : Streams) (k : Nat) (hop : (EntryOp.writeData op).Fits) (hs : s.Fits)
  (hk : k < 2 ^ 31)

include hop

theorem extending_iff : ((op.offset : Int) + op.buf.length > s.stat.dataSize op.index) ↔
    (s.stream op.index).length < op.offset + op.buf.length := by
  rw [s.dataSize_stat op.index hop.1]
  omega

include hs

theorem fits_apply : ((EntryOp.writeData op).apply s).Fits := by
  have hfit := s.fits_stream hs op.index
  have hlen := hop.2.1
  apply s.fits_setStream hs
  rw [Extents.put_length]
  split_ifs <;> omega

include hk

theorem pretruncate_eq (file : List Byte) :
    pretruncate file (decide ((op.offset : Int) + op.buf.length > s.stat.dataSize op.index))
      (s.stat.getEOFOffsetInFile k op.index) =
      .ok (if (s.stream op.index).length < op.offset + op.buf.length then
        Extents.resize 0 file (24 + k + (s.stream op.index).length) else file) := by
  have hi := hop.1
  have heof := s.getEOFOffset_stat hs k op.index (by omega) hk
  rw [Streams.eofOffset, if_neg (by omega : op.index ≠ 0)] at heof
  rw [pretruncate, setLength_nat _ _ _ heof]
  simp only [decide_eq_true_eq, extending_iff op s hop]
  split_ifs <;> rfl

omit hs in
theorem writeBuf_eq (file : List Byte) :
    writeBuf file (s.stat.getOffsetInFile k op.offset op.index) op.buf =
      .ok (Extents.writeAt 0 file (24 + k + op.offset) op.buf) := by
  have hlen := hop.2.1
  have hoff := s.getOffset_data k op.offset op.index hop.1 hk (by omega)
  rw [writeBuf, writeAndCheck_nat _ _ _ _ hoff]
  split_ifs with hb
  · rfl
  · rw [List.eq_nil_of_length_eq_zero (by omega : op.buf.length = 0), Extents.writeAt, if_pos rfl]

theorem resizeStream_eq (file : List Byte) :
    resizeStream file k op s.stat
      (decide ((op.offset : Int) + op.buf.length > s.stat.dataSize op.index)) =
      .ok (if op.truncate = false ∧
          (op.buf ≠ [] ∨ op.offset + op.buf.length ≤ (s.stream op.index).length) then file
        else Extents.resize 0 file (((EntryOp.writeData op).apply s).lastEofOffset k op.index),
        ((EntryOp.writeData op).apply s).stat) := by
  have hput := Extents.put_length (0 : Byte) (s.stream op.index) op.buf op.offset op.truncate
  have hstat (n : Int) (hn : n = ((Extents.put (0 : Byte) (s.stream op.index) op.offset op.buf
      op.truncate).length : Int)) : s.stat.setDataSize op.index n =
      ((EntryOp.writeData op).apply s).stat := by
    rw [hn, s.setDataSize_stat op.index hop.1]
    rfl
  have hlast := Streams.getLastEOFOffset_stat _ (fits_apply op s hop hs) k op.index hop.1 hk
  have hbuf : op.buf ≠ [] ↔ 0 < op.buf.length := List.length_pos_iff.symm
  have hkept : (¬op.truncate = true ∧ (0 < op.buf.length ∨
      ¬(s.stream op.index).length < op.offset + op.buf.length)) ↔ (op.truncate = false ∧
      (op.buf ≠ [] ∨ op.offset + op.buf.length ≤ (s.stream op.index).length)) := by
    rw [Bool.not_eq_true, hbuf, not_lt]
  rw [resizeStream]
  simp only [decide_eq_true_eq, extending_iff op s hop, hkept]
  split_ifs with hc
  · have hn : max (s.stat.dataSize op.index) ((op.offset : Int) + op.buf.length) =
        ((Extents.put (0 : Byte) (s.stream op.index) op.offset op.buf op.truncate).length : Int) := by
      rw [hput, hc.1, s.dataSize_stat op.index hop.1, if_neg Bool.false_ne_true]
      omega
    rw [hstat _ hn]
  · -- a stream that is cut, or only lengthened, ends where the request does
    have hn : (op.offset : Int) + op.buf.length = ((Extents.put (0 : Byte) (s.stream op.index)
        op.offset op.buf op.truncate).length : Int) := by
      rw [hput]
      split_ifs with ht
      · omega
      · rw [not_and_or, not_or] at hc
        rcases hc with hc | hc
        · exact absurd (Bool.eq_false_iff.mpr ht) hc
        · omega
    rw [hstat _ hn, setLength_nat _ _ _ hlast, ok_bind]

end Write

/-- What a write does to its file and to the sizes. -/
theorem writeData_eq (e : SimpleSynchronousEntry) (op : WriteRequest) (s : Streams)
    (file : List Byte) (hop : (EntryOp.writeData op).Fits) (hs : s.Fits)
    (hk : e.key.length < 2 ^ 31)
    (hfile : e.fileForWrite (getFileIndexFromStreamIndex op.index) op.doomed = .ok file)
    (hcheck : ∃ e', e.ensureHeaderAndKey (getFileIndexFromStreamIndex op.index) = .ok e' ∧
      e'.key = e.key ∧ e'.files = e.files) :
    ∃ e' crc, e.writeData op s.stat = .ok (e', ((EntryOp.writeData op).apply s).stat, crc) ∧
      e'.key = e.key ∧ e'.files = Function.update e.files (getFileIndexFromStreamIndex op.index)
        (some (Extents.store 0 file (24 + e.key.length) (s.stream op.index).length op.offset op.buf
          op.truncate (((EntryOp.writeData op).apply s).lastEofOffset e.key.length op.index))) := by
  obtain ⟨e', he, hkey, hfiles⟩ := hcheck
  have hfile' : e'.fileForWrite (getFileIndexFromStreamIndex op.index) op.doomed = .ok file := by
    rw [← hfile, fileForWrite, fileForWrite, hkey, hfiles]
  rw [writeData]
  simp only [he, ok_bind, hfile', hkey, pretruncate_eq op s _ hop hs hk, writeBuf_eq op s _ hop hk,
    resizeStream_eq op s _ hop hs hk]
  refine ⟨_, _, rfl, hkey, ?_⟩
  rw [setFile, hfiles]
  rfl

end SimpleSynchronousEntry

/-! What the files hold while the entry is open. -/

/-- An end record that a reader of the stream accepts. -/
structure Closes (e : Eof) (data : List Byte) : Prop where
  magic : e.magic = finalMagic
  crc : e.hasCrc32 → crc32Of data = e.crc32
  size : e.streamSize.toNat < 2 ^ 31

/-- The end of the first file: stream 0's record with the key's checksum before it, if it has one. -/
structure ClosesFile (e : Eof) (sha : Option Bytes) (key data : List Byte) : Prop
    extends Closes e data where
  length : data.length = e.streamSize.toNat
  sha_flag : sha.isSome = e.hasKeySha256
  sha_eq : ∀ x ∈ sha, x.list = sha256Of key

/-- The file of streams 0 and 1 while the records of the streams in `owed` are yet to be written. -/
structure Tracks0 (key stream0 stream1 : List Byte) (owed : Set Nat) (file : List Byte) : Prop where
  front : ∃ h : SimpleFileHeader, h.Names key ∧ h.bytes ++ key ++ stream1 <+: file
  eof1 : 1 ∉ owed → ∃ e : Eof, Closes e stream1 ∧
    seg file (24 + key.length + stream1.length) 24 = e.bytes
  eof0 : 0 ∉ owed → ∃ (e : Eof) (sha : Option Bytes), ClosesFile e sha key stream0 ∧
    file.drop (48 + key.length + stream1.length) = stream0 ++ (shaBytes sha ++ e.bytes)

/-- The file of stream 2, likewise. -/
structure Tracks2 (key data : List Byte) (owed : Set Nat) (file : List Byte) : Prop where
  front : ∃ h : SimpleFileHeader, h.Names key ∧ h.bytes ++ key ++ data <+: file
  length : file.length ≤ 48 + key.length + data.length
  eof2 : 2 ∉ owed → ∃ e : Eof, Closes e data ∧ file.drop (24 + key.length + data.length) = e.bytes

structure Tracks (key : List Byte) (s : Streams) (owed : Set Nat) (e : SimpleSynchronousEntry) :
    Prop where
  key_eq : e.key = key
  file0 : ∃ file, e.files 0 = some file ∧ Tracks0 key s.stream0 s.stream1 owed file
  noFile1 : s.stream2 = none → e.files 1 = none
  file1 : ∀ data, s.stream2 = some data → ∃ file, e.files 1 = some file ∧ Tracks2 key data owed file

theorem Tracks0.mono {key stream0 stream1 : List Byte} {owed owed' : Set Nat} {file : List Byte}
    (h : Tracks0 key stream0 stream1 owed file) (h0 : 0 ∈ owed → 0 ∈ owed')
    (h1 : 1 ∈ owed → 1 ∈ owed') : Tracks0 key stream0 stream1 owed' file :=
  ⟨h.front, fun hn => h.eof1 (mt h1 hn), fun hn => h.eof0 (mt h0 hn)⟩

theorem Tracks2.mono {key data : List Byte} {owed owed' : Set Nat} {file : List Byte}
    (h : Tracks2 key data owed file) (h2 : 2 ∈ owed → 2 ∈ owed') : Tracks2 key data owed' file :=
  ⟨h.front, h.length, fun hn => h.eof2 (mt h2 hn)⟩

theorem fileIndex_cases (i : FileIndex) : i = 0 ∨ i = 1 := by
  revert i
  decide

/-- Every file the entry has starts with a header that names the key. -/
theorem Tracks.names {key : List Byte} {s : Streams} {owed : Set Nat} {e : SimpleSynchronousEntry}
    (h : Tracks key s owed e) (i : FileIndex) (file : List Byte) (hf : e.files i = some file) :
    ∃ hdr : SimpleFileHeader, hdr.Names e.key ∧ hdr.bytes ++ e.key <+: file := by
  have hpre (data : List Byte) (hdr : SimpleFileHeader) (hp : hdr.bytes ++ key ++ data <+: file) :
      hdr.bytes ++ key <+: file := (List.prefix_append _ _).trans hp
  rw [h.key_eq]
  rcases fileIndex_cases i with rfl | rfl
  · obtain ⟨f, hf0, ht⟩ := h.file0
    obtain rfl := Option.some.inj (hf0.symm.trans hf)
    obtain ⟨hdr, hn, hp⟩ := ht.front
    exact ⟨hdr, hn, hpre _ hdr hp⟩
  · cases h2 : s.stream2 with
    | none =>
      rw [h.noFile1 h2] at hf
      cases hf
    | some data =>
      obtain ⟨f, hf1, ht⟩ := h.file1 data h2
      obtain rfl := Option.some.inj (hf1.symm.trans hf)
      obtain ⟨hdr, hn, hp⟩ := ht.front
      exact ⟨hdr, hn, hpre _ hdr hp⟩

/-- A session in which the files and sizes are those of the streams. -/
structure Session.Tracks (t : Session) (key : List Byte) (s : Streams) (owed : Set Nat) : Prop where
  entry : Chromium.Tracks key s owed t.entry
  stat : t.stat = s.stat
  stream0 : t.stream0Data.take s.stream0.length = s.stream0
  fits : s.Fits

theorem fileForWrite_some (e : SimpleSynchronousEntry) (i : FileIndex) (doomed : Bool)
    (file : List Byte) (h : e.files i = some file) : e.fileForWrite i doomed = .ok file := by
  rw [SimpleSynchronousEntry.fileForWrite, h]

/-- The file that a write finds, or is given, starts with the key and the stream. -/
theorem Tracks.fileForWrite {key : List Byte} {s : Streams} {owed : Set Nat}
    {e : SimpleSynchronousEntry} (h : Tracks key s owed e) (i : Nat) (hi : i = 1 ∨ i = 2) :
    ∃ (file : List Byte) (hdr : SimpleFileHeader),
      e.fileForWrite (getFileIndexFromStreamIndex i) false = .ok file ∧ hdr.Names key ∧
      hdr.bytes ++ key ++ s.stream i <+: file ∧
      (i = 2 → file.length ≤ 48 + key.length + (s.stream i).length) := by
  rcases hi with rfl | rfl
  · obtain ⟨file, hf, ht⟩ := h.file0
    obtain ⟨hdr, hn, hp⟩ := ht.front
    exact ⟨file, hdr, fileForWrite_some e 0 false file hf, hn, hp, by omega⟩
  · cases h2 : s.stream2 with
    | none =>
      have hs : s.stream 2 = [] := by
        rw [Streams.stream, h2]
        rfl
      have hf : e.fileForWrite 1 false = .ok (initializeCreatedFile key) := by
        rw [SimpleSynchronousEntry.fileForWrite, h.noFile1 h2, h.key_eq]
        rfl
      have hlen : ((newHeader key).bytes ++ key).length = 24 + key.length := by simp
      refine ⟨_, newHeader key, hf, newHeader_names key, ?_, ?_⟩
      · have he : (newHeader key).bytes ++ key ++ s.stream 2 = initializeCreatedFile key := by
          rw [initializeCreatedFile_eq, hs, List.append_nil]
        exact ⟨[], by rw [List.append_nil, he]⟩
      · intro _
        rw [initializeCreatedFile_eq, hlen]
        omega
    | some data =>
      obtain ⟨file, hf, ht⟩ := h.file1 data h2
      obtain ⟨hdr, hn, hp⟩ := ht.front
      have hs : s.stream 2 = data := by
        rw [Streams.stream, h2]
        rfl
      exact ⟨file, hdr, fileForWrite_some e 1 false file hf, hn, hs ▸ hp, fun _ => hs ▸ ht.length⟩

section Store

variable (key file buf : List Byte) (hdr : SimpleFileHeader) (off : Nat) (truncate : Bool)
  (owed : Set Nat) (hn : hdr.Names key)

include hn

/-- A write to stream 1 leaves both records of its file to be written. -/
theorem tracks0_store (stream0 stream1 : List Byte) (last : Nat)
    (hp : hdr.bytes ++ key ++ stream1 <+: file)
    (hlast : 24 + key.length + (off + buf.length) ≤ last) (h0 : 0 ∈ owed) (h1 : 1 ∈ owed) :
    Tracks0 key stream0 (Extents.put 0 stream1 off buf truncate) owed
      (Extents.store 0 file (24 + key.length) stream1.length off buf truncate last) := by
  have hpre : (hdr.bytes ++ key).length = 24 + key.length := by simp
  rw [← hpre] at hlast ⊢
  exact ⟨⟨hdr, hn, Extents.store_prefix 0 _ _ _ _ _ _ _ hp hlast⟩, fun h => absurd h1 h,
    fun h => absurd h0 h⟩

theorem tracks2_store (data : List Byte) (hp : hdr.bytes ++ key ++ data <+: file)
    (hl : file.length ≤ 48 + key.length + data.length) (h2 : 2 ∈ owed) :
    Tracks2 key (Extents.put 0 data off buf truncate) owed
      (Extents.store 0 file (24 + key.length) data.length off buf truncate
        (24 + key.length + (Extents.put 0 data off buf truncate).length)) := by
  have hpre : (hdr.bytes ++ key).length = 24 + key.length := by simp
  have hroom : off + buf.length ≤ (Extents.put 0 data off buf truncate).length := by
    rw [Extents.put_length]
    split_ifs <;> omega
  have hlen := Extents.store_length_le (0 : Byte) (hdr.bytes ++ key) data file buf off 24 truncate hp
    (by omega)
  rw [← hpre]
  refine ⟨⟨hdr, hn, Extents.store_prefix 0 _ _ _ _ _ _ _ hp (by omega)⟩, by omega,
    fun h => absurd h2 h⟩

end Store

/-- A write to a file rewrites the stream there and leaves the other file. -/
theorem tracks_writeData (t : Session) (op : WriteRequest) (key : List Byte) (s : Streams)
    (owed : Set Nat) (hop : (EntryOp.writeData op).Fits) (hk : key.length < 2 ^ 31)
    (h : t.Tracks key s owed) :
    ∃ t', t.step (.writeData op) = .ok t' ∧ t'.Tracks key ((EntryOp.writeData op).apply s)
      (owed ∪ {i | i ∈ (EntryOp.writeData op).owes}) := by
  obtain ⟨file, hdr, hfile, hn, hp, hl⟩ := h.entry.fileForWrite op.index hop.1
  rw [← hop.2.2] at hfile
  obtain ⟨e', crc, hw, hkey, hfiles⟩ := t.entry.writeData_eq op s file hop h.fits
    (h.entry.key_eq ▸ hk) hfile
    (t.entry.ensureHeaderAndKey_ok _ (h.entry.key_eq ▸ hk) (h.entry.names _))
  have hfits := SimpleSynchronousEntry.fits_apply op s hop h.fits
  refine ⟨{ t with entry := e', stat := ((EntryOp.writeData op).apply s).stat }, ?_, ?_⟩
  · rw [Session.step, h.stat, hw, ok_bind]
  rw [h.entry.key_eq] at hfiles hkey
  obtain ⟨index, off, buf, prev, truncate, doomed, request⟩ := op
  rcases hop.1 with rfl | rfl
  · -- both records of the first file are behind the data
    have h0 : 0 ∈ owed ∪ {i | i ∈ [0, 1]} := .inr (by simp)
    have h1 : 1 ∈ owed ∪ {i | i ∈ [0, 1]} := .inr (by simp)
    have hroom : off + buf.length ≤ (Extents.put 0 s.stream1 off buf truncate).length := by
      rw [Extents.put_length]
      split_ifs <;> omega
    refine ⟨⟨hkey, ⟨_, by rw [hfiles]; exact Function.update_self _ _ _, ?_⟩, ?_, ?_⟩, rfl, ?_, hfits⟩
    · refine tracks0_store key file buf hdr off truncate _ hn s.stream0 s.stream1 _ hp ?_ h0 h1
      change 24 + key.length + (off + buf.length) ≤
        80 + key.length + (Extents.put 0 s.stream1 off buf truncate).length + s.stream0.length
      omega
    · intro h2
      rw [hfiles]
      exact h.entry.noFile1 h2
    · intro data h2
      obtain ⟨f, hf, ht⟩ := h.entry.file1 data h2
      exact ⟨f, by rw [hfiles]; exact hf, ht.mono .inl⟩
    · exact h.stream0
  · obtain ⟨f, hf, ht⟩ := h.entry.file0
    have h2 : 2 ∈ owed ∪ {i | i ∈ [2]} := .inr (by simp)
    refine ⟨⟨hkey, ⟨f, by rw [hfiles]; exact hf, ht.mono .inl .inl⟩, ?_, ?_⟩, rfl, ?_,
      hfits⟩
    · intro hnone
      cases hnone
    · intro data hdata
      obtain rfl := Option.some.inj hdata
      refine ⟨_, by rw [hfiles]; exact Function.update_self _ _ _, ?_⟩
      exact tracks2_store key file buf hdr off truncate _ hn _ hp (hl rfl) h2
    · exact h.stream0

/-- Stream 0 replaced in memory leaves its place in the file to be written. -/
theorem tracks_setStream0 (t : Session) (data key : List Byte) (s : Streams) (owed : Set Nat)
    (hop : (EntryOp.setStream0 data).Fits) (h : t.Tracks key s owed) :
    ∃ t', t.step (.setStream0 data) = .ok t' ∧ t'.Tracks key ((EntryOp.setStream0 data).apply s)
      (owed ∪ {i | i ∈ (EntryOp.setStream0 data).owes}) := by
  obtain ⟨f, hf, ht⟩ := h.entry.file0
  have h0 : 0 ∈ owed ∪ {i | i ∈ [0]} := .inr (by simp)
  refine ⟨_, rfl, ⟨h.entry.key_eq, ⟨f, hf, ht.front, fun hn => ht.eof1 (mt .inl hn),
    fun hn => absurd h0 hn⟩, h.entry.noFile1, ?_⟩, ?_, List.take_length, hop, h.fits.stream1,
    h.fits.stream2⟩
  · intro d hd
    obtain ⟨g, hg, hg2⟩ := h.entry.file1 d hd
    exact ⟨g, hg, hg2.mono .inl⟩
  · rw [h.stat]
    rfl

theorem tracks_step (t : Session) (op : EntryOp) (key : List Byte) (s : Streams) (owed : Set Nat)
    (hop : op.Fits) (hk : key.length < 2 ^ 31) (h : t.Tracks key s owed) :
    ∃ t', t.step op = .ok t' ∧ t'.Tracks key (op.apply s) (owed ∪ {i | i ∈ op.owes}) := by
  cases op with
  | writeData op => exact tracks_writeData t op key s owed hop hk h
  | setStream0 data => exact tracks_setStream0 t data key s owed hop h

/-- The files follow the streams through any run. -/
theorem tracks_run (ops : List EntryOp) (key : List Byte) (hk : key.length < 2 ^ 31)
    (hops : ∀ op ∈ ops, op.Fits) (t : Session) (s : Streams) (owed : Set Nat)
    (h : t.Tracks key s owed) :
    ∃ t', run Session.step t ops = .ok t' ∧ t'.Tracks key (ops.foldl EntryOp.apply s)
      (owed ∪ {i | ∃ op ∈ ops, i ∈ op.owes}) := by
  induction ops generalizing t s owed with
  | nil =>
    refine ⟨t, rfl, ?_⟩
    have hs : owed ∪ {i | ∃ op ∈ ([] : List EntryOp), i ∈ op.owes} = owed := by simp
    rw [hs]
    exact h
  | cons op ops ih =>
    obtain ⟨t1, ht1, h1⟩ := tracks_step t op key s owed (hops op (by simp)) hk h
    obtain ⟨t', hr, h'⟩ := ih (fun o ho => hops o (by simp [ho])) t1 _ _ h1
    refine ⟨t', by rw [run, ht1, ok_bind, hr], ?_⟩
    have hs : owed ∪ {i | i ∈ op.owes} ∪ {i | ∃ o ∈ ops, i ∈ o.owes} =
        owed ∪ {i | ∃ o ∈ op :: ops, i ∈ o.owes} := by
      ext i
      simp [or_assoc]
    rw [← hs]
    exact h'

/-- A new entry: both records of its file are yet to be written. -/
theorem tracks_create (key : List Byte) : (Session.create key).Tracks key {} {0, 1} := by
  refine ⟨⟨rfl, ⟨_, rfl, ⟨newHeader key, newHeader_names key, ?_⟩, ?_, ?_⟩, fun _ => rfl, ?_⟩, rfl, rfl,
    by decide, by decide, by decide⟩
  · have he : (newHeader key).bytes ++ key ++ [] = initializeCreatedFile key := by
      rw [initializeCreatedFile_eq, List.append_nil]
    exact ⟨[], (List.append_nil _).trans he⟩
  · intro h
    simp at h
  · intro h
    simp at h
  · intro data hd
    cases hd

end SimpleCacheTool.Chromium
