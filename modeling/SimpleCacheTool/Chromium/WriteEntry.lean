import SimpleCacheTool.Chromium.OpenEntry
import SimpleCacheTool.Math.Extents
import Mathlib.Logic.Function.Basic

namespace SimpleCacheTool.Chromium

open Fallible Segments LittleEndian SimpleCacheFormat

/-- The `net::Error` codes the write path returns. -/
inductive WriteError where
  | failed
  | cacheWriteFailure
  deriving DecidableEq, Repr

/-- `SimpleEntryStat` with the size of stream 2. -/
structure FullEntryStat extends SimpleEntryStat where
  dataSize2 : Int

namespace FullEntryStat

def dataSize (s : FullEntryStat) (streamIndex : Nat) : Int :=
  if streamIndex = 2 then s.dataSize2 else s.toSimpleEntryStat.dataSize streamIndex

def setDataSize (s : FullEntryStat) (streamIndex : Nat) (size : Int) : FullEntryStat :=
  if streamIndex = 0 then { s with dataSize0 := size }
  else if streamIndex = 1 then { s with dataSize1 := size }
  else { s with dataSize2 := size }

def getEOFOffsetInFile (s : FullEntryStat) (keyLength streamIndex : Nat) : Int :=
  let additionalOffset : Int := if streamIndex = 0 then sizeofSHA256HashValue else 0
  int64 (additionalOffset + s.getOffsetInFile keyLength (s.dataSize streamIndex) streamIndex)

def getLastEOFOffsetInFile (s : FullEntryStat) (keyLength streamIndex : Nat) : Int :=
  if streamIndex = 1 then s.getEOFOffsetInFile keyLength 0
  else s.getEOFOffsetInFile keyLength streamIndex

end FullEntryStat

/-- The struct as it is written, little-endian without padding. -/
def SimpleFileHeader.fields (h : SimpleFileHeader) : List (List Byte) :=
  [LittleEndian.bytes 8 h.initialMagicNumber, LittleEndian.bytes 4 h.version,
    LittleEndian.bytes 4 h.keyLength, LittleEndian.bytes 4 h.keyHash,
    LittleEndian.bytes 4 h.unusedPadding]

def SimpleFileHeader.bytes (h : SimpleFileHeader) : List Byte := h.fields.flatten

def SimpleFileEOF.bytes (e : SimpleFileEOF) : List Byte :=
  [LittleEndian.bytes 8 e.finalMagicNumber, LittleEndian.bytes 4 e.flags,
    LittleEndian.bytes 4 e.dataCrc32, LittleEndian.bytes 4 e.streamSize,
    LittleEndian.bytes 4 e.unusedPadding].flatten

/-! Writes change the bytes of the file. -/

/-- `SetLength`: what is new is zero. -/
def setLength (file : List Byte) (length : Int) : Except WriteError (List Byte) :=
  if 0 ≤ length then .ok (Extents.resize 0 file length.toNat) else .error .cacheWriteFailure

/-- `WriteAndCheck`: a gap before the data is zero. -/
def writeAndCheck (file : List Byte) (offset : Int) (data : List Byte) :
    Except WriteError (List Byte) :=
  if 0 ≤ offset then .ok (Extents.writeAt 0 file offset.toNat data) else .error .cacheWriteFailure

/-- The two files of the dense streams. -/
abbrev FileIndex := Fin 2

def getFileIndexFromStreamIndex (streamIndex : Nat) : FileIndex := if streamIndex = 2 then 1 else 0

/-- An entry with its files open; a file whose creation is put off is `none`. -/
structure SimpleSynchronousEntry where
  key : List Byte
  files : FileIndex → Option (List Byte)
  headerAndKeyCheckNeeded : FileIndex → Bool

structure WriteRequest where
  index : Nat
  offset : Nat
  buf : List Byte
  previousCrc32 : BitVec 32
  truncate : Bool
  doomed : Bool
  requestUpdateCrc : Bool

/-- What is known of a stream's checksum when the entry is closed. -/
structure CRCRecord where
  index : Nat
  hasCrc32 : Bool
  dataCrc32 : BitVec 32

/-- The header of a new file. -/
def newHeader (key : List Byte) : SimpleFileHeader where
  initialMagicNumber := kSimpleInitialMagicNumber
  version := kSimpleEntryVersionOnDisk
  keyLength := BitVec.ofNat 32 key.length
  keyHash := persistentHash key
  unusedPadding := 0#32

/-- A new file after both writes. -/
def initializeCreatedFile (key : List Byte) : List Byte :=
  Extents.writeAt 0 (Extents.writeAt 0 [] 0 (newHeader key).bytes) sizeofSimpleFileHeader key

namespace SimpleSynchronousEntry

/-- `InitializeForCreate`: the file of stream 2 is created when it is first written. -/
def initializeForCreate (key : List Byte) : SimpleSynchronousEntry × FullEntryStat :=
  ({ key
     files := fun i => if i = 0 then some (initializeCreatedFile key) else none
     headerAndKeyCheckNeeded := fun _ => false },
    { dataSize0 := 0, dataSize1 := 0, dataSize2 := 0 })

def setFile (e : SimpleSynchronousEntry) (i : FileIndex) (file : List Byte) :
    SimpleSynchronousEntry :=
  { e with files := Function.update e.files i (some file) }

/-- A file's check, once it has been put off; it is not repeated. -/
def ensureHeaderAndKey (e : SimpleSynchronousEntry) (i : FileIndex) :
    Except WriteError SimpleSynchronousEntry :=
  match e.files i with
  | none => .ok e
  | some file =>
    if e.headerAndKeyCheckNeeded i then
      match checkHeaderAndKey file (some e.key) with
      | .error _ => .error .failed
      | .ok _ =>
        .ok { e with headerAndKeyCheckNeeded := Function.update e.headerAndKeyCheckNeeded i false }
    else .ok e

/-- The file a write goes to: a doomed entry gets no new file. -/
def fileForWrite (e : SimpleSynchronousEntry) (i : FileIndex) (doomed : Bool) :
    Except WriteError (List Byte) :=
  match e.files i with
  | some file => .ok file
  | none => if doomed then .error .cacheWriteFailure else .ok (initializeCreatedFile e.key)

/-- The EOF record and the eventual stream afterward need to be zeroed out. -/
def pretruncate (file : List Byte) (extendingByWrite : Bool) (eofOffset : Int) :
    Except WriteError (List Byte) :=
  if extendingByWrite then setLength file eofOffset else .ok file

def writeBuf (file : List Byte) (fileOffset : Int) (buf : List Byte) :
    Except WriteError (List Byte) :=
  if 0 < buf.length then writeAndCheck file fileOffset buf else .ok file

/-- The stream's new size, and the file's where the stream may have lost its end. -/
def resizeStream (file : List Byte) (keyLength : Nat) (op : WriteRequest) (stat : FullEntryStat)
    (extendingByWrite : Bool) : Except WriteError (List Byte × FullEntryStat) :=
  let bufLen := op.buf.length
  if ¬op.truncate ∧ (0 < bufLen ∨ ¬extendingByWrite) then
    .ok (file, stat.setDataSize op.index (max (stat.dataSize op.index) (op.offset + bufLen)))
  else do
    let stat := stat.setDataSize op.index (op.offset + bufLen)
    let file ← setLength file (stat.getLastEOFOffsetInFile keyLength op.index)
    .ok (file, stat)

/-- `WriteData` on stream 1 or 2: the entry, its sizes and the checksum if one was asked for. An error
leaves the entry doomed, but for the refusal of a new file. -/
def writeData (e : SimpleSynchronousEntry) (op : WriteRequest) (stat : FullEntryStat) :
    Except WriteError (SimpleSynchronousEntry × FullEntryStat × Option (BitVec 32)) := do
  let fileIndex := getFileIndexFromStreamIndex op.index
  let e ← e.ensureHeaderAndKey fileIndex
  let keyLength := e.key.length
  let fileOffset := stat.getOffsetInFile keyLength op.offset op.index
  let extendingByWrite := decide ((op.offset : Int) + op.buf.length > stat.dataSize op.index)
  let file ← e.fileForWrite fileIndex op.doomed
  let file ← pretruncate file extendingByWrite (stat.getEOFOffsetInFile keyLength op.index)
  let file ← writeBuf file fileOffset op.buf
  let (file, stat) ← resizeStream file keyLength op stat extendingByWrite
  let updatedCrc32 := if op.requestUpdateCrc ∧ 0 < op.buf.length then
    some (incrementalCrc32 op.previousCrc32 op.buf) else none
  .ok (e.setFile fileIndex file, stat, updatedCrc32)

end SimpleSynchronousEntry

/-- `simple_util::GetDataSizeFromFileSize` -/
def getDataSizeFromFileSize (keyLength : Nat) (fileSize : Int) : Int :=
  int64 (fileSize - keyLength - sizeofSimpleFileHeader - sizeofSimpleFileEOF)

/-- The size of stream 2 on opening; zero when its file is broken or was never created. -/
def stream2Size (keyLength : Nat) (stat : SimpleEntryStat) : Option (List Byte) → Int
  | none => 0
  | some file =>
    let dataSize2 := getDataSizeFromFileSize keyLength file.length
    if dataSize2 < 0 then 0
    else if dataSize2 > 0 then
      let fileOffset := FullEntryStat.getEOFOffsetInFile ⟨stat, dataSize2⟩ keyLength 2
      match getEOFRecordData file {} fileOffset with
      | .error _ => 0
      | .ok _ => dataSize2
    else 0

namespace SimpleSynchronousEntry

/-- `InitializeForOpen` for both files: the entry, its sizes and what was read of stream 0. A file of
stream 2 without data is deleted. -/
def initializeForOpen (files : FileIndex → Option (List Byte)) (key : Option (List Byte))
    (fullPrefetchSize trailerPrefetchSize : BitVec 32) :
    Except NetError (SimpleSynchronousEntry × FullEntryStat × List Byte) :=
  match files 0 with
  | none => .error .failed
  | some file => do
    let o ← Chromium.initializeForOpen file key fullPrefetchSize trailerPrefetchSize
    let dataSize2 := stream2Size o.key.length o.entryStat (files 1)
    let entry : SimpleSynchronousEntry :=
      { key := o.key
        files := if dataSize2 = 0 then Function.update files 1 none else files
        headerAndKeyCheckNeeded := fun i => if i = 0 then o.headerAndKeyCheckNeeded else true }
    .ok (entry, ⟨o.entryStat, dataSize2⟩, o.stream0.data)

/-- The end record `Close` writes for a stream. -/
def closeEof (stat : FullEntryStat) (r : CRCRecord) : SimpleFileEOF where
  finalMagicNumber := kSimpleFinalMagicNumber
  flags := (if r.hasCrc32 then 1#32 else 0#32) ||| (if r.index = 0 then 2#32 else 0#32)
  dataCrc32 := r.dataCrc32
  streamSize := if r.index = 0 then BitVec.ofInt 32 (stat.dataSize 0) else 0#32
  unusedPadding := 0#32

/-- Stream 0 and the key's checksum, written before the last record. -/
def writeStream0 (file key stream0Data : List Byte) (stat : FullEntryStat) :
    Except WriteError (List Byte) := do
  let stream0Offset := stat.getOffsetInFile key.length 0 0
  let data := stream0Data.take (stat.dataSize 0).toNat
  let file ← writeAndCheck file stream0Offset data
  let file ← writeAndCheck file (int64 (stream0Offset + stat.dataSize 0)) (sha256Of key)
  setLength file (stat.getEOFOffsetInFile key.length 0)

/-- A record with stream 0's checksum recomputed where it is unknown. -/
def completeRecord (stream0Data : List Byte) (stat : FullEntryStat) (r : CRCRecord) : CRCRecord :=
  if r.index = 0 ∧ ¬r.hasCrc32 then
    { r with hasCrc32 := true, dataCrc32 := crc32 (stream0Data.take (stat.dataSize 0).toNat) }
  else r

/-- The part of `Close` about one stream's file. -/
def closeFile (file key stream0Data : List Byte) (stat : FullEntryStat) (r : CRCRecord) :
    Except WriteError (List Byte) := do
  let file ← if r.index = 0 then writeStream0 file key stream0Data stat else .ok file
  let eofRecord := closeEof stat (completeRecord stream0Data stat r)
  writeAndCheck file (stat.getEOFOffsetInFile key.length r.index) eofRecord.bytes

/-- One round of `Close`. -/
def closeStream (stat : FullEntryStat) (stream0Data : List Byte) (e : SimpleSynchronousEntry)
    (r : CRCRecord) : Except WriteError SimpleSynchronousEntry :=
  let fileIndex := getFileIndexFromStreamIndex r.index
  match e.files fileIndex with
  | none => .ok e
  | some file => do
    let file ← closeFile file e.key stream0Data stat r
    .ok (e.setFile fileIndex file)

/-- `Close`: the files left behind; an error leaves the entry doomed, and its files are deleted. -/
def close (e : SimpleSynchronousEntry) (stat : FullEntryStat) (crc32sToWrite : List CRCRecord)
    (stream0Data : List Byte) : Except WriteError (FileIndex → Option (List Byte)) := do
  let e ← run (closeStream stat stream0Data) e crc32sToWrite
  let e ← e.ensureHeaderAndKey 0
  let e ← e.ensureHeaderAndKey 1
  .ok e.files

end SimpleSynchronousEntry

end SimpleCacheTool.Chromium
