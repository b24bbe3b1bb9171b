import SimpleCacheTool.Chromium.SuperFastHash
import SimpleCacheTool.Format.SimpleCacheFormat

namespace SimpleCacheTool.Chromium

open Fallible Segments SimpleCacheFormat

/-- The `net::Error` codes the open path returns. -/
inductive NetError where
  | failed
  | invalidArgument
  | cacheChecksumReadFailure
  | cacheChecksumMismatch
  deriving DecidableEq, Repr

/-- The reasons `CheckHeaderAndKey` records. -/
inductive OpenEntryResult where
  | cantReadHeader
  | badMagicNumber
  | badVersion
  | cantReadKey
  | keyHashMismatch
  | keyMismatch
  deriving DecidableEq, Repr

def kSimpleInitialMagicNumber : BitVec 64 := 0xfcfb6d1ba7725c30#64
def kSimpleFinalMagicNumber : BitVec 64 := 0xf4fa6f45970d41d8#64
def kSimpleEntryVersionOnDisk : BitVec 32 := 5#32

/-- Unknown keys are read in one go up to this size. -/
def kInitialHeaderRead : Nat := 64 * 1024

def sizeofSimpleFileHeader : Nat := 24
def sizeofSimpleFileEOF : Nat := 24
def sizeofSHA256HashValue : Nat := 32

structure SimpleFileHeader where
  initialMagicNumber : BitVec 64
  version : BitVec 32
  keyLength : BitVec 32
  keyHash : BitVec 32
  unusedPadding : BitVec 32

/-- The struct at the start of a buffer, little-endian without padding. -/
def SimpleFileHeader.ofBytes (l : List Byte) : SimpleFileHeader where
  initialMagicNumber := wordAt 64 l 0
  version := wordAt 32 l 8
  keyLength := wordAt 32 l 12
  keyHash := wordAt 32 l 16
  unusedPadding := wordAt 32 l 20

structure SimpleFileEOF where
  finalMagicNumber : BitVec 64
  flags : BitVec 32
  dataCrc32 : BitVec 32
  streamSize : BitVec 32
  unusedPadding : BitVec 32

namespace SimpleFileEOF

def ofBytes (l : List Byte) : SimpleFileEOF where
  finalMagicNumber := wordAt 64 l 0
  flags := wordAt 32 l 8
  dataCrc32 := wordAt 32 l 12
  streamSize := wordAt 32 l 16
  unusedPadding := wordAt 32 l 20

def hasKeySha256 (e : SimpleFileEOF) : Bool := e.flags &&& 2#32 == 2#32

def hasCrc32 (e : SimpleFileEOF) : Bool := e.flags &&& 1#32 != 0#32

end SimpleFileEOF

/-- An `int64_t` result: the two's complement value of the low 64 bits. -/
def int64 (x : Int) : Int := (x + 2 ^ 63) % 2 ^ 64 - 2 ^ 63

/-! Reads return the bytes of the file. -/

/-- `Read`: as much of the range as the file has. -/
def read (file : List Byte) (offset size : Nat) : List Byte := seg file offset size

/-- `ReadAndCheck`: the whole range or nothing. -/
def readAndCheck (file : List Byte) (offset : Int) (size : Nat) : Option (List Byte) :=
  if 0 ≤ offset ∧ offset + size ≤ file.length then some (seg file offset.toNat size) else none

structure PrefetchData where
  buffer : List Byte := []
  offsetInFile : Nat := 0

namespace PrefetchData

def hasData (p : PrefetchData) (offset length : Nat) : Bool :=
  decide (offset + length < 2 ^ 64 ∧ p.offsetInFile ≤ offset ∧
    offset + length ≤ p.offsetInFile + p.buffer.length)

def readData (p : PrefetchData) (offset length : Nat) : Option (List Byte) :=
  if length = 0 then some []
  else if p.hasData offset length then some (seg p.buffer (offset - p.offsetInFile) length)
  else none

def prefetchFromFile (p : PrefetchData) (file : List Byte) (offset length : Nat) :
    Except NetError PrefetchData :=
  if p.buffer ≠ [] then .error .failed
  else match readAndCheck file offset length with
    | some buffer => .ok { buffer := buffer, offsetInFile := offset }
    | none => .error .failed

end PrefetchData

/-- The part of `SimpleEntryStat` about the first file: `data_size_[0]` and `data_size_[1]`. -/
structure SimpleEntryStat where
  dataSize0 : Int
  dataSize1 : Int

namespace SimpleEntryStat

def dataSize (s : SimpleEntryStat) (streamIndex : Nat) : Int :=
  if streamIndex = 0 then s.dataSize0 else s.dataSize1

def getOffsetInFile (s : SimpleEntryStat) (keyLength : Nat) (offset : Int) (streamIndex : Nat) : Int :=
  let headersSize := int64 (sizeofSimpleFileHeader + keyLength)
  let additionalOffset :=
    if streamIndex = 0 then int64 (s.dataSize1 + sizeofSimpleFileEOF) else 0
  int64 (headersSize + offset + additionalOffset)

def getEOFOffsetInFile (s : SimpleEntryStat) (keyLength : Nat) (streamIndex : Nat) : Int :=
  let additionalOffset : Int := if streamIndex = 0 then sizeofSHA256HashValue else 0
  int64 (additionalOffset + s.getOffsetInFile keyLength (s.dataSize streamIndex) streamIndex)

end SimpleEntryStat

structure SimpleStreamPrefetchData where
  data : List Byte
  streamCrc32 : BitVec 32

/-- `simple_util::Crc32` -/
def crc32 (data : List Byte) : BitVec 32 := crc32Of data

/-- `simple_util::IncrementalCrc32`: zlib's checksum continued from an earlier one. -/
def incrementalCrc32 (previousCrc : BitVec 32) (data : List Byte) : BitVec 32 :=
  data.foldl crc32Byte (previousCrc ^^^ 0xffffffff#32) ^^^ 0xffffffff#32

def getHeaderSize (keyLength : Nat) : Nat := sizeofSimpleFileHeader + keyLength

/-- The rest of a header whose key did not fit the first read. -/
def extendHeader (file headerData : List Byte) (expectedHeaderSize : Nat) :
    Except OpenEntryResult (List Byte) :=
  if headerData.length < expectedHeaderSize then
    match readAndCheck file headerData.length (expectedHeaderSize - headerData.length) with
    | some rest => .ok (headerData ++ rest)
    | none => .error .cantReadKey
  else .ok headerData

/-- How much of the header is read first. -/
def headerDataSize : Option (List Byte) → Nat
  | none => kInitialHeaderRead
  | some key => getHeaderSize key.length

/-- `CheckHeaderAndKey`; returns the key, which it fills in when it was unknown. -/
def checkHeaderAndKey (file : List Byte) (key : Option (List Byte)) :
    Except OpenEntryResult (List Byte) := do
  let headerData := read file 0 (headerDataSize key)
  throwIf (headerData.length < sizeofSimpleFileHeader) .cantReadHeader
  let header := SimpleFileHeader.ofBytes headerData
  throwIf (header.initialMagicNumber ≠ kSimpleInitialMagicNumber) .badMagicNumber
  throwIf (header.version ≠ kSimpleEntryVersionOnDisk) .badVersion
  let headerData ← extendHeader file headerData (getHeaderSize header.keyLength.toNat)
  let header := SimpleFileHeader.ofBytes headerData
  let keyFromHeader := seg headerData sizeofSimpleFileHeader header.keyLength.toNat
  throwIf (persistentHash keyFromHeader ≠ header.keyHash) .keyHashMismatch
  match key with
  | none => .ok keyFromHeader
  | some key => if key ≠ keyFromHeader then .error .keyMismatch else .ok key

def readFromFileOrPrefetched (file : List Byte) (prefetchData : PrefetchData) (offset : Int)
    (size : Nat) : Option (List Byte) :=
  if offset < 0 then none
  else if size = 0 then some []
  else match prefetchData.readData offset.toNat size with
    | some dest => some dest
    | none => readAndCheck file offset size

def getEOFRecordData (file : List Byte) (prefetchData : PrefetchData) (fileOffset : Int) :
    Except NetError SimpleFileEOF := do
  match readFromFileOrPrefetched file prefetchData fileOffset sizeofSimpleFileEOF with
  | none => .error .cacheChecksumReadFailure
  | some record =>
    let eofRecord := SimpleFileEOF.ofBytes record
    throwIf (eofRecord.finalMagicNumber ≠ kSimpleFinalMagicNumber) .cacheChecksumReadFailure
    throwIf (2 ^ 31 ≤ eofRecord.streamSize.toNat) .failed
    .ok eofRecord

def preReadStreamPayload (file : List Byte) (prefetchData : PrefetchData) (keyLength : Nat)
    (streamIndex extraSize : Nat) (entryStat : SimpleEntryStat) (eofRecord : SimpleFileEOF) :
    Except NetError SimpleStreamPrefetchData := do
  let streamSize := entryStat.dataSize streamIndex
  throwIf (streamSize + extraSize > 2 ^ 31 - 1 ∨ streamSize < 0) .invalidArgument
  let readSize := (streamSize + extraSize).toNat
  let fileOffset := entryStat.getOffsetInFile keyLength 0 streamIndex
  match readFromFileOrPrefetched file prefetchData fileOffset readSize with
  | none => .error .failed
  | some data =>
    let expectedCrc32 := crc32 (data.take streamSize.toNat)
    throwIf (eofRecord.hasCrc32 ∧ eofRecord.dataCrc32 ≠ expectedCrc32) .cacheChecksumMismatch
    .ok { data := data, streamCrc32 := expectedCrc32 }

/-- What is fetched ahead of the first record: the whole file, its end, or nothing. -/
def prefetch (file : List Byte) (fullPrefetchSize trailerPrefetchSize : BitVec 32) :
    Except NetError PrefetchData :=
  if file.length ≤ fullPrefetchSize.toNat ∨ file.length ≤ trailerPrefetchSize.toNat then
    PrefetchData.prefetchFromFile {} file 0 file.length
  else if 0 < trailerPrefetchSize.toNat then
    let length := min trailerPrefetchSize.toNat file.length
    PrefetchData.prefetchFromFile {} file (file.length - length) length
  else .ok {}

/-- Stream 1 as far as it was prefetched along with the key's checksum. -/
def readStream1 (file : List Byte) (prefetchData : PrefetchData) (keyLength : Nat)
    (hasKeySha256 : Bool) (entryStat : SimpleEntryStat) :
    Except NetError (Option SimpleStreamPrefetchData) :=
  let stream1Offset := entryStat.getOffsetInFile keyLength 0 1
  let stream1ReadSize := sizeofSimpleFileEOF + entryStat.dataSize 1
  if hasKeySha256 ∧ prefetchData.hasData stream1Offset.toNat stream1ReadSize.toNat then do
    let stream1Eof ← getEOFRecordData file prefetchData (entryStat.getEOFOffsetInFile keyLength 1)
    let stream1 ← preReadStreamPayload file prefetchData keyLength 1 0 entryStat stream1Eof
    .ok (some stream1)
  else .ok none

/-- What an open entry knows of its first file. -/
structure OpenEntry where
  key : List Byte
  entryStat : SimpleEntryStat
  stream0 : SimpleStreamPrefetchData
  stream1 : Option SimpleStreamPrefetchData
  headerAndKeyCheckNeeded : Bool

/-- The key's checksum behind stream 0, or else the header, confirms the key. -/
def validateKey (file key : List Byte) (hasKeySha256 : Bool) (stream0Size : Int)
    (stream0 : SimpleStreamPrefetchData) (headerAndKeyCheckNeeded : Bool) : Except NetError Bool :=
  if hasKeySha256 then
    if sha256Of key ≠ seg stream0.data stream0Size.toNat sizeofSHA256HashValue then .error .failed
    else .ok false
  else if headerAndKeyCheckNeeded then
    match checkHeaderAndKey file (some key) with
    | .error _ => .error .failed
    | .ok _ => .ok false
  else .ok false

def readAndValidateStream0AndMaybe1 (file key : List Byte) (headerAndKeyCheckNeeded : Bool)
    (fullPrefetchSize trailerPrefetchSize : BitVec 32) : Except NetError OpenEntry := do
  let fileSize : Int := file.length
  let prefetchData ← prefetch file fullPrefetchSize trailerPrefetchSize
  let stream0Eof ← getEOFRecordData file prefetchData (int64 (fileSize - sizeofSimpleFileEOF))
  let stream0Size := stream0Eof.streamSize.toInt
  throwIf (stream0Size > fileSize) .failed
  let hasKeySha256 := stream0Eof.hasKeySha256
  let extraPostStream0Read := if hasKeySha256 then sizeofSHA256HashValue else 0
  let stream1Size := int64 (fileSize - 2 * sizeofSimpleFileEOF - stream0Size -
    sizeofSimpleFileHeader - key.length - extraPostStream0Read)
  throwIf (stream1Size < 0 ∨ stream1Size > fileSize) .failed
  let entryStat : SimpleEntryStat := { dataSize0 := stream0Size, dataSize1 := stream1Size }
  let stream0 ← preReadStreamPayload file prefetchData key.length 0 extraPostStream0Read entryStat
    stream0Eof
  let stream1 ← readStream1 file prefetchData key.length hasKeySha256 entryStat
  let headerAndKeyCheckNeeded ←
    validateKey file key hasKeySha256 stream0Size stream0 headerAndKeyCheckNeeded
  .ok { key, entryStat, stream0, stream1, headerAndKeyCheckNeeded }

/-- `InitializeForOpen` for the file of streams 0 and 1. -/
def initializeForOpen (file : List Byte) (key : Option (List Byte))
    (fullPrefetchSize trailerPrefetchSize : BitVec 32) : Except NetError OpenEntry :=
  match key with
  | none =>
    match checkHeaderAndKey file none with
    | .error _ => .error .failed
    | .ok key =>
      readAndValidateStream0AndMaybe1 file key false fullPrefetchSize trailerPrefetchSize
  | some key => readAndValidateStream0AndMaybe1 file key true fullPrefetchSize trailerPrefetchSize

def checkEOFRecord (file : List Byte) (e : OpenEntry) (streamIndex : Nat) (expectedCrc32 : BitVec 32) :
    Except NetError Unit := do
  let eofRecord ← getEOFRecordData file {} (e.entryStat.getEOFOffsetInFile e.key.length streamIndex)
  throwIf (eofRecord.hasCrc32 ∧ eofRecord.dataCrc32 ≠ expectedCrc32) .cacheChecksumMismatch

/-- `ReadData` on stream 1, with the running checksum updated and verified after the last byte. -/
def readData (file : List Byte) (e : OpenEntry) (offset bufLen : Nat) (previousCrc32 : BitVec 32) :
    Except NetError (List Byte) := do
  if e.headerAndKeyCheckNeeded then
    match checkHeaderAndKey file (some e.key) with
    | .error _ => .error .failed
    | .ok _ => .ok ()
  let fileOffset := e.entryStat.getOffsetInFile e.key.length offset 1
  let outBuf := read file fileOffset.toNat bufLen
  if 0 < outBuf.length ∧ ((offset + outBuf.length : Nat) : Int) = e.entryStat.dataSize 1 then
    checkEOFRecord file e 1 (incrementalCrc32 previousCrc32 outBuf)
  .ok outBuf

end SimpleCacheTool.Chromium
