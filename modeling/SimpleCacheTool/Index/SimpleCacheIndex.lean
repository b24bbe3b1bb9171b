import SimpleCacheTool.Format.PickleWriter

namespace SimpleCacheTool

open Fallible Segments LittleEndian SimpleCacheFormat

def reasonShutdown : BitVec 32 := 0#32
def reasonIdle : BitVec 32 := 2#32

/-- `SimpleCacheIndex.Entry` -/
@[ext] structure IndexEntry where
  hash : BitVec 64 := 0#64
  lastUsedInternal : BitVec 64 := 0#64
  entrySizeChunks : BitVec 32 := 0#32
  inMemoryData : BitVec 32 := 0#32
  deriving DecidableEq, Repr

namespace IndexEntry

def packedInfo (e : IndexEntry) : BitVec 64 :=
  (e.entrySizeChunks.signExtend 64 <<< 8) ||| (e.inMemoryData.signExtend 64 &&& 3#64)

def getEntrySize (e : IndexEntry) : BitVec 64 := e.entrySizeChunks.signExtend 64 <<< 8

def setEntrySize (e : IndexEntry) (bytes : BitVec 64) : Java IndexEntry := do
  let chunks := (bytes + 255#64).sshiftRight 8
  throwIf (chunks >>> 30 ≠ 0#64) (.illegalArgument ("entry too large: " ++ toString bytes.toInt))
  .ok { e with entrySizeChunks := chunks.setWidth 32 }

/-- `new Entry(hash, lastUsedInternal, entrySize)` -/
def new (hash lastUsedInternal entrySize : BitVec 64) : Java IndexEntry :=
  setEntrySize { hash, lastUsedInternal } entrySize

end IndexEntry

structure SimpleCacheIndex where
  magic : BitVec 64 := indexMagic
  version : BitVec 32 := indexFileVersion
  reason : BitVec 32 := reasonIdle
  cacheSize : BitVec 64 := 0#64
  cacheLastModifiedInternal : BitVec 64 := 0#64
  entries : List IndexEntry := []
  warnings : List String := []
  deriving DecidableEq, Repr

namespace SimpleCacheIndex

/-- One round of the record loop, with the offset behind the record: `off` moves on by 8 thrice. -/
def parseRecord (data : Bytes) (off : Int) : Java (IndexEntry × Int) := do
  let hash ← u64 data off
  let lastUsedInternal ← i64 data (i32 (off + 8))
  let packed ← u64 data (i32 (i32 (off + 8) + 8))
  throwIf (packed >>> 38 ≠ 0#64) (.illegalArgument "bad entry metadata")
  let e : IndexEntry :=
    { hash, lastUsedInternal
      entrySizeChunks := (packed >>> 8).setWidth 32
      inMemoryData := (packed &&& 3#64).setWidth 32 }
  .ok (e, i32 (i32 (i32 (off + 8) + 8) + 8))

/-- The record loop with `n` rounds to go. -/
def parseRecords (data : Bytes) : Nat → Int → List IndexEntry → Java (List IndexEntry × Int)
  | 0, off, entries => .ok (entries, off)
  | n + 1, off, entries => do
    let (e, off) ← parseRecord data off
    parseRecords data n off (entries ++ [e])

/-- What `verifyCrc` reports about the checksum in the pickle's header. -/
def crcWarnings (data : Bytes) (verifyCrc : Bool) (payloadSize : Int) (crc : BitVec 32) :
    Java (List String) :=
  if verifyCrc then do
    let actual ← crc32Range data indexHeaderSize payloadSize
    .ok (if actual ≠ crc then
      ["pickle crc mismatch stored=0x" ++ crc.toHex ++ " actual=0x" ++ actual.toHex] else [])
  else .ok []

/-- The fields behind the pickle's header; `off` moves on from 8 over 16, 20, 28 and 36 to 40. -/
def parsePayload (data : Bytes) (warnings : List String) : Java SimpleCacheIndex := do
  let magic ← u64 data 8
  throwIf (magic ≠ indexMagic) (.illegalArgument ("bad index magic 0x" ++ magic.toHex))
  let version ← u32 data 16
  throwIf (version.toInt < minIndexFileVersion.toInt ∨ version.toInt > indexFileVersion.toInt)
    (.illegalArgument ("unsupported index version " ++ toString version.toInt))
  let entryCount ← u64 data 20
  let cacheSize ← u64 data 28
  let reason ← u32 data 36
  let (entries, off) ← parseRecords data entryCount.toInt.toNat 40 []
  let cacheLastModifiedInternal ← i64 data off
  .ok { magic, version, reason, cacheSize, cacheLastModifiedInternal, entries, warnings }

def parse (data : Bytes) (verifyCrc : Bool) : Java SimpleCacheIndex := do
  throwIf (data.length < indexHeaderSize) (.illegalArgument "index file too small")
  let payloadSize ← u32 data 0
  let crc ← u32 data 4
  throwIf (i32 (indexHeaderSize + payloadSize.toInt) ≠ data.length)
    (.illegalArgument ("index payload size mismatch: header=" ++ toString payloadSize.toInt ++
      " file=" ++ toString data.length))
  let warnings ← crcWarnings data verifyCrc payloadSize.toInt crc
  parsePayload data warnings

def writeEntries : List IndexEntry → PickleWriter → Java PickleWriter
  | [], w => .ok w
  | e :: es, w => do
    let w ← w.writeU64 e.hash
    let w ← w.writeI64 e.lastUsedInternal
    let w ← w.writeU64 e.packedInfo
    writeEntries es w

def serialize (x : SimpleCacheIndex) : Java Bytes := do
  let w : PickleWriter := {}
  let w ← w.writeU64 indexMagic
  let w ← w.writeU32 indexFileVersion
  let w ← w.writeU64 (BitVec.ofNat 64 x.entries.length)
  let w ← w.writeU64 x.cacheSize
  let w ← w.writeU32 x.reason
  let w ← writeEntries x.entries w
  let w ← w.writeI64 x.cacheLastModifiedInternal
  let payload ← w.toByteArray
  let out ← newBytes (i32 (indexHeaderSize + payload.length))
  let out ← putU32 out 0 (BitVec.ofNat 32 payload.length)
  let out ← putU32 out 4 (crc32 payload)
  arraycopy payload 0 out indexHeaderSize payload.length

/-- `find`; null is `none`. -/
def find (x : SimpleCacheIndex) (hash : BitVec 64) : Option IndexEntry :=
  x.entries.find? fun e => e.hash = hash

/-- The first entry with the new entry's hash, written in place. -/
def putInPlace (e : IndexEntry) : List IndexEntry → List IndexEntry
  | [] => []
  | existing :: es =>
    if existing.hash = e.hash then
      { existing with
        lastUsedInternal := e.lastUsedInternal
        entrySizeChunks := e.entrySizeChunks
        inMemoryData := e.inMemoryData } :: es
    else existing :: putInPlace e es

def put (x : SimpleCacheIndex) (e : IndexEntry) : SimpleCacheIndex :=
  match x.find e.hash with
  | some _ => { x with entries := putInPlace e x.entries }
  | none => { x with entries := x.entries ++ [e] }

def recomputeCacheSize (x : SimpleCacheIndex) : SimpleCacheIndex :=
  { x with cacheSize := x.entries.foldl (fun total e => total + e.getEntrySize) 0#64 }

end SimpleCacheIndex

end SimpleCacheTool
