import SimpleCacheTool.Chromium.SimpleIndex

namespace SimpleCacheTool.Chromium

open Segments LittleEndian SimpleCacheFormat

/-- What the base library does for an index file that is written: a pickle growing field by field,
its bytes once the checksum is in its header, and the internal value of a time after the Unix epoch. -/
structure PickleLibrary where
  writeBytes : List Byte → List Byte → List Byte
  data : List Byte → BitVec 32 → List Byte
  unixEpochPlusSeconds : BitVec 32 → BitVec 64

/-- Fields are padded to four bytes, the header holds payload size and checksum, and times count
microseconds from 1601. -/
structure PickleLibrary.Lawful (lib : PickleLibrary) : Prop where
  write : ∀ payload field : List Byte, payload.length % 4 = 0 → field.length % 4 = 0 →
    lib.writeBytes payload field = payload ++ field
  data : ∀ (payload : List Byte) (crc : BitVec 32),
    lib.data payload crc = bytes 4 (BitVec.ofNat 32 payload.length) ++ bytes 4 crc ++ payload
  time : ∀ seconds : BitVec 32, lib.unixEpochPlusSeconds seconds =
    BitVec.ofNat 64 ((11644473600 + seconds.toNat) * 1000000)

/-- `SimpleIndexPickle`, as far as it has been written. -/
structure Pickle where
  payload : List Byte := []
  crc : BitVec 32 := 0#32

namespace Pickle

def writeUInt32 (lib : PickleLibrary) (p : Pickle) (value : BitVec 32) : Pickle :=
  { p with payload := lib.writeBytes p.payload (bytes 4 value) }

def writeUInt64 (lib : PickleLibrary) (p : Pickle) (value : BitVec 64) : Pickle :=
  { p with payload := lib.writeBytes p.payload (bytes 8 value) }

def writeInt64 (lib : PickleLibrary) (p : Pickle) (value : BitVec 64) : Pickle :=
  p.writeUInt64 lib value

end Pickle

namespace EntryMetadata

/-- The internal value; a time that is null stays null. -/
def getLastUsedTime (lib : PickleLibrary) (m : EntryMetadata) : BitVec 64 :=
  if m.lastUsedTimeOrTrailerPrefetchSize = 0#32 then 0#64
  else lib.unixEpochPlusSeconds m.lastUsedTimeOrTrailerPrefetchSize

def packEntrySizeAndInMemoryData (entrySize256bChunks : BitVec 32) (inMemoryData : BitVec 8) :
    BitVec 64 :=
  (entrySize256bChunks.setWidth 64 <<< 8) ||| inMemoryData.setWidth 64

def serialize (lib : PickleLibrary) (appCache : Bool) (m : EntryMetadata) (p : Pickle) : Pickle :=
  let packedEntryInfo := packEntrySizeAndInMemoryData (m.entrySize256bChunks.setWidth 32)
    (m.inMemoryData.setWidth 8)
  let p :=
    if appCache then p.writeInt64 lib (m.lastUsedTimeOrTrailerPrefetchSize.setWidth 64)
    else p.writeInt64 lib (m.getLastUsedTime lib)
  p.writeUInt64 lib packedEntryInfo

end EntryMetadata

def kSimpleIndexFileVersion : BitVec 32 := 9#32

namespace IndexMetadata

/-- What a write fills in: its reason, and count and size of the entries. -/
def new (reason : BitVec 32) (entryCount cacheSize : BitVec 64) : IndexMetadata where
  magicNumber := kSimpleIndexMagicNumber
  version := kSimpleIndexFileVersion
  reason := reason
  entryCount := entryCount
  cacheSize := cacheSize

def serialize (lib : PickleLibrary) (m : IndexMetadata) (p : Pickle) : Pickle :=
  let p := p.writeUInt64 lib m.magicNumber
  let p := p.writeUInt32 lib m.version
  let p := p.writeUInt64 lib m.entryCount
  let p := p.writeUInt64 lib m.cacheSize
  p.writeUInt32 lib m.reason

end IndexMetadata

/-- `SimpleIndexFile::Serialize` -/
def serialize (lib : PickleLibrary) (appCache : Bool) (indexMetadata : IndexMetadata)
    (entries : EntrySet) : Pickle :=
  entries.foldl (fun p e => e.2.serialize lib appCache (p.writeUInt64 lib e.1))
    (indexMetadata.serialize lib {})

def serializeFinalData (lib : PickleLibrary) (cacheModified : BitVec 64) (p : Pickle) : Pickle :=
  let p := p.writeInt64 lib cacheModified
  { p with crc := crc32Of p.payload }

/-! The file operations of a write. -/

/-- What one write finds and meets on the disk. -/
structure WriteOutcome where
  createDirectory : Bool := true
  /-- The last modification of the cache's directory, if there is information on it. -/
  fileInfo : Option (BitVec 64)
  openFile : Bool := true
  /-- How many bytes of the pickle reach the file; all of them if nothing is said. -/
  written : Option Nat := none
  deleteFile : Bool := true
  replaceFile : Bool := true

/-- What `WriteToDisk` is given. -/
structure IndexWrite where
  reason : BitVec 32
  entrySet : EntrySet
  cacheSize : BitVec 64

def IndexWrite.pickle (lib : PickleLibrary) (appCache : Bool) (w : IndexWrite) : Pickle :=
  serialize lib appCache (IndexMetadata.new w.reason (BitVec.ofNat 64 w.entrySet.length) w.cacheSize)
    w.entrySet

def kMaxIndexFileSizeBytes : Nat := kMaxEntriesInIndex * (8 + 16)

/-- What is loaded of an index file, and whether the file is left alone. -/
def syncLoadFromDisk (base : BaseLibrary) (appCache : Bool) (indexFile : Option (List Byte))
    (readOk : Bool) : SimpleIndexLoadResult × Option (List Byte) :=
  match indexFile with
  | none => ({}, none)
  | some data =>
    if data.length > kMaxIndexFileSizeBytes then ({}, none)
    else if readOk = false then ({}, none)
    else
      let outResult := deserialize base appCache data
      if outResult.didLoad = false then (outResult, none) else (outResult, some data)

end SimpleCacheTool.Chromium
