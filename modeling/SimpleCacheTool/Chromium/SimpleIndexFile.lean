import SimpleCacheTool.Format.SimpleCacheFormat

namespace SimpleCacheTool.Chromium

open Segments LittleEndian SimpleCacheFormat

/-- What the browser's base library does for the index: a pickle over bytes it does not own, the
reads of its iterator, and the seconds between a time and the Unix epoch. -/
structure BaseLibrary where
  /-- Whether `data()` is not null. -/
  hasData : List Byte → Bool
  headerSize : List Byte → Nat
  payloadBytes : List Byte → List Byte
  /-- The next bytes of a payload from a read index on, and the index behind them. -/
  readBytes : List Byte → Nat → Nat → Option (List Byte × Nat)
  inSeconds : BitVec 64 → Int

/-- The header holds payload size and checksum, and fields are read in order at 4-byte alignment. -/
structure BaseLibrary.Lawful (base : BaseLibrary) : Prop where
  pickle : ∀ data : List Byte, 8 ≤ data.length → (wordAt 32 data 0).toNat = data.length - 8 →
    base.hasData data = true ∧ base.headerSize data = 8 ∧ base.payloadBytes data = data.drop 8
  read : ∀ (payload : List Byte) (readIndex n : Nat), readIndex % 4 = 0 →
    readIndex + (n + 3) / 4 * 4 ≤ payload.length →
    base.readBytes payload readIndex n =
      some (seg payload readIndex n, readIndex + (n + 3) / 4 * 4)

structure PickleIterator where
  payload : List Byte
  readIndex : Nat := 0

namespace PickleIterator

def readUInt32 (base : BaseLibrary) (it : PickleIterator) : Option (BitVec 32 × PickleIterator) := do
  let (bytes, next) ← base.readBytes it.payload it.readIndex 4
  some (word 32 bytes, { it with readIndex := next })

def readUInt64 (base : BaseLibrary) (it : PickleIterator) : Option (BitVec 64 × PickleIterator) := do
  let (bytes, next) ← base.readBytes it.payload it.readIndex 8
  some (word 64 bytes, { it with readIndex := next })

def readInt64 (base : BaseLibrary) (it : PickleIterator) : Option (BitVec 64 × PickleIterator) :=
  it.readUInt64 base

end PickleIterator

def kSimpleIndexMagicNumber : BitVec 64 := 0x656e74657220796f#64
def kSimpleVersion : BitVec 32 := 9#32
def kMinSimpleIndexFileVersionSupported : BitVec 32 := 8#32
def kMaxEntriesInIndex : Nat := 1000000
def indexWriteReasonMax : BitVec 32 := 4#32

structure IndexMetadata where
  magicNumber : BitVec 64
  version : BitVec 32
  reason : BitVec 32
  entryCount : BitVec 64
  cacheSize : BitVec 64

namespace IndexMetadata

def appCacheHasTrailerPrefetchSize (m : IndexMetadata) : Bool := 9#32 ≤ m.version

def deserialize (base : BaseLibrary) (it : PickleIterator) :
    Option (IndexMetadata × PickleIterator) := do
  let (magicNumber, it) ← it.readUInt64 base
  let (version, it) ← it.readUInt32 base
  let (entryCount, it) ← it.readUInt64 base
  let (cacheSize, it) ← it.readUInt64 base
  let (reason, it) ← it.readUInt32 base
  some ({ magicNumber, version, reason, entryCount, cacheSize }, it)

def checkIndexMetadata (m : IndexMetadata) : Bool :=
  if m.entryCount.toNat > kMaxEntriesInIndex ∨ m.magicNumber ≠ kSimpleIndexMagicNumber then false
  else m.version ≥ kMinSimpleIndexFileVersionSupported ∧ m.version ≤ kSimpleVersion ∧
    m.reason < indexWriteReasonMax

end IndexMetadata

/-- `EntryMetadata`; its first field is the union of a time and a prefetch size. -/
structure EntryMetadata where
  lastUsedTimeOrTrailerPrefetchSize : BitVec 32 := 0#32
  entrySize256bChunks : BitVec 30 := 0#30
  inMemoryData : BitVec 2 := 0#2

namespace EntryMetadata

/-- `saturated_cast<uint32_t>` -/
def saturatedCast (x : Int) : BitVec 32 := BitVec.ofInt 32 (max 0 (min x (2 ^ 32 - 1)))

def setLastUsedTime (base : BaseLibrary) (m : EntryMetadata) (lastUsedTime : BitVec 64) :
    EntryMetadata :=
  let seconds := saturatedCast (base.inSeconds lastUsedTime)
  { m with lastUsedTimeOrTrailerPrefetchSize :=
      if lastUsedTime = 0#64 then 0#32 else if seconds = 0#32 then 1#32 else seconds }

/-- The prefetch size is set when it is an unsigned int and not zero. -/
def setTrailerPrefetchSize (m : EntryMetadata) (size : BitVec 64) : EntryMetadata :=
  if size.toNat < 2 ^ 32 ∧ size ≠ 0#64 then
    { m with lastUsedTimeOrTrailerPrefetchSize := size.setWidth 32 }
  else m

/-- `UnpackEntrySizeAndInMemoryData`: a `uint32_t` and a `uint8_t`. -/
def unpackEntrySizeAndInMemoryData (tmpEntrySize : BitVec 64) : BitVec 32 × BitVec 8 :=
  ((tmpEntrySize >>> 8).setWidth 32, (tmpEntrySize &&& 0x03#64).setWidth 8)

/-- The packed fields, cut to the widths they are kept in. -/
def setPacked (m : EntryMetadata) (tmpEntrySize : BitVec 64) : EntryMetadata :=
  { m with
    entrySize256bChunks := (unpackEntrySizeAndInMemoryData tmpEntrySize).1.setWidth 30
    inMemoryData := (unpackEntrySizeAndInMemoryData tmpEntrySize).2.setWidth 2 }

def setTimeOrPrefetchSize (base : BaseLibrary) (appCache appCacheHasTrailerPrefetchSize : Bool)
    (m : EntryMetadata) (tmpTimeOrPrefetchSize : BitVec 64) : EntryMetadata :=
  if appCache then
    if appCacheHasTrailerPrefetchSize then m.setTrailerPrefetchSize tmpTimeOrPrefetchSize else m
  else m.setLastUsedTime base tmpTimeOrPrefetchSize

def deserialize (base : BaseLibrary) (appCache : Bool) (it : PickleIterator)
    (appCacheHasTrailerPrefetchSize : Bool) : Option (EntryMetadata × PickleIterator) := do
  let (tmpTimeOrPrefetchSize, it) ← it.readInt64 base
  let (tmpEntrySize, it) ← it.readUInt64 base
  if tmpEntrySize >>> 38 ≠ 0#64 then none
  else
    let m : EntryMetadata := setTimeOrPrefetchSize base appCache appCacheHasTrailerPrefetchSize {}
      tmpTimeOrPrefetchSize
    some (m.setPacked tmpEntrySize, it)

end EntryMetadata

/-- `EntrySet`: a map from hashes, in the order of insertion. -/
abbrev EntrySet := List (BitVec 64 × EntryMetadata)

/-- `InsertInEntrySet`: a known hash keeps its metadata. -/
def insertInEntrySet (entryHash : BitVec 64) (m : EntryMetadata) (entries : EntrySet) : EntrySet :=
  if entryHash ∈ entries.map Prod.fst then entries else entries ++ [(entryHash, m)]

structure SimpleIndexLoadResult where
  didLoad : Bool := false
  entries : EntrySet := []
  indexWriteReason : BitVec 32 := indexWriteReasonMax
  /-- The internal value `out_cache_last_modified` is set from. -/
  cacheLastModified : Option (BitVec 64) := none

/-- The `while` loop. A round reads a record's bytes or ends the load, so it has no more rounds than
the payload has bytes. -/
def deserializeEntries (base : BaseLibrary) (appCache : Bool) (m : IndexMetadata) :
    Nat → PickleIterator → EntrySet → Option (EntrySet × PickleIterator)
  | 0, _, _ => none
  | rounds + 1, it, entries =>
    if entries.length < m.entryCount.toNat then do
      let (hashKey, it) ← it.readUInt64 base
      let (entryMetadata, it) ←
        EntryMetadata.deserialize base appCache it m.appCacheHasTrailerPrefetchSize
      deserializeEntries base appCache m rounds it (insertInEntrySet hashKey entryMetadata entries)
    else some (entries, it)

/-- The metadata, the records and the last word of a checked payload. -/
def deserializePayload (base : BaseLibrary) (appCache : Bool) (payload : List Byte) :
    Option SimpleIndexLoadResult := do
  let (indexMetadata, it) ← IndexMetadata.deserialize base { payload }
  if ¬indexMetadata.checkIndexMetadata then none
  else do
    let (entries, it) ←
      deserializeEntries base appCache indexMetadata (payload.length + 1) it []
    let (cacheLastModified, _) ← it.readInt64 base
    some
      { didLoad := true
        entries
        indexWriteReason := indexMetadata.reason
        cacheLastModified := some cacheLastModified }

/-- `SimpleIndexFile::Deserialize`; a failed load leaves the result reset. -/
def deserialize (base : BaseLibrary) (appCache : Bool) (data : List Byte) : SimpleIndexLoadResult :=
  if base.hasData data = false ∨ base.headerSize data ≠ 8 then {}
  else if wordAt 32 data 4 ≠ crc32Of (base.payloadBytes data) then {}
  else (deserializePayload base appCache (base.payloadBytes data)).getD {}

end SimpleCacheTool.Chromium
