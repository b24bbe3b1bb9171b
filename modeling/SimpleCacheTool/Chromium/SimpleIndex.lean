import SimpleCacheTool.Chromium.SimpleIndexFile
import SimpleCacheTool.Math.KeyedList

namespace SimpleCacheTool.Chromium

/-- The cache types that the index tells apart. -/
inductive CacheType where
  | appCache
  | generatedByteCodeCache
  | generatedWebuiByteCodeCache
  | other
  deriving DecidableEq, Repr

def kEvictionMarginDivisor : BitVec 64 := 20#64
def kEstimatedEntryOverhead : BitVec 64 := 512#64

namespace EntryMetadata

def getEntrySize (m : EntryMetadata) : BitVec 64 := m.entrySize256bChunks.setWidth 64 <<< 8

/-- The size rounded up to chunks; none when it does not fit its field. -/
def setEntrySize (m : EntryMetadata) (entrySize : BitVec 64) : Option EntryMetadata :=
  let roundedChunk := (entrySize + 255#64) >>> 8
  if roundedChunk >>> 30 ≠ 0#64 then none
  else some { m with entrySize256bChunks := roundedChunk.setWidth 30 }

/-- `SetTrailerPrefetchSize` -/
def setTrailerPrefetch (m : EntryMetadata) (size : BitVec 32) : EntryMetadata :=
  if size = 0#32 then m else { m with lastUsedTimeOrTrailerPrefetchSize := size }

end EntryMetadata

/-- What an index is constructed with. -/
structure IndexConfig where
  base : BaseLibrary
  cacheType : CacheType
  prioritizedCachingEnabled : Bool
  cachingPrioritizationFactor : BitVec 64
  cachingPrioritizationPeriodInSeconds : BitVec 64
  hintHighPriority : BitVec 2

/-- The index in memory, with what it has asked of others so far. -/
structure SimpleIndex where
  entriesSet : EntrySet := []
  cacheSize : BitVec 64 := 0#64
  maxSize : BitVec 64 := 0#64
  highWatermark : BitVec 64 := 0#64
  lowWatermark : BitVec 64 := 0#64
  evictionInProgress : Bool := false
  removedEntries : List (BitVec 64) := []
  initialized : Bool := false
  /-- Whether `write_to_disk_timer_` is running. -/
  writePending : Bool := false
  toRunWhenInitialized : List Nat := []
  /-- The tasks posted, the hashes given to `DoomEntries` and the arguments of `WriteToDisk`, in order. -/
  posted : List Nat := []
  doomed : List (BitVec 64) := []
  written : List (EntrySet × BitVec 64) := []

namespace EntrySet

def find (entries : EntrySet) (hash : BitVec 64) : Option EntryMetadata := entries.lookup hash

def erase (entries : EntrySet) (hash : BitVec 64) : EntrySet := entries.filter fun e => e.1 ≠ hash

/-- The metadata behind an iterator changed in place. -/
def modify (entries : EntrySet) (hash : BitVec 64) (m : EntryMetadata) : EntrySet :=
  entries.map fun e => if e.1 = hash then (e.1, m) else e

/-- The sizes added up as the index does. -/
def sumSizes (entries : EntrySet) : BitVec 64 :=
  entries.foldl (fun size e => size + e.2.getEntrySize) 0#64

end EntrySet

namespace SimpleIndex

def postponeWritingToDisk (s : SimpleIndex) : SimpleIndex :=
  if s.initialized then { s with writePending := true } else s

def writeToDisk (s : SimpleIndex) : SimpleIndex :=
  if s.initialized then
    { s with writePending := false, written := s.written ++ [(s.entriesSet, s.cacheSize)] }
  else s

/-- The new size in the entry and in the total, and whether it differs from the old one. -/
def updateEntryIteratorSize (s : SimpleIndex) (hash : BitVec 64) (m : EntryMetadata)
    (entrySize : BitVec 64) : SimpleIndex × Bool :=
  match m.setEntrySize entrySize with
  | none => (s, false)
  | some m' =>
    ({ s with
        entriesSet := s.entriesSet.modify hash m'
        cacheSize := s.cacheSize - m.getEntrySize + m'.getEntrySize },
      m.getEntrySize ≠ m'.getEntrySize)

/-- What an entry starts with. -/
def newMetadata (c : IndexConfig) (now : BitVec 64) : EntryMetadata :=
  if c.cacheType = .appCache then EntryMetadata.setTrailerPrefetch {} (-1)
  else EntryMetadata.setLastUsedTime c.base {} now

def insert (c : IndexConfig) (s : SimpleIndex) (hash now : BitVec 64) : SimpleIndex :=
  let inserted := (s.entriesSet.find hash).isNone
  let s :=
    { s with
      entriesSet := insertInEntrySet hash (newMetadata c now) s.entriesSet
      removedEntries :=
        if s.initialized then s.removedEntries else s.removedEntries.filter (· ≠ hash) }
  if inserted then s.postponeWritingToDisk else s

/-- A known entry taken out, its size off the total first. -/
def eraseEntry (s : SimpleIndex) (hash : BitVec 64) (m : EntryMetadata) : SimpleIndex :=
  let s := (s.updateEntryIteratorSize hash m 0#64).1
  { s with entriesSet := s.entriesSet.erase hash }

def noteRemoved (s : SimpleIndex) (hash : BitVec 64) : SimpleIndex :=
  { s with removedEntries := if s.initialized then s.removedEntries else hash :: s.removedEntries }

def remove (s : SimpleIndex) (hash : BitVec 64) : SimpleIndex :=
  match s.entriesSet.find hash with
  | some m => ((s.eraseEntry hash m).noteRemoved hash).postponeWritingToDisk
  | none => s.noteRemoved hash

def has (s : SimpleIndex) (hash : BitVec 64) : Bool :=
  !s.initialized || (s.entriesSet.find hash).isSome

def setEntryInMemoryData (s : SimpleIndex) (hash : BitVec 64) (value : BitVec 2) : SimpleIndex :=
  match s.entriesSet.find hash with
  | none => s
  | some m => { s with entriesSet := s.entriesSet.modify hash { m with inMemoryData := value } }

/-- The index after the call and the call's result. -/
def useIfExists (c : IndexConfig) (s : SimpleIndex) (hash now : BitVec 64) : SimpleIndex × Bool :=
  match s.entriesSet.find hash with
  | none => (s, !s.initialized)
  | some m =>
    if c.cacheType = .appCache then (s, true)
    else
      ({ s with entriesSet := s.entriesSet.modify hash (m.setLastUsedTime c.base now) }
        |>.postponeWritingToDisk, true)

def setTrailerPrefetchSize (s : SimpleIndex) (hash : BitVec 64) (size : BitVec 32) : SimpleIndex :=
  match s.entriesSet.find hash with
  | none => s
  | some m =>
    let m' := m.setTrailerPrefetch size
    let s := { s with entriesSet := s.entriesSet.modify hash m' }
    if m.lastUsedTimeOrTrailerPrefetchSize ≠ m'.lastUsedTimeOrTrailerPrefetchSize then
      s.postponeWritingToDisk
    else s

/-! Eviction. -/

/-- How much an entry speaks for being evicted. -/
def sortValue (c : IndexConfig) (now : BitVec 32) (m : EntryMetadata) : BitVec 64 :=
  let timeSinceLastUsed := (now - m.lastUsedTimeOrTrailerPrefetchSize).setWidth 64
  if c.cacheType = .generatedByteCodeCache ∨ c.cacheType = .generatedWebuiByteCodeCache then
    timeSinceLastUsed
  else
    let sortValue := timeSinceLastUsed * (m.getEntrySize + kEstimatedEntryOverhead)
    if c.prioritizedCachingEnabled ∧ timeSinceLastUsed < c.cachingPrioritizationPeriodInSeconds ∧
        m.inMemoryData &&& c.hintHighPriority = c.hintHighPriority then
      sortValue / c.cachingPrioritizationFactor
    else sortValue

/-- Where the entries lie in memory, by their hashes, at the time of an eviction. -/
abbrev Addresses := BitVec 64 → Nat

/-- The order of the pairs of score and pointer. -/
def evictedBefore (c : IndexConfig) (now : BitVec 32) (address : Addresses)
    (a b : BitVec 64 × EntryMetadata) : Bool :=
  let scoreOf (m : EntryMetadata) : BitVec 64 := BitVec.allOnes 64 - sortValue c now m
  decide (scoreOf a.2 < scoreOf b.2 ∨
    scoreOf a.2 = scoreOf b.2 ∧ address a.1 ≤ address b.1)

/-- The loop over the sorted entries. -/
def chooseEntries (amountToEvict : BitVec 64) : BitVec 64 → EntrySet → List (BitVec 64)
  | _, [] => []
  | evictedSoFarSize, e :: es =>
    if evictedSoFarSize ≥ amountToEvict then []
    else e.1 :: chooseEntries amountToEvict (evictedSoFarSize + e.2.getEntrySize) es

/-- The hashes that are evicted from an index over its high watermark. -/
def entryHashes (c : IndexConfig) (s : SimpleIndex) (now : BitVec 64) (address : Addresses) :
    List (BitVec 64) :=
  let now := BitVec.ofInt 32 (c.base.inSeconds now)
  chooseEntries (s.cacheSize - s.lowWatermark) 0#64
    (s.entriesSet.mergeSort (evictedBefore c now address))

/-- `SimpleBackendImpl::DoomEntries` as far as the index sees it: every hash is removed. -/
def doomEntries (s : SimpleIndex) (hashes : List (BitVec 64)) : SimpleIndex :=
  { hashes.foldl remove s with doomed := s.doomed ++ hashes }

def startEvictionIfNeeded (c : IndexConfig) (s : SimpleIndex) (now : BitVec 64)
    (address : Addresses) : SimpleIndex :=
  if s.evictionInProgress ∨ s.cacheSize ≤ s.highWatermark then s
  else { s with evictionInProgress := true }.doomEntries (s.entryHashes c now address)

def evictionDone (s : SimpleIndex) : SimpleIndex := { s with evictionInProgress := false }

def setMaxSize (c : IndexConfig) (s : SimpleIndex) (maxBytes now : BitVec 64)
    (address : Addresses) : SimpleIndex :=
  let shrinking := maxBytes < s.maxSize
  let s :=
    { s with
      maxSize := maxBytes
      highWatermark := maxBytes - maxBytes / kEvictionMarginDivisor
      lowWatermark := maxBytes - 2#64 * (maxBytes / kEvictionMarginDivisor) }
  if shrinking then s.startEvictionIfNeeded c now address else s

/-- The index after the call and the call's result. -/
def updateEntrySize (c : IndexConfig) (s : SimpleIndex) (hash entrySize now : BitVec 64)
    (address : Addresses) : SimpleIndex × Bool :=
  match s.entriesSet.find hash with
  | none => (s, false)
  | some m =>
    let (s, changed) := s.updateEntryIteratorSize hash m entrySize
    if changed then (s.postponeWritingToDisk.startEvictionIfNeeded c now address, true)
    else (s, true)

/-! Loading. -/

def executeWhenReady (s : SimpleIndex) (task : Nat) : SimpleIndex :=
  if s.initialized then { s with posted := s.posted ++ [task] }
  else { s with toRunWhenInitialized := s.toRunWhenInitialized ++ [task] }

/-- What the file says of an entry gives way to what happened to it meanwhile. -/
def mergedEntries (s : SimpleIndex) (indexFileEntries : EntrySet) : EntrySet :=
  KeyedList.upserts Prod.fst (indexFileEntries.filter fun e => !s.removedEntries.contains e.1) s.entriesSet

def mergeInitializingSet (s : SimpleIndex) (indexFileEntries : EntrySet) (flushRequired : Bool) :
    SimpleIndex :=
  let merged := s.mergedEntries indexFileEntries
  let s :=
    { s with
      entriesSet := merged
      cacheSize := merged.sumSizes
      removedEntries := []
      initialized := true }
  let s := if flushRequired then s.writeToDisk else s
  { s with posted := s.posted ++ s.toRunWhenInitialized, toRunWhenInitialized := [] }

end SimpleIndex

/-- What can happen to an index; the time of the call comes along where it is looked at, and where the
entries lie. -/
inductive IndexEvent where
  | insert (hash now : BitVec 64)
  | remove (hash : BitVec 64)
  | useIfExists (hash now : BitVec 64)
  | setEntryInMemoryData (hash : BitVec 64) (value : BitVec 2)
  | setTrailerPrefetchSize (hash : BitVec 64) (size : BitVec 32)
  | updateEntrySize (hash entrySize now : BitVec 64) (address : SimpleIndex.Addresses)
  | setMaxSize (maxBytes now : BitVec 64) (address : SimpleIndex.Addresses)
  | evictionDone
  | executeWhenReady (task : Nat)
  | mergeInitializingSet (indexFileEntries : EntrySet) (flushRequired : Bool)
  | writeToDisk

def SimpleIndex.step (c : IndexConfig) (s : SimpleIndex) : IndexEvent → SimpleIndex
  | .insert hash now => s.insert c hash now
  | .remove hash => s.remove hash
  | .useIfExists hash now => (s.useIfExists c hash now).1
  | .setEntryInMemoryData hash value => s.setEntryInMemoryData hash value
  | .setTrailerPrefetchSize hash size => s.setTrailerPrefetchSize hash size
  | .updateEntrySize hash entrySize now address => (s.updateEntrySize c hash entrySize now address).1
  | .setMaxSize maxBytes now address => s.setMaxSize c maxBytes now address
  | .evictionDone => s.evictionDone
  | .executeWhenReady task => s.executeWhenReady task
  | .mergeInitializingSet entries flushRequired => s.mergeInitializingSet entries flushRequired
  | .writeToDisk => s.writeToDisk

end SimpleCacheTool.Chromium
