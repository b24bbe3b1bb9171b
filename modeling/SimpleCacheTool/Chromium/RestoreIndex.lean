import SimpleCacheTool.Chromium.WriteIndex
import SimpleCacheTool.Format.AsciiText

namespace SimpleCacheTool

namespace SimpleCacheFormat

/-- The digits of `%016x`. -/
def hexPadded (v : BitVec 64) : JString :=
  (List.range 16).map fun i => hexDigit (v.toNat / 16 ^ (15 - i) % 16)

def entryFileName (hash : BitVec 64) : JString := hexPadded hash ++ .lit "_0"

end SimpleCacheFormat

namespace Chromium

open SimpleCacheFormat

/-! The names of entry files. -/

/-- A digit as `%x` prints it. -/
def hexByte (v : Nat) : Byte := if v < 10 then BitVec.ofNat 8 (0x30 + v) else BitVec.ofNat 8 (0x57 + v)

/-- `%016x` -/
def convertEntryHashKeyToHexString (hashKey : BitVec 64) : List Byte :=
  (List.range 16).map fun i => hexByte (hashKey.toNat / 16 ^ (15 - i) % 16)

/-- Bytes of an ASCII text. -/
def asciiBytes (s : String) : List Byte := s.toList.map fun c => BitVec.ofNat 8 c.toNat

structure EntryFileKey where
  entryHash : BitVec 64
  doomGeneration : BitVec 64 := 0#64

/-- The name of a file of this suffix, which is a digit or an s. -/
def entryFileNameOf (key : EntryFileKey) (suffix : Byte) : List Byte :=
  if key.doomGeneration = 0#64 then
    convertEntryHashKeyToHexString key.entryHash ++ asciiBytes "_" ++ [suffix]
  else
    asciiBytes "todelete_" ++ convertEntryHashKeyToHexString key.entryHash ++ asciiBytes "_" ++
      [suffix] ++ asciiBytes "_" ++ asciiBytes (toString key.doomGeneration.toNat)

def getFilenameFromEntryFileKeyAndFileIndex (key : EntryFileKey) (fileIndex : Nat) : List Byte :=
  entryFileNameOf key (BitVec.ofNat 8 (0x30 + fileIndex))

/-! Reading the directory. -/

/-- `SimpleFileEnumerator::Entry` -/
structure DirectoryEntry where
  name : List Byte
  lastAccessed : BitVec 64
  lastModified : BitVec 64
  size : BitVec 64

/-- Where and for what cache the directory is read. -/
structure ScanConfig where
  base : BaseLibrary
  /-- `base::HexStringToUInt64` -/
  hexStringToUInt64 : List Byte → Option (BitVec 64)
  isPosix : Bool
  appCache : Bool

def getEntryHashKeyFromHexString (c : ScanConfig) (hashKey : List Byte) : Option (BitVec 64) :=
  if hashKey.length ≠ 16 then none else c.hexStringToUInt64 hashKey

/-- `CheckedNumeric<uint32_t>` of an `int64_t` -/
def checkedUInt32 (size : BitVec 64) : Option (BitVec 32) :=
  if size.toNat < 2 ^ 32 then some (size.setWidth 32) else none

def checkedAdd (x : Option (BitVec 32)) (y : BitVec 64) : Option (BitVec 32) :=
  x.bind fun x => if x.toNat + y.toNat < 2 ^ 32 then some (x + y.setWidth 32) else none

def kPlaceHolderSizeWhenInvalid : BitVec 32 := 32768#32

def lastUsedTime (c : ScanConfig) (f : DirectoryEntry) : BitVec 64 :=
  if c.isPosix = true ∧ f.lastAccessed ≠ 0#64 then f.lastAccessed else f.lastModified

/-- The entry's metadata with one more of its files. A size of 32 bits always fits. -/
def withFile (c : ScanConfig) (f : DirectoryEntry) : Option EntryMetadata → EntryMetadata
  | none =>
    let sizeToUse := (checkedUInt32 f.size).getD kPlaceHolderSizeWhenInvalid
    let m := (EntryMetadata.setEntrySize {} (sizeToUse.setWidth 64)).getD {}
    if c.appCache then m.setTrailerPrefetch 0#32 else m.setLastUsedTime c.base (lastUsedTime c f)
  | some m =>
    let tmpEntrySize :=
      (checkedAdd (checkedUInt32 f.size) m.getEntrySize).getD kPlaceHolderSizeWhenInvalid
    (m.setEntrySize (tmpEntrySize.setWidth 64)).getD m

/-- The entries found so far and the files deleted. -/
structure Scan where
  entries : EntrySet := []
  deleted : List (List Byte) := []

/-- The hash a file's name stands for, if it is that of an entry file. -/
def namedHash (c : ScanConfig) (f : DirectoryEntry) : Option (BitVec 64) :=
  if f.name.length ≠ 18 then none else getEntryHashKeyFromHexString c (f.name.take 16)

def processEntryFile (c : ScanConfig) (s : Scan) (f : DirectoryEntry) : Scan :=
  if (asciiBytes "todelete_").isPrefixOf f.name then { s with deleted := s.deleted ++ [f.name] }
  else
    match namedHash c f with
    | none => s
    | some hashKey =>
      match s.entries.find hashKey with
      | none => { s with entries := insertInEntrySet hashKey (withFile c f none) s.entries }
      | some m => { s with entries := s.entries.modify hashKey (withFile c f (some m)) }

inductive IndexInitMethod where
  | recovered
  | loaded
  | newCache
  deriving DecidableEq, Repr

/-- A load result with what is not in the file. -/
structure LoadOutcome where
  result : SimpleIndexLoadResult
  flushRequired : Bool := false
  initMethod : IndexInitMethod
  deleted : List (List Byte) := []

def syncRestoreFromDisk (c : ScanConfig) (files : List DirectoryEntry) (hasError : Bool) :
    SimpleIndexLoadResult × Bool × List (List Byte) :=
  let scan := files.foldl (processEntryFile c) {}
  ({ didLoad := !hasError, entries := scan.entries }, !hasError, scan.deleted)

/-- Startup: the index file if it is fresh, or else the directory; and the file as it is left. -/
def syncLoadIndexEntries (c : ScanConfig) (indexFile : Option (List Byte)) (readOk : Bool)
    (cacheLastModified : BitVec 64) (files : List DirectoryEntry) (hasError : Bool) :
    LoadOutcome × Option (List Byte) :=
  let (result, indexFile) := syncLoadFromDisk c.base c.appCache indexFile readOk
  let lastCacheSeenByIndex := result.cacheLastModified.getD 0#64
  if result.didLoad = true ∧ cacheLastModified.toInt ≤ lastCacheSeenByIndex.toInt then
    ({ result, initMethod := .loaded }, indexFile)
  else
    let (restored, flushRequired, deleted) := syncRestoreFromDisk c files hasError
    ({ result := restored, flushRequired, deleted
       initMethod := if indexFile.isSome then .recovered else .newCache }, none)

end Chromium

end SimpleCacheTool
