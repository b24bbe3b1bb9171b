import SimpleCacheTool.Entry.SimpleCacheEntry
import SimpleCacheTool.Index.SimpleCacheIndex
import SimpleCacheTool.Metadata.ContentEncoding
import SimpleCacheTool.Metadata.HttpCacheMetadata

namespace SimpleCacheTool

open Fallible

namespace SimpleCacheLibrary

def parseIndex (indexFileBytes : Bytes) : Java SimpleCacheIndex :=
  SimpleCacheIndex.parse indexFileBytes true

def parseEntry (entryFileBytes : Bytes) : Java SimpleCacheEntry :=
  SimpleCacheEntry.parse entryFileBytes true

def entryHash (key : Bytes) : Java (BitVec 64) := SimpleCacheFormat.entryHash key

/-- `EntryProvider`: the bytes of an entry file; null is `none`. -/
abbrev EntryProvider := BitVec 64 → Option Bytes

structure RestoredEntry where
  hash : BitVec 64
  key : Option Bytes
  body : Bytes
  rawBody : Bytes
  metadata : Bytes
  contentEncoding : Option JString
  entry : Option SimpleCacheEntry
  warnings : List String

def RestoredEntry.hasProblems (r : RestoredEntry) : Bool := !r.warnings.isEmpty

/-- The body as restored, and a warning when it could not be decoded. -/
def decodeBody (jdk : Jdk) (stream1 : Bytes) (encoding : Option JString) :
    Java (Bytes × List String) := do
  if ← ContentEncoding.isCompressed jdk encoding then
    match ← ContentEncoding.decode jdk stream1 encoding with
    | some decoded => .ok (decoded, [])
    | none =>
      .ok (stream1, ["failed to decode content-encoding: " ++ (encoding.getD (.lit "null")).text])
  else .ok (stream1, [])

/-- One round of the `restore` loop. -/
def restoreEntry (jdk : Jdk) (provider : EntryProvider) (hash : BitVec 64) : Java RestoredEntry :=
  match provider hash with
  | none =>
    .ok { hash, key := some .empty, body := .empty, rawBody := .empty, metadata := .empty,
          contentEncoding := none, entry := none, warnings := ["missing entry file"] }
  | some raw => do
    let e ← parseEntry raw
    let encoding ← HttpCacheMetadata.contentEncoding jdk e.stream0
    let (body, problems) ← decodeBody jdk e.stream1 encoding
    .ok { hash, key := e.key, body, rawBody := e.stream1, metadata := e.stream0,
          contentEncoding := encoding, entry := some e, warnings := e.warnings ++ problems }

def restoreEntries (jdk : Jdk) (provider : EntryProvider) :
    List IndexEntry → Java (List RestoredEntry)
  | [] => .ok []
  | ie :: ies => do
    let r ← restoreEntry jdk provider ie.hash
    let rs ← restoreEntries jdk provider ies
    .ok (r :: rs)

def restore (jdk : Jdk) (indexFileBytes : Bytes) (provider : EntryProvider) :
    Java (List RestoredEntry) := do
  let index ← parseIndex indexFileBytes
  restoreEntries jdk provider index.entries

/-- The new body as it goes into stream 1. -/
def storedBody (jdk : Jdk) (stream0 newBody : Bytes) (autoContentEncoding : Bool) : Java Bytes :=
  if autoContentEncoding then do
    let encoding ← HttpCacheMetadata.contentEncoding jdk stream0
    if ← ContentEncoding.isCompressed jdk encoding then
      match ← ContentEncoding.encode jdk newBody encoding with
      | some encoded => .ok encoded
      | none => .error (.illegalArgument
          ("cannot encode content-encoding: " ++ (encoding.getD (.lit "null")).text))
    else .ok newBody
  else .ok newBody

def modifyEntryBody (jdk : Jdk) (entryFileBytes newBody : Bytes) (autoContentEncoding : Bool) :
    Java Bytes := do
  let e ← parseEntry entryFileBytes
  let stored ← storedBody jdk e.stream0 newBody autoContentEncoding
  let stream0 ← HttpCacheMetadata.patchContentLength jdk e.stream0 stored.length
  let (out, _) ← SimpleCacheEntry.serialize { e with stream1 := stored, stream0 := stream0 }
    e.eof0.hasKeySha256
  .ok out

def updateIndex (indexFileBytes newEntryFileBytes : Bytes) (lastUsedInternal : BitVec 64) :
    Java Bytes := do
  let index ← parseIndex indexFileBytes
  let e ← parseEntry newEntryFileBytes
  let key ← deref e.key
  let hash ← SimpleCacheFormat.entryHash key
  let entry ← IndexEntry.new hash lastUsedInternal (BitVec.ofNat 64 newEntryFileBytes.length)
  let index := (index.put entry).recomputeCacheSize
  SimpleCacheIndex.serialize
    { index with
      reason := reasonIdle
      cacheLastModifiedInternal := lastUsedInternal }

structure ModifyResult where
  hash : BitVec 64
  entryFile : Bytes
  indexFile : Bytes

def modify (jdk : Jdk) (indexFileBytes entryFileBytes newBody : Bytes)
    (lastUsedInternal : BitVec 64) : Java ModifyResult := do
  let newEntry ← modifyEntryBody jdk entryFileBytes newBody true
  let newIndex ← updateIndex indexFileBytes newEntry lastUsedInternal
  let e ← parseEntry newEntry
  let key ← deref e.key
  let hash ← entryHash key
  .ok { hash, entryFile := newEntry, indexFile := newIndex }

end SimpleCacheLibrary

end SimpleCacheTool
