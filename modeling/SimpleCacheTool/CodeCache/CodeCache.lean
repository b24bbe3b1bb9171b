import SimpleCacheTool.Entry.SimpleCacheEntry
import SimpleCacheTool.Format.AsciiText

namespace SimpleCacheTool

open Fallible

namespace CodeCache

def keyPrefix : JString := .lit "_key"
def separator : JString := .lit " \n"
def headerSize : Nat := 12
def inlineLimit : Nat := 4096
def dedicatedLimit : Nat := 16384
def shaKeyLength : Nat := 64

inductive Kind where
  | inline
  | dedicated
  | indirect
  | shaDedup
  | empty
  | unknown
  deriving DecidableEq, Repr

/-- A null payload or checksum key is `none`. -/
structure Decoded where
  kind : Kind := .unknown
  responseTimeInternal : BitVec 64 := 0#64
  dataSize : BitVec 32 := 0#32
  payload : Option Bytes := none
  checksumKey : Option JString := none
  deriving DecidableEq, Repr

def resourceKey (url : JString) : JString := keyPrefix ++ url

/-- `cacheKey(url)`, with an empty context key. -/
def cacheKey (url : JString) : JString := resourceKey url ++ separator

/-- `cacheKey(url, contextKey)`; a null context is an empty one. -/
def cacheKeyIn (url : JString) (contextKey : Option JString) : JString :=
  resourceKey url ++ separator ++ contextKey.getD []

/-- The resource URL in a code cache key, or null. -/
def urlFromKey (key : Option JString) : Java (Option JString) :=
  match key with
  | none => .ok none
  | some key =>
    if keyPrefix.isPrefixOf key then
      match key.indexOf separator 0 with
      | none => .ok none
      | some sep =>
        if sep < keyPrefix.length then .ok none
        else do
          let url ← key.substring keyPrefix.length sep
          .ok (some url)
    else .ok none

/-- Streams may be null. -/
def decode (stream0 stream1 : Option Bytes) : Java Decoded := do
  let s0 := stream0.getD .empty
  let s1 := stream1.getD .empty
  if s0.length = 0 then
    if s1.length > 0 then
      .ok { kind := .shaDedup, dataSize := BitVec.ofNat 32 s1.length, payload := some s1 }
    else .ok { kind := .empty }
  else if s0.length < headerSize then .ok {}
  else do
    let responseTimeInternal ← SimpleCacheFormat.u64 s0 0
    let dataSize ← SimpleCacheFormat.u32 s0 8
    let rest : Int := s0.length - headerSize
    let tail ← SimpleCacheFormat.slice s0 headerSize rest
    if s1.length > 0 then
      .ok { kind := .dedicated, responseTimeInternal, dataSize, payload := some s1 }
    else if rest = dataSize.toInt ∧ dataSize.toInt > 0 then
      .ok { kind := .inline, responseTimeInternal, dataSize, payload := some tail }
    else if rest = shaKeyLength then
      .ok { kind := .indirect, responseTimeInternal, dataSize,
            checksumKey := some (JString.usAscii tail.list) }
    else if rest = 0 ∧ dataSize = 0#32 then
      .ok { kind := .empty, responseTimeInternal, dataSize }
    else .ok { kind := .unknown, responseTimeInternal, dataSize }

/-- The entries of a build; there is no second one for a small payload. -/
structure Built where
  primary : SimpleCacheEntry
  dedup : Option SimpleCacheEntry := none

def header (responseTimeInternal : BitVec 64) (dataSize : Nat) : Java Bytes := do
  let h ← newBytes headerSize
  let h ← SimpleCacheFormat.putU64 h 0 responseTimeInternal
  SimpleCacheFormat.putU32 h 8 (BitVec.ofNat 32 dataSize)

def build (url : JString) (data : Bytes) (responseTime : BitVec 64) (uppercaseSha : Bool) :
    Java Built := do
  let key := cacheKey url
  let size := data.length
  let header ← header responseTime size
  if size ≤ inlineLimit then do
    let key ← SimpleCacheFormat.ascii key
    let stream0 ← SimpleCacheFormat.concat [header, data]
    .ok { primary := { key := some key, stream0, stream1 := .empty } }
  else if size ≤ dedicatedLimit then do
    let key ← SimpleCacheFormat.ascii key
    .ok { primary := { key := some key, stream0 := header, stream1 := data } }
  else do
    let checksum ← SimpleCacheFormat.hex (SimpleCacheFormat.sha256 data)
    let checksum := if uppercaseSha then checksum.asciiUpper else checksum
    let smallKey ← SimpleCacheFormat.ascii key
    let checksumBytes ← SimpleCacheFormat.ascii checksum
    let stream0 ← SimpleCacheFormat.concat [header, checksumBytes]
    let bigKey ← SimpleCacheFormat.ascii checksum
    .ok { primary := { key := some smallKey, stream0, stream1 := .empty }
          dedup := some { key := some bigKey, stream0 := .empty, stream1 := data } }

end CodeCache

end SimpleCacheTool
