import SimpleCacheTool.Format.KeyHash

namespace SimpleCacheTool

open Fallible Segments LittleEndian SimpleCacheFormat

/-- `SimpleCacheEntry.Eof`: an EOF record of an entry file, as stored. -/
@[ext] structure Eof where
  magic : BitVec 64 := 0#64
  flags : BitVec 32 := 0#32
  crc32 : BitVec 32 := 0#32
  streamSize : BitVec 32 := 0#32
  padding : BitVec 32 := 0#32
  deriving DecidableEq, Repr

namespace Eof

def hasCrc32 (e : Eof) : Bool := e.flags &&& flagHasCrc32 != 0#32

def hasKeySha256 (e : Eof) : Bool := e.flags &&& flagHasKeySha256 != 0#32

def read (d : Bytes) (off : Int) : Java Eof := do
  let magic ← u64 d off
  let flags ← u32 d (i32 (off + 8))
  let crc32 ← u32 d (i32 (off + 12))
  let streamSize ← u32 d (i32 (off + 16))
  let padding ← u32 d (i32 (off + 20))
  .ok { magic, flags, crc32, streamSize, padding }

def write (e : Eof) (d : Bytes) (off : Int) : Java Bytes := do
  let d ← putU64 d off e.magic
  let d ← putU32 d (i32 (off + 8)) e.flags
  let d ← putU32 d (i32 (off + 12)) e.crc32
  let d ← putU32 d (i32 (off + 16)) e.streamSize
  putU32 d (i32 (off + 20)) e.padding

end Eof

/-- An entry file in memory. A null key or checksum is `none`. -/
@[ext] structure SimpleCacheEntry where
  initialMagic : BitVec 64 := SimpleCacheFormat.initialMagic
  version : BitVec 32 := SimpleCacheFormat.entryVersion
  keyLength : BitVec 32 := 0#32
  keyHash : BitVec 32 := 0#32
  headerPadding : BitVec 32 := 0#32
  key : Option Bytes := none
  stream1 : Bytes := .empty
  eof1 : Eof := {}
  stream0 : Bytes := .empty
  keySha256 : Option Bytes := none
  eof0 : Eof := {}
  warnings : List String := []
  deriving DecidableEq, Repr

/-- A dereference; `null` throws. -/
def deref {α : Type} : Option α → Java α
  | some a => .ok a
  | none => .error .nullPointer

namespace SimpleCacheEntry

def verify (e : SimpleCacheEntry) : Java SimpleCacheEntry := do
  let key ← deref e.key
  let hash ← SimpleCacheFormat.keyHash key
  let w1 := if hash ≠ e.keyHash then ["header key_hash mismatch"] else []
  let w2 := if e.eof1.hasCrc32 ∧ SimpleCacheFormat.crc32 e.stream1 ≠ e.eof1.crc32 then
    ["stream1 crc32 mismatch"] else []
  let w3 := if e.eof0.hasCrc32 ∧ SimpleCacheFormat.crc32 e.stream0 ≠ e.eof0.crc32 then
    ["stream0 crc32 mismatch"] else []
  let w4 := match e.keySha256 with
    | some sha => if e.eof0.hasKeySha256 ∧ sha256 key ≠ sha then ["sha256(key) mismatch"] else []
    | none => []
  .ok { e with warnings := e.warnings ++ w1 ++ w2 ++ w3 ++ w4 }

/-- The stored SHA256 before the last record, when `parse` has made room for one. -/
def readKeySha256 (data : Bytes) (eof0Off extra : Int) : Java (Option Bytes) :=
  if extra = sha256Size then (slice data (i32 (eof0Off - sha256Size)) sha256Size).map some
  else .ok none

def parse (data : Bytes) (verify : Bool) : Java SimpleCacheEntry := do
  throwIf (data.length < headerSize + eofSize)
    (.illegalArgument ("file too small: " ++ toString data.length))
  let initialMagic ← u64 data 0
  let version ← u32 data 8
  let keyLength ← u32 data 12
  let keyHash ← u32 data 16
  let headerPadding ← u32 data 20
  throwIf (initialMagic ≠ SimpleCacheFormat.initialMagic)
    (.illegalArgument ("bad initial magic 0x" ++ initialMagic.toHex))
  let keyEnd := i32 (headerSize + keyLength.toInt)
  throwIf (keyEnd > data.length) (.illegalArgument "key extends past end of file")
  let key ← slice data headerSize keyLength.toInt
  -- stream 0 EOF is the very last record.
  let eof0Off := i32 (data.length - eofSize)
  let eof0 ← Eof.read data eof0Off
  throwIf (eof0.magic ≠ finalMagic)
    (.illegalArgument ("bad stream0 EOF magic 0x" ++ eof0.magic.toHex))
  let stream0Size := eof0.streamSize.toInt
  let extra : Int := if eof0.hasKeySha256 then sha256Size else 0
  let stream0Start := i32 (i32 (eof0Off - extra) - stream0Size)
  let eof1Off := i32 (stream0Start - eofSize)
  throwIf (eof1Off < keyEnd) (.illegalArgument "computed stream1 EOF before key end")
  let eof1 ← Eof.read data eof1Off
  throwIf (eof1.magic ≠ finalMagic)
    (.illegalArgument ("bad stream1 EOF magic 0x" ++ eof1.magic.toHex))
  throwIf (stream0Size < 0 ∨ stream0Start < i32 (eof1Off + eofSize))
    (.illegalArgument "invalid stream0 size")
  let stream1 ← slice data keyEnd (i32 (eof1Off - keyEnd))
  let stream0 ← slice data stream0Start stream0Size
  let keySha256 ← readKeySha256 data eof0Off extra
  let e : SimpleCacheEntry :=
    { initialMagic, version, keyLength, keyHash, headerPadding,
      key := some key, stream1, eof1, stream0, keySha256, eof0 }
  if verify then e.verify else .ok e

/-- The serialized file, and the entry as `serialize` leaves it. -/
def serialize (e : SimpleCacheEntry) (withKeySha256 : Bool) : Java (Bytes × SimpleCacheEntry) := do
  throwIf (e.key = none) (.illegalState "key is required")
  let key ← deref e.key
  let keyHash ← SimpleCacheFormat.keyHash key
  let eof1 : Eof :=
    { magic := finalMagic
      flags := flagHasCrc32
      crc32 := SimpleCacheFormat.crc32 e.stream1
      streamSize := 0#32
      padding := 0#32 }
  let eof0 : Eof :=
    { magic := finalMagic
      flags := flagHasCrc32 ||| (if withKeySha256 then flagHasKeySha256 else 0#32)
      crc32 := SimpleCacheFormat.crc32 e.stream0
      streamSize := BitVec.ofNat 32 e.stream0.length
      padding := 0#32 }
  let e :=
    { e with
      keyLength := BitVec.ofNat 32 key.length
      keyHash := keyHash
      headerPadding := 0#32
      eof1 := eof1
      eof0 := eof0 }
  let header ← newBytes headerSize
  let header ← putU64 header 0 e.initialMagic
  let header ← putU32 header 8 e.version
  let header ← putU32 header 12 e.keyLength
  let header ← putU32 header 16 e.keyHash
  let header ← putU32 header 20 e.headerPadding
  let eof1Bytes ← newBytes eofSize
  let eof1Bytes ← e.eof1.write eof1Bytes 0
  let eof0Bytes ← newBytes eofSize
  let eof0Bytes ← e.eof0.write eof0Bytes 0
  let sha := if withKeySha256 then sha256 key else .empty
  let e := { e with keySha256 := if withKeySha256 then some sha else none }
  let out ← concat [header, key, e.stream1, eof1Bytes, e.stream0, sha, eof0Bytes]
  .ok (out, e)

/-- Total on-disk size this entry would occupy once serialized. -/
def serializedSize (e : SimpleCacheEntry) (withKeySha256 : Bool) : Java Int := do
  let key ← deref e.key
  .ok (i32 (i32 (i32 (i32 (i32 (i32 (headerSize + key.length) + e.stream1.length) + eofSize) +
    e.stream0.length) + (if withKeySha256 then sha256Size else 0)) + eofSize))

end SimpleCacheEntry

end SimpleCacheTool
