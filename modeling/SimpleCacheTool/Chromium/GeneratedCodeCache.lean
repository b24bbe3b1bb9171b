import SimpleCacheTool.Format.SimpleCacheFormat

namespace SimpleCacheTool.Chromium

open Segments SimpleCacheFormat

def kHeaderSizeInBytes : Nat := 12
def kSHAKeySizeInBytes : Nat := 64
def kInlineDataLimit : Nat := 4096
def kDedicatedDataLimit : Nat := 16384

/-- `ReadCommonDataHeader`: the response time and the data size. -/
def readCommonDataHeader (buffer : List Byte) : BitVec 64 × BitVec 32 :=
  (wordAt 64 buffer 0, wordAt 32 buffer 8)

def shouldDeduplicateEntry (isDeduplicationEnabled : Bool) (dataSize : BitVec 32) : Bool :=
  dataSize.toNat > kDedicatedDataLimit && isDeduplicationEnabled

/-- `GeneratedCodeCache::IsValidHeader` -/
def isValidHeader (isDeduplicationEnabled : Bool) (smallBuffer : List Byte) : Bool :=
  let bufferSize := smallBuffer.length
  if bufferSize < kHeaderSizeInBytes then false
  else
    let dataSize := (readCommonDataHeader smallBuffer).2
    if dataSize.toNat ≤ kInlineDataLimit then bufferSize = kHeaderSizeInBytes + dataSize.toNat
    else if !shouldDeduplicateEntry isDeduplicationEnabled dataSize then
      bufferSize = kHeaderSizeInBytes
    else bufferSize = kHeaderSizeInBytes + kSHAKeySizeInBytes

end SimpleCacheTool.Chromium
