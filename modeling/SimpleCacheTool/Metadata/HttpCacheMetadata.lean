import SimpleCacheTool.Format.SimpleCacheFormat
import SimpleCacheTool.Java.Text

namespace SimpleCacheTool

open Fallible SimpleCacheFormat

namespace HttpCacheMetadata

/-- The inner loop of `indexOf`: whether the needle's bytes stand at `i`, from index `j` on. -/
def matchesAt (haystack : Bytes) (i : Int) : List Byte → Int → Java Bool
  | [], _ => .ok true
  | x :: n, j => do
    let b ← haystack.get (i32 (i + j))
    if b ≠ x then .ok false else matchesAt haystack i n (j + 1)

/-- The outer loop, for the given number of rounds at most; `i` passes the end before they run out. -/
def indexOfLoop (haystack : Bytes) (n : List Byte) : Nat → Int → Java Int
  | 0, _ => .ok (-1)
  | rounds + 1, i =>
    if i32 (i + n.length) ≤ haystack.length then do
      let found ← matchesAt haystack i n 0
      if found then .ok i else indexOfLoop haystack n rounds (i32 (i + 1))
    else .ok (-1)

def indexOf (haystack : Bytes) (needle : JString) (start : Int) : Java Int :=
  indexOfLoop haystack needle.getBytes (haystack.length + 1) start

/-- Offset of the "HTTP/1." status line inside stream 0, or -1. -/
def headerOffset (stream0 : Bytes) : Java Int := do
  if stream0.length < 8 then .ok (-1)
  else
    let hs ← indexOf stream0 (.lit "HTTP/1.") 0
    if hs < 4 then .ok (-1)
    else
      let hlen ← u32 stream0 (i32 (hs - 4))
      if hlen.toInt ≤ 0 ∨ i32 (hs + hlen.toInt) > stream0.length then .ok (-1) else .ok hs

/-- `new String(bytes, offset, length, ISO_8859_1)` -/
def newString (bytes : Bytes) (offset length : Int) : Java JString :=
  if offset < 0 ∨ length < 0 ∨ offset > bytes.length - length then .error .stringIndexOutOfBounds
  else .ok (.latin1 (bytes.sub offset.toNat length.toNat).list)

def headerBlock (stream0 : Bytes) : Java (Option JString) := do
  let hs ← headerOffset stream0
  if hs < 0 then .ok none
  else
    let hlen ← u32 stream0 (i32 (hs - 4))
    let block ← newString stream0 hs hlen.toInt
    .ok (some block)

/-- A character as `(?i)` compares it. -/
def asciiLower (c : BitVec 16) : BitVec 16 :=
  if 0x41 ≤ c.toNat ∧ c.toNat ≤ 0x5a then c + 0x20#16 else c

/-- `\d` -/
def isDigit (c : BitVec 16) : Bool := 0x30 ≤ c.toNat ∧ c.toNat ≤ 0x39

/-- `content-length:(\d+)` at the start of what is left of the block; the group. -/
def lengthAt (s : JString) : Option JString :=
  if (JString.lit "content-length:").isPrefixOf (s.map asciiLower) then
    let group := (s.drop 15).takeWhile isDigit
    if group.isEmpty then none else some group
  else none

/-- The matches of `CONTENT_LENGTH` that start with a NUL. -/
def lengthBehindZero : JString → Option JString
  | [] => none
  | c :: s => if c = 0#16 then (lengthAt s).orElse fun _ => lengthBehindZero s else lengthBehindZero s

/-- `find()` with `CONTENT_LENGTH`, and its group. -/
def findContentLength (block : JString) : Option JString :=
  (lengthAt block).orElse fun _ => lengthBehindZero block

/-- `Integer.parseInt` of decimal digits; `none` when they exceed an int. -/
def parseDigits (digits : JString) : Option Int :=
  let value : Nat := digits.foldl (fun value c => 10 * value + (c.toNat - 0x30)) 0
  if value < 2 ^ 31 then some (value : Int) else none

/-- Value of the content-length header in stream 0, or -1 when absent. -/
def contentLength (stream0 : Bytes) : Java Int := do
  match ← headerBlock stream0 with
  | none => .ok (-1)
  | some block =>
    match findContentLength block with
    | none => .ok (-1)
    | some group => .ok ((parseDigits group).getD (-1))

/-- The `while` loop past matches that do not start a line; every round moves on, so as many rounds
as there are characters are enough. -/
def lineStartLoop (block lower needle : JString) : Nat → Option Nat → Java (Option Nat)
  | 0, _ => .ok none
  | _ + 1, none => .ok none
  | rounds + 1, some idx =>
    if 0 < idx then do
      let c ← block.charAt (idx - 1)
      if c ≠ 0#16 then lineStartLoop block lower needle rounds (lower.indexOf needle (idx + 1))
      else .ok (some idx)
    else .ok (some idx)

/-- The first line that starts with the needle, by its offset in the block. -/
def findLine (jdk : Jdk) (block needle : JString) : Java (Option Nat) :=
  let lower := block.toLowerCase jdk.toLowerCase
  lineStartLoop block lower needle (lower.length + 2) (lower.indexOf needle 0)

/-- Where the line that holds an offset ends. -/
def lineEnd (block : JString) (start : Nat) : Nat :=
  match block.indexOfChar 0#16 start with
  | some e => e
  | none => block.length

def headerValue (jdk : Jdk) (stream0 : Bytes) (name : JString) : Java (Option JString) := do
  match ← headerBlock stream0 with
  | none => .ok none
  | some block =>
    let needle := name.toLowerCase jdk.toLowerCase ++ .lit ":"
    match ← findLine jdk block needle with
    | none => .ok none
    | some idx =>
      let start := idx + needle.length
      let value ← block.substring start (lineEnd block start)
      .ok (some value.trim)

/-- Value of the `content-encoding` header in stream 0, or null. -/
def contentEncoding (jdk : Jdk) (stream0 : Bytes) : Java (Option JString) := do
  match ← headerValue jdk stream0 (.lit "content-encoding") with
  | none => .ok none
  | some value => .ok (if value.isEmpty then none else some value)

/-- A string's bytes in an array; none is longer than an int. -/
def bytesOf (s : JString) : Java Bytes :=
  if h : s.getBytes.length < 2 ^ 31 then .ok ⟨s.getBytes, h⟩ else .error .outOfMemory

/-- The block with its content-length replaced; `none` when the same array is returned. -/
def replaceContentLength (jdk : Jdk) (block : Bytes) (value : JString) : Java (Option Bytes) := do
  let s := JString.latin1 block.list
  match ← findLine jdk s (.lit "content-length:") with
  | none => .ok none
  | some idx =>
    let colon := idx + (JString.lit "content-length").length
    let first ← s.substring 0 (colon + 1)
    let last ← s.substring (lineEnd s colon) s.length
    let replaced ← bytesOf (first ++ value ++ last)
    .ok (some replaced)

/-- `(n + 3) & ~3` -/
def align4 (n : Int) : Int := i32 (n + 3) - i32 (n + 3) % 4

def patchContentLength (jdk : Jdk) (stream0 : Bytes) (newLength : Int) : Java Bytes := do
  let hs ← headerOffset stream0
  if hs < 0 then .ok stream0
  else
    let hlen ← u32 stream0 (i32 (hs - 4))
    let block ← slice stream0 hs hlen.toInt
    match ← replaceContentLength jdk block (.ofInt newLength) with
    | none => .ok stream0
    | some newBlock =>
      let alignedEnd := align4 (i32 (hs + hlen.toInt))
      let head ← slice stream0 0 (i32 (hs - 4))
      let rest ← slice stream0 alignedEnd (i32 (stream0.length - alignedEnd))
      let pad := (4 - i32 (hs + newBlock.length) % 4) % 4
      let lenBytes ← newBytes 4
      let lenBytes ← putU32 lenBytes 0 (BitVec.ofNat 32 newBlock.length)
      let padding ← newBytes pad
      let out ← concat [head, lenBytes, newBlock, padding, rest]
      putU32 out 0 (BitVec.ofInt 32 (out.length - 4))

end HttpCacheMetadata

end SimpleCacheTool
