import SimpleCacheTool.Java.Machine
import Mathlib.Logic.Function.Iterate

namespace SimpleCacheTool

open Segments

/-- One bit of the reflected CRC-32 division by the polynomial 0x04C11DB7. -/
def crc32Bit (c : BitVec 32) : BitVec 32 :=
  if c.getLsbD 0 then (c >>> 1) ^^^ 0xedb88320#32 else c >>> 1

def crc32Byte (c : BitVec 32) (b : Byte) : BitVec 32 := (crc32Bit^[8]) (c ^^^ b.setWidth 32)

/-- The checksum of `java.util.zip.CRC32` and of zlib's `crc32`. -/
def crc32Of (data : List Byte) : BitVec 32 :=
  data.foldl crc32Byte 0xffffffff#32 ^^^ 0xffffffff#32

/-- The big-endian bytes of a word, as both digests read and write them. -/
def bigEndian (v : BitVec 32) : List Byte :=
  [(v >>> 24).setWidth 8, (v >>> 16).setWidth 8, (v >>> 8).setWidth 8, v.setWidth 8]

def bigEndianWords : List Byte → List (BitVec 32)
  | a :: b :: c :: d :: rest => (a ++ b ++ c ++ d) :: bigEndianWords rest
  | _ => []

/-- The message with its 1 bit, its zeros and its 64-bit length, cut into blocks of 16 words. -/
def digestBlocks (data : List Byte) : List (List (BitVec 32)) :=
  let bits := BitVec.ofNat 64 (8 * data.length)
  let padded := data ++ [0x80#8] ++ List.replicate ((119 - data.length % 64) % 64) 0#8 ++
    bigEndian ((bits >>> 32).setWidth 32) ++ bigEndian (bits.setWidth 32)
  let words := bigEndianWords padded
  (List.range (words.length / 16)).map fun i => seg words (16 * i) 16

/-- The message schedule, latest word first, extended `n` times by `next`. -/
def extendSchedule (next : List (BitVec 32) → BitVec 32) : Nat → List (BitVec 32) → List (BitVec 32)
  | 0, w => w
  | n + 1, w => extendSchedule next n (next w :: w)

structure Sha1State where
  a : BitVec 32
  b : BitVec 32
  c : BitVec 32
  d : BitVec 32
  e : BitVec 32

def sha1Next (w : List (BitVec 32)) : BitVec 32 :=
  (w.getD 2 0 ^^^ w.getD 7 0 ^^^ w.getD 13 0 ^^^ w.getD 15 0).rotateLeft 1

def sha1Round (s : Sha1State) (t : Nat) (w : BitVec 32) : Sha1State :=
  let fk : BitVec 32 × BitVec 32 :=
    if t < 20 then ((s.b &&& s.c) ||| (~~~s.b &&& s.d), 0x5a827999#32)
    else if t < 40 then (s.b ^^^ s.c ^^^ s.d, 0x6ed9eba1#32)
    else if t < 60 then ((s.b &&& s.c) ||| (s.b &&& s.d) ||| (s.c &&& s.d), 0x8f1bbcdc#32)
    else (s.b ^^^ s.c ^^^ s.d, 0xca62c1d6#32)
  ⟨s.a.rotateLeft 5 + fk.1 + s.e + fk.2 + w, s.a, s.b.rotateLeft 30, s.c, s.d⟩

def sha1Block (s : Sha1State) (block : List (BitVec 32)) : Sha1State :=
  let w := (extendSchedule sha1Next 64 block.reverse).reverse
  let r := (w.zipIdx).foldl (fun r wt => sha1Round r wt.2 wt.1) s
  ⟨s.a + r.a, s.b + r.b, s.c + r.c, s.d + r.d, s.e + r.e⟩

/-- `MessageDigest.getInstance("SHA-1").digest(data)` -/
def sha1Of (data : List Byte) : List Byte :=
  let s := (digestBlocks data).foldl sha1Block
    ⟨0x67452301#32, 0xefcdab89#32, 0x98badcfe#32, 0x10325476#32, 0xc3d2e1f0#32⟩
  bigEndian s.a ++ bigEndian s.b ++ bigEndian s.c ++ bigEndian s.d ++ bigEndian s.e

structure Sha256State where
  a : BitVec 32
  b : BitVec 32
  c : BitVec 32
  d : BitVec 32
  e : BitVec 32
  f : BitVec 32
  g : BitVec 32
  h : BitVec 32

def sha256Constants : List (BitVec 32) :=
  [0x428a2f98#32, 0x71374491#32, 0xb5c0fbcf#32, 0xe9b5dba5#32, 0x3956c25b#32, 0x59f111f1#32,
   0x923f82a4#32, 0xab1c5ed5#32, 0xd807aa98#32, 0x12835b01#32, 0x243185be#32, 0x550c7dc3#32,
   0x72be5d74#32, 0x80deb1fe#32, 0x9bdc06a7#32, 0xc19bf174#32, 0xe49b69c1#32, 0xefbe4786#32,
   0x0fc19dc6#32, 0x240ca1cc#32, 0x2de92c6f#32, 0x4a7484aa#32, 0x5cb0a9dc#32, 0x76f988da#32,
   0x983e5152#32, 0xa831c66d#32, 0xb00327c8#32, 0xbf597fc7#32, 0xc6e00bf3#32, 0xd5a79147#32,
   0x06ca6351#32, 0x14292967#32, 0x27b70a85#32, 0x2e1b2138#32, 0x4d2c6dfc#32, 0x53380d13#32,
   0x650a7354#32, 0x766a0abb#32, 0x81c2c92e#32, 0x92722c85#32, 0xa2bfe8a1#32, 0xa81a664b#32,
   0xc24b8b70#32, 0xc76c51a3#32, 0xd192e819#32, 0xd6990624#32, 0xf40e3585#32, 0x106aa070#32,
   0x19a4c116#32, 0x1e376c08#32, 0x2748774c#32, 0x34b0bcb5#32, 0x391c0cb3#32, 0x4ed8aa4a#32,
   0x5b9cca4f#32, 0x682e6ff3#32, 0x748f82ee#32, 0x78a5636f#32, 0x84c87814#32, 0x8cc70208#32,
   0x90befffa#32, 0xa4506ceb#32, 0xbef9a3f7#32, 0xc67178f2#32]

def sha256Next (w : List (BitVec 32)) : BitVec 32 :=
  let s0 := w.getD 14 0
  let s1 := w.getD 1 0
  (s1.rotateRight 17 ^^^ s1.rotateRight 19 ^^^ (s1 >>> 10)) + w.getD 6 0 +
    (s0.rotateRight 7 ^^^ s0.rotateRight 18 ^^^ (s0 >>> 3)) + w.getD 15 0

def sha256Round (s : Sha256State) (kw : BitVec 32 × BitVec 32) : Sha256State :=
  let s1 := s.e.rotateRight 6 ^^^ s.e.rotateRight 11 ^^^ s.e.rotateRight 25
  let ch := (s.e &&& s.f) ^^^ (~~~s.e &&& s.g)
  let t1 := s.h + s1 + ch + kw.1 + kw.2
  let s0 := s.a.rotateRight 2 ^^^ s.a.rotateRight 13 ^^^ s.a.rotateRight 22
  let maj := (s.a &&& s.b) ^^^ (s.a &&& s.c) ^^^ (s.b &&& s.c)
  ⟨t1 + (s0 + maj), s.a, s.b, s.c, s.d + t1, s.e, s.f, s.g⟩

def sha256Block (s : Sha256State) (block : List (BitVec 32)) : Sha256State :=
  let w := (extendSchedule sha256Next 48 block.reverse).reverse
  let r := (sha256Constants.zip w).foldl sha256Round s
  ⟨s.a + r.a, s.b + r.b, s.c + r.c, s.d + r.d, s.e + r.e, s.f + r.f, s.g + r.g, s.h + r.h⟩

/-- `MessageDigest.getInstance("SHA-256").digest(data)` -/
def sha256Of (data : List Byte) : List Byte :=
  let s := (digestBlocks data).foldl sha256Block
    ⟨0x6a09e667#32, 0xbb67ae85#32, 0x3c6ef372#32, 0xa54ff53a#32,
     0x510e527f#32, 0x9b05688c#32, 0x1f83d9ab#32, 0x5be0cd19#32⟩
  bigEndian s.a ++ bigEndian s.b ++ bigEndian s.c ++ bigEndian s.d ++
    bigEndian s.e ++ bigEndian s.f ++ bigEndian s.g ++ bigEndian s.h

theorem sha1Of_length (data : List Byte) : (sha1Of data).length = 20 := by
  simp [sha1Of, bigEndian]

theorem sha256Of_length (data : List Byte) : (sha256Of data).length = 32 := by
  simp [sha256Of, bigEndian]

end SimpleCacheTool
