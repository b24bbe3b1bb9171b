import SimpleCacheTool.Format.SimpleCacheFormat

namespace SimpleCacheTool

open Fallible Segments LittleEndian SimpleCacheFormat

/-- `base::Pickle`-style writer of 4-byte aligned fields; `out` is its growing byte stream. -/
structure PickleWriter where
  out : List Byte := []

namespace PickleWriter

/-- Zeros up to the next multiple of four. -/
def align4 (w : PickleWriter) : PickleWriter :=
  ⟨w.out ++ List.replicate ((4 - w.out.length % 4) % 4) 0⟩

def writeU32 (w : PickleWriter) (v : BitVec 32) : Java PickleWriter := do
  let w := w.align4
  let b ← newBytes 4
  let b ← putU32 b 0 v
  .ok ⟨w.out ++ b.list⟩

def writeU64 (w : PickleWriter) (v : BitVec 64) : Java PickleWriter := do
  let w := w.align4
  let b ← newBytes 8
  let b ← putU64 b 0 v
  .ok ⟨w.out ++ b.list⟩

def writeI64 (w : PickleWriter) (v : BitVec 64) : Java PickleWriter := w.writeU64 v

/-- The stream as an array; no array is longer than an int. -/
def toByteArray (w : PickleWriter) : Java Bytes :=
  if h : w.out.length < 2 ^ 31 then .ok ⟨w.out, h⟩ else .error .outOfMemory

theorem align4_aligned (w : PickleWriter) (h : w.out.length % 4 = 0) : w.align4 = w := by
  rw [align4, h]
  simp

theorem writeU32_eq (w : PickleWriter) (v : BitVec 32) (h : w.out.length % 4 = 0) :
    w.writeU32 v = .ok ⟨w.out ++ bytes 4 v⟩ := by
  obtain ⟨b, hb, lb⟩ := putU32_next ⟨List.replicate 4 0, by decide⟩ [] 0 0 v rfl rfl
  rw [writeU32, align4_aligned w h, show (4 : Int) = ((4 : Nat) : Int) from rfl,
    newBytes_of_nat 4 (by decide), ok_bind, hb, ok_bind, lb]
  simp

theorem writeU64_eq (w : PickleWriter) (v : BitVec 64) (h : w.out.length % 4 = 0) :
    w.writeU64 v = .ok ⟨w.out ++ bytes 8 v⟩ := by
  obtain ⟨b, hb, lb⟩ := putU64_next ⟨List.replicate 8 0, by decide⟩ [] 0 0 v rfl rfl
  rw [writeU64, align4_aligned w h, show (8 : Int) = ((8 : Nat) : Int) from rfl,
    newBytes_of_nat 8 (by decide), ok_bind, hb, ok_bind, lb]
  simp

end PickleWriter

end SimpleCacheTool
