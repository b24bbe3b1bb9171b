import SimpleCacheTool.Chromium.SuperFastHash
import SimpleCacheTool.Format.SimpleCacheFormat

namespace SimpleCacheTool.SimpleCacheFormat

open Fallible Chromium

def get16 (d : Bytes) (p : Int) : Java (BitVec 32) := do
  let lo ← d.get p
  let hi ← d.get (i32 (p + 1))
  .ok (lo.setWidth 32 ||| (hi.setWidth 32 <<< 8))

/-- The main loop of `keyHash`, with `n` rounds to go from index `i`. -/
def keyHashLoop (data : Bytes) : Nat → BitVec 32 → Int → Java (BitVec 32 × Int)
  | 0, hash, i => .ok (hash, i)
  | n + 1, hash, i => do
    let lo ← get16 data i
    let hash := hash + lo
    let hi ← get16 data (i32 (i + 2))
    let tmp := (hi <<< 11) ^^^ hash
    let hash := (hash <<< 16) ^^^ tmp
    let i := i32 (i + 4)
    let hash := hash + (hash >>> 11)
    keyHashLoop data n hash i

/-- The `switch (rem)` of `keyHash`. -/
def keyHashTail (data : Bytes) (rem : Nat) (hash : BitVec 32) (i : Int) : Java (BitVec 32) :=
  if rem = 3 then do
    let lo ← get16 data i
    let hash := hash + lo
    let hash := hash ^^^ (hash <<< 16)
    let b ← data.get (i32 (i + 2))
    let hash := hash ^^^ (b.signExtend 32 <<< 18)
    .ok (hash + (hash >>> 11))
  else if rem = 2 then do
    let lo ← get16 data i
    let hash := hash + lo
    let hash := hash ^^^ (hash <<< 11)
    .ok (hash + (hash >>> 17))
  else if rem = 1 then do
    let b ← data.get i
    let hash := hash + b.signExtend 32
    let hash := hash ^^^ (hash <<< 10)
    .ok (hash + (hash >>> 1))
  else .ok hash

/-- The header's key_hash. -/
def keyHash (data : Bytes) : Java (BitVec 32) :=
  if data.length = 0 then .ok 0#32
  else do
    let (hash, i) ← keyHashLoop data (data.length / 4) (BitVec.ofNat 32 data.length) 0
    let hash ← keyHashTail data (data.length % 4) hash i
    let hash := hash ^^^ (hash <<< 3)
    let hash := hash + (hash >>> 5)
    let hash := hash ^^^ (hash <<< 4)
    let hash := hash + (hash >>> 17)
    let hash := hash ^^^ (hash <<< 25)
    .ok (hash + (hash >>> 6))

theorem get16bits_or (d : List Byte) : get16bits d =
    (d.getD 0 0#8).setWidth 32 ||| ((d.getD 1 0#8).setWidth 32 <<< 8) := by
  have h0 := (d.getD 0 0#8).isLt
  have h1 := (d.getD 1 0#8).isLt
  have hw : LittleEndian.word 32 [d.getD 0 0#8, d.getD 1 0#8] =
      (d.getD 0 0#8).setWidth 32 ||| ((d.getD 1 0#8).setWidth 32 <<< 8) := by
    simp only [LittleEndian.word_cons, LittleEndian.word_nil, BitVec.zero_shiftLeft, BitVec.or_zero]
  rw [← hw]
  apply BitVec.eq_of_toNat_eq
  simp only [get16bits, LittleEndian.word, LittleEndian.ofLE, BitVec.toNat_add,
    BitVec.toNat_shiftLeft, BitVec.toNat_setWidth, BitVec.toNat_ofNat, Nat.shiftLeft_eq]
  omega

private theorem get_drop (data : Bytes) (i k : Nat) (h : i + k < data.length) :
    data.get (i32 ((i : Int) + k)) = .ok ((data.list.drop i).getD k 0#8) := by
  have hb := data.length_lt'
  have hl : i + k < data.list.length := h
  rw [i32_of_range _ (by omega) (by omega), data.get_of_lt _ (i + k) (by omega) hl]
  simp [List.getD, hl]

private theorem get_drop_zero (data : Bytes) (i : Nat) (h : i < data.length) :
    data.get i = .ok ((data.list.drop i).getD 0 0#8) := by
  have hl : i < data.list.length := h
  rw [data.get_of_lt _ i rfl hl]
  simp [List.getD, hl]

theorem get16_in (data : Bytes) (i : Nat) (h : i + 2 ≤ data.length) :
    get16 data i = .ok (get16bits (data.list.drop i)) := by
  have h1 := get_drop data i 1 (by omega)
  push_cast at h1
  rw [get16, get_drop_zero data i (by omega), ok_bind, h1, ok_bind, get16bits_or]

theorem keyHashLoop_in (data : Bytes) (n : Nat) (hash : BitVec 32) (i : Nat)
    (h : i + 4 * n ≤ data.length) :
    keyHashLoop data n hash i =
      .ok ((superFastHashLoop n hash (data.list.drop i)).1, ((i + 4 * n : Nat) : Int)) ∧
    (superFastHashLoop n hash (data.list.drop i)).2 = data.list.drop (i + 4 * n) := by
  induction n generalizing hash i with
  | zero => exact ⟨rfl, rfl⟩
  | succ n ih =>
    have hb := data.length_lt'
    have i2 : i32 ((i : Int) + 2) = ((i + 2 : Nat) : Int) := i32_of_range _ (by omega) (by omega)
    have i4 : i32 ((i : Int) + 4) = ((i + 4 : Nat) : Int) := i32_of_range _ (by omega) (by omega)
    have hs : i + 4 + 4 * n = i + 4 * (n + 1) := by omega
    rw [keyHashLoop, get16_in data i (by omega), ok_bind, i2, get16_in data (i + 2) (by omega),
      ok_bind, i4, superFastHashLoop, List.drop_drop, List.drop_drop, ← hs]
    exact ih _ (i + 4) (by omega)

theorem keyHashTail_in (data : Bytes) (rem : Nat) (hash : BitVec 32) (i : Nat)
    (h : i + rem = data.length) :
    keyHashTail data rem hash i = .ok (superFastHashTail rem hash (data.list.drop i)) := by
  unfold keyHashTail superFastHashTail
  split_ifs with h3 h2 h1
  · have g2 := get_drop data i 2 (by omega)
    push_cast at g2
    rw [get16_in data i (by omega), ok_bind, g2, ok_bind]
  · rw [get16_in data i (by omega), ok_bind]
  · rw [get_drop_zero data i (by omega), ok_bind]
  · rfl

/-- The index-driven Java loop in int arithmetic computes the C function's uint32 value. -/
theorem keyHash_eq_superFastHash (data : Bytes) : keyHash data = .ok (superFastHash data.list) := by
  have he : data.length = data.list.length := rfl
  by_cases h0 : data.length = 0
  · rw [keyHash, if_pos h0, superFastHash, if_pos (he ▸ h0)]
  · obtain ⟨hl, hp⟩ := keyHashLoop_in data (data.length / 4) (BitVec.ofNat 32 data.length) 0
      (by omega)
    rw [List.drop_zero, Nat.zero_add] at hl hp
    have ht := keyHashTail_in data (data.length % 4)
      (superFastHashLoop (data.length / 4) (BitVec.ofNat 32 data.length) data.list).1
      (4 * (data.length / 4)) (by omega)
    rw [keyHash, if_neg h0, superFastHash, if_neg (he ▸ h0), ← he]
    rw [Nat.cast_zero] at hl
    simp only [hl, ok_bind, ht, hp, superFastHashFinish]

/-- The key hash is the browser's, for every array; no read leaves the array. -/
theorem keyHash_persistentHash (data : Bytes) :
    keyHash data = .ok (superFastHash data.list) ∧ keyHash data = .ok (persistentHash data.list) :=
  ⟨keyHash_eq_superFastHash data, keyHash_eq_superFastHash data⟩

end SimpleCacheTool.SimpleCacheFormat
