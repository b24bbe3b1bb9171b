import SimpleCacheTool.Java.Digests
import SimpleCacheTool.Math.LittleEndian

namespace SimpleCacheTool

open Fallible Segments LittleEndian

namespace SimpleCacheFormat

def initialMagic : BitVec 64 := 0xfcfb6d1ba7725c30#64
def finalMagic : BitVec 64 := 0xf4fa6f45970d41d8#64
def indexMagic : BitVec 64 := 0x656e74657220796f#64

def headerSize : Nat := 24
def eofSize : Nat := 24
def sha256Size : Nat := 32
def indexHeaderSize : Nat := 8

def entryVersion : BitVec 32 := 5#32
def indexFileVersion : BitVec 32 := 9#32
def minIndexFileVersion : BitVec 32 := 8#32

def flagHasCrc32 : BitVec 32 := 1#32
def flagHasKeySha256 : BitVec 32 := 2#32

def u32 (b : Bytes) (off : Int) : Java (BitVec 32) := do
  let b0 ← b.get off
  let b1 ← b.get (i32 (off + 1))
  let b2 ← b.get (i32 (off + 2))
  let b3 ← b.get (i32 (off + 3))
  .ok (b0.setWidth 32 ||| (b1.setWidth 32 <<< 8) ||| (b2.setWidth 32 <<< 16) |||
    (b3.setWidth 32 <<< 24))

def u64 (b : Bytes) (off : Int) : Java (BitVec 64) := do
  let b0 ← b.get off
  let b1 ← b.get (i32 (off + 1))
  let b2 ← b.get (i32 (off + 2))
  let b3 ← b.get (i32 (off + 3))
  let b4 ← b.get (i32 (off + 4))
  let b5 ← b.get (i32 (off + 5))
  let b6 ← b.get (i32 (off + 6))
  let b7 ← b.get (i32 (off + 7))
  .ok (b0.setWidth 64 ||| (b1.setWidth 64 <<< 8) ||| (b2.setWidth 64 <<< 16) |||
    (b3.setWidth 64 <<< 24) ||| (b4.setWidth 64 <<< 32) ||| (b5.setWidth 64 <<< 40) |||
    (b6.setWidth 64 <<< 48) ||| (b7.setWidth 64 <<< 56))

def i64 (b : Bytes) (off : Int) : Java (BitVec 64) := u64 b off

def putU32 (b : Bytes) (off : Int) (v : BitVec 32) : Java Bytes := do
  let b ← b.set off (v.setWidth 8)
  let b ← b.set (i32 (off + 1)) ((v >>> 8).setWidth 8)
  let b ← b.set (i32 (off + 2)) ((v >>> 16).setWidth 8)
  b.set (i32 (off + 3)) ((v >>> 24).setWidth 8)

/-- The `for` loop of `putU64`, from index `i` with `n` rounds to go. -/
def putU64Loop (off : Int) (v : BitVec 64) : Nat → Nat → Bytes → Java Bytes
  | 0, _, b => .ok b
  | n + 1, i, b => do
    let b ← b.set (i32 (off + i)) ((v >>> (8 * i)).setWidth 8)
    putU64Loop off v n (i + 1) b

def putU64 (b : Bytes) (off : Int) (v : BitVec 64) : Java Bytes := putU64Loop off v 8 0 b

/-- The word of `w` bits at a byte offset. -/
def wordAt (w : Nat) (l : List Byte) (off : Nat) : BitVec w := word w (seg l off (w / 8))

theorem wordAt_append (w : Nat) (pre l : List Byte) (off : Nat) :
    wordAt w (pre ++ l) (pre.length + off) = wordAt w l off := by
  rw [wordAt, wordAt, seg_append_right]

theorem wordAt_seg (w : Nat) (l : List Byte) (a len off : Nat) (h : off + w / 8 ≤ len) :
    wordAt w (seg l a len) off = wordAt w l (a + off) := by
  rw [wordAt, wordAt, seg_seg l a len off _ h]

theorem wordAt_of_tile (w : Nat) (l : List Byte) (off : Nat) (v : BitVec w)
    (hw : w = 8 * (w / 8)) (h : seg l off (w / 8) = bytes (w / 8) v) : wordAt w l off = v := by
  rw [wordAt, h, word_bytes _ hw]

theorem bytes_wordAt (w n : Nat) (l : List Byte) (off : Nat) (hn : w / 8 = n) (hw : w = 8 * n)
    (h : off + n ≤ l.length) : bytes n (wordAt w l off) = seg l off n := by
  subst hn
  rw [wordAt, bytes_word _ hw _ (seg_length l off _ h)]

private theorem get_run (b : Bytes) (off k : Nat) (h : off + k < b.list.length) :
    b.get (i32 (off + k)) = .ok (b.list[off + k]) := by
  have hb := b.length_lt
  rw [i32_of_range _ (by omega) (by omega)]
  exact b.get_of_lt _ _ (by omega) h

theorem u32_in (b : Bytes) (off : Nat) (h : off + 4 ≤ b.length) :
    u32 b off = .ok (wordAt 32 b.list off) := by
  have hl : off + 4 ≤ b.list.length := h
  have hs : seg b.list off 4 = [b.list[off], b.list[off + 1], b.list[off + 2], b.list[off + 3]] := by
    rw [seg_succ _ _ _ (by omega), seg_succ _ _ _ (by omega), seg_succ _ _ _ (by omega),
      seg_succ _ _ _ (by omega), seg_zero]
  have h0 := b.get_of_lt off off rfl (by omega)
  have h1 := get_run b off 1 (by omega)
  have h2 := get_run b off 2 (by omega)
  have h3 := get_run b off 3 (by omega)
  push_cast at h1 h2 h3
  rw [u32, h0, ok_bind, h1, ok_bind, h2, ok_bind, h3, ok_bind, wordAt,
    show (32 : Nat) / 8 = 4 from rfl, hs]
  simp only [word_cons, word_nil, BitVec.shiftLeft_or_distrib, ← BitVec.shiftLeft_add,
    BitVec.zero_shiftLeft, BitVec.or_zero, BitVec.or_assoc]

theorem u32_at (b : Bytes) (off : Int) (n : Nat) (ho : off = n) (h : n + 4 ≤ b.length) :
    u32 b off = .ok (wordAt 32 b.list n) := ho ▸ u32_in b n h

theorem u32_out (b : Bytes) (off : Int) (h : off < 0 ∨ b.length < off + 4) :
    u32 b off = .error .arrayIndexOutOfBounds := by
  have hb := b.length_lt'
  apply b.get_bind_out off
  intro h0 h0' _
  apply b.get_bind_out
  intro h1 h1' _
  apply b.get_bind_out
  intro h2 h2' _
  apply b.get_bind_out
  intro h3 h3' _
  unfold i32 at *
  omega

theorem u64_in (b : Bytes) (off : Nat) (h : off + 8 ≤ b.length) :
    u64 b off = .ok (wordAt 64 b.list off) := by
  have hl : off + 8 ≤ b.list.length := h
  have hs : seg b.list off 8 = [b.list[off], b.list[off + 1], b.list[off + 2], b.list[off + 3],
      b.list[off + 4], b.list[off + 5], b.list[off + 6], b.list[off + 7]] := by
    rw [seg_succ _ _ _ (by omega), seg_succ _ _ _ (by omega), seg_succ _ _ _ (by omega),
      seg_succ _ _ _ (by omega), seg_succ _ _ _ (by omega), seg_succ _ _ _ (by omega),
      seg_succ _ _ _ (by omega), seg_succ _ _ _ (by omega), seg_zero]
  have h0 := b.get_of_lt off off rfl (by omega)
  have h1 := get_run b off 1 (by omega)
  have h2 := get_run b off 2 (by omega)
  have h3 := get_run b off 3 (by omega)
  have h4 := get_run b off 4 (by omega)
  have h5 := get_run b off 5 (by omega)
  have h6 := get_run b off 6 (by omega)
  have h7 := get_run b off 7 (by omega)
  push_cast at h1 h2 h3 h4 h5 h6 h7
  rw [u64, h0, ok_bind, h1, ok_bind, h2, ok_bind, h3, ok_bind, h4, ok_bind, h5, ok_bind, h6,
    ok_bind, h7, ok_bind, wordAt, show (64 : Nat) / 8 = 8 from rfl, hs]
  simp only [word_cons, word_nil, BitVec.shiftLeft_or_distrib, ← BitVec.shiftLeft_add,
    BitVec.zero_shiftLeft, BitVec.or_zero, BitVec.or_assoc]

theorem u64_at (b : Bytes) (off : Int) (n : Nat) (ho : off = n) (h : n + 8 ≤ b.length) :
    u64 b off = .ok (wordAt 64 b.list n) := ho ▸ u64_in b n h

theorem u64_out (b : Bytes) (off : Int) (h : off < 0 ∨ b.length < off + 8) :
    u64 b off = .error .arrayIndexOutOfBounds := by
  have hb := b.length_lt'
  apply b.get_bind_out off
  intro h0 h0' _
  apply b.get_bind_out
  intro h1 h1' _
  apply b.get_bind_out
  intro h2 h2' _
  apply b.get_bind_out
  intro h3 h3' _
  apply b.get_bind_out
  intro h4 h4' _
  apply b.get_bind_out
  intro h5 h5' _
  apply b.get_bind_out
  intro h6 h6' _
  apply b.get_bind_out
  intro h7 h7' _
  unfold i32 at *
  omega

private theorem set_run (b : Bytes) (off k : Nat) (x : Byte) (h : off + k < b.length) :
    ∃ out, b.set (i32 ((off : Int) + k)) x = .ok out ∧ out.list = overwrite b.list (off + k) [x] := by
  have hb := b.length_lt'
  exact b.set_in _ (off + k) x (by rw [i32_of_range _ (by omega) (by omega)]; omega) h

private theorem overwrite_bytes_length (b out : Bytes) (off : Nat) (new : List Byte)
    (h : off + new.length ≤ b.length) (ho : out.list = overwrite b.list off new) :
    out.length = b.length := by
  rw [Bytes.length, ho, overwrite_length _ _ _ h]
  rfl

theorem putU64Loop_in (off : Nat) (v : BitVec 64) (n i : Nat) (b : Bytes)
    (h : off + i + n ≤ b.length) :
    ∃ out, putU64Loop off v n i b = .ok out ∧
      out.list = overwrite b.list (off + i) (bytes n (v >>> (8 * i))) := by
  induction n generalizing i b with
  | zero =>
    refine ⟨b, rfl, ?_⟩
    simp [bytes_zero, overwrite]
  | succ n ih =>
    obtain ⟨b1, h1, l1⟩ := set_run b off i ((v >>> (8 * i)).setWidth 8) (by omega)
    have hlen := overwrite_bytes_length b b1 (off + i) _ (by simp; omega) l1
    obtain ⟨out, h2, l2⟩ := ih (i + 1) b1 (by omega)
    refine ⟨out, by rw [putU64Loop, h1, ok_bind, h2], ?_⟩
    have hs : v >>> (8 * (i + 1)) = v >>> (8 * i) >>> 8 := by
      rw [← BitVec.shiftRight_add, Nat.mul_add]
    rw [l2, l1, hs, bytes_succ, ← Nat.add_assoc]
    exact overwrite_overwrite b.list [_] _ (off + i) (by
      have he : b.length = b.list.length := rfl
      simp only [List.length_singleton]
      omega)

theorem putU64_in (b : Bytes) (off : Nat) (v : BitVec 64) (h : off + 8 ≤ b.length) :
    ∃ out, putU64 b off v = .ok out ∧ out.list = overwrite b.list off (bytes 8 v) := by
  have hl := putU64Loop_in off v 8 0 b h
  simpa [putU64] using hl

theorem putU32_in (b : Bytes) (off : Nat) (v : BitVec 32) (h : off + 4 ≤ b.length) :
    ∃ out, putU32 b off v = .ok out ∧ out.list = overwrite b.list off (bytes 4 v) := by
  have he : b.length = b.list.length := rfl
  obtain ⟨b0, h0, l0⟩ := b.set_in off off (v.setWidth 8) rfl (by omega)
  have e0 := overwrite_bytes_length b b0 off _ (by simp; omega) l0
  obtain ⟨b1, h1, l1⟩ := set_run b0 off 1 ((v >>> 8).setWidth 8) (by omega)
  have e1 := overwrite_bytes_length b0 b1 (off + 1) _ (by simp; omega) l1
  obtain ⟨b2, h2, l2⟩ := set_run b1 off 2 ((v >>> 16).setWidth 8) (by omega)
  have e2 := overwrite_bytes_length b1 b2 (off + 2) _ (by simp; omega) l2
  obtain ⟨b3, h3, l3⟩ := set_run b2 off 3 ((v >>> 24).setWidth 8) (by omega)
  have hb : bytes 4 v = [v.setWidth 8, (v >>> 8).setWidth 8, (v >>> 16).setWidth 8,
      (v >>> 24).setWidth 8] := by
    simp only [bytes_succ, bytes_zero, ← BitVec.shiftRight_add]
  push_cast at h1 h2 h3
  refine ⟨b3, by rw [putU32, h0, ok_bind, h1, ok_bind, h2, ok_bind, h3], ?_⟩
  -- four one-byte writes side by side are one write of the four bytes
  have join (new : List Byte) (k : Nat) (x : Byte) (hk : new.length = k) (h4 : k ≤ 4) :
      overwrite (overwrite b.list off new) (off + k) [x] = overwrite b.list off (new ++ [x]) := by
    subst hk
    exact overwrite_overwrite b.list new [x] off (by omega)
  rw [l3, l2, l1, l0, join _ 1 _ rfl (by omega), join _ 2 _ rfl (by omega),
    join _ 3 _ rfl (by omega), hb]
  rfl

/-- The next word goes behind what a fresh array already holds. -/
theorem putU32_next (b : Bytes) (pre : List Byte) (n : Nat) (off : Int) (v : BitVec 32)
    (hb : b.list = pre ++ List.replicate (4 + n) 0) (ho : off = pre.length) :
    ∃ out, putU32 b off v = .ok out ∧ out.list = (pre ++ bytes 4 v) ++ List.replicate n 0 := by
  have hl : b.length = pre.length + (4 + n) := by
    rw [Bytes.length, hb, List.length_append, List.length_replicate]
  obtain ⟨out, hp, hw⟩ := putU32_in b pre.length v (by omega)
  refine ⟨out, ho ▸ hp, ?_⟩
  rw [hw, hb, overwrite_append, bytes_length, List.drop_replicate, Nat.add_sub_cancel_left,
    List.append_assoc]

theorem putU64_next (b : Bytes) (pre : List Byte) (n : Nat) (off : Int) (v : BitVec 64)
    (hb : b.list = pre ++ List.replicate (8 + n) 0) (ho : off = pre.length) :
    ∃ out, putU64 b off v = .ok out ∧ out.list = (pre ++ bytes 8 v) ++ List.replicate n 0 := by
  have hl : b.length = pre.length + (8 + n) := by
    rw [Bytes.length, hb, List.length_append, List.length_replicate]
  obtain ⟨out, hp, hw⟩ := putU64_in b pre.length v (by omega)
  refine ⟨out, ho ▸ hp, ?_⟩
  rw [hw, hb, overwrite_append, bytes_length, List.drop_replicate, Nat.add_sub_cancel_left,
    List.append_assoc]

/-- `crc32(byte[])` -/
def crc32 (data : Bytes) : BitVec 32 := crc32Of data.list

/-- `crc32(byte[], int, int)`; `CRC32.update` checks the range. -/
def crc32Range (data : Bytes) (off len : Int) : Java (BitVec 32) :=
  if off < 0 ∨ len < 0 ∨ data.length - len < off then .error .arrayIndexOutOfBounds
  else .ok (crc32Of (seg data.list off.toNat len.toNat))

def sha1 (data : Bytes) : Bytes :=
  ⟨sha1Of data.list, by rw [sha1Of_length]; decide⟩

def sha256 (data : Bytes) : Bytes :=
  ⟨sha256Of data.list, by rw [sha256Of_length]; decide⟩

/-- Filename hash: the first 8 bytes of SHA1(key) as a little endian u64. -/
def entryHash (key : Bytes) : Java (BitVec 64) := u64 (sha1 key) 0

theorem entryHash_eq (key : Bytes) : entryHash key = .ok (wordAt 64 (sha1Of key.list) 0) := by
  have hl : 0 + 8 ≤ (sha1 key).length := by
    rw [Bytes.length, sha1, sha1Of_length]
    decide
  exact u64_in (sha1 key) 0 hl

def concatCopy : Bytes → Int → List Bytes → Java Bytes
  | out, _, [] => .ok out
  | out, off, p :: ps => do
    let out ← arraycopy p 0 out off p.length
    concatCopy out (i32 (off + p.length)) ps

def concat (parts : List Bytes) : Java Bytes := do
  let total := parts.foldl (fun total p => i32 (total + p.length)) 0
  let out ← newBytes total
  concatCopy out 0 parts

/-- The bytes of the parts one after another. -/
def joined (parts : List Bytes) : List Byte := (parts.map Bytes.list).flatten

theorem joined_cons (p : Bytes) (ps : List Bytes) : joined (p :: ps) = p.list ++ joined ps := rfl

theorem concatCopy_in (pre old : List Byte) (parts : List Bytes) (out : Bytes)
    (ho : out.list = pre ++ old) (hl : old.length = (joined parts).length) :
    ∃ r, concatCopy out pre.length parts = .ok r ∧ r.list = pre ++ joined parts := by
  induction parts generalizing pre old out with
  | nil =>
    have hn : old = [] := List.eq_nil_of_length_eq_zero (by simpa [joined] using hl)
    exact ⟨out, rfl, by rw [ho, hn]; rfl⟩
  | cons p ps ih =>
    have hlen : out.length = pre.length + (p.length + (joined ps).length) := by
      rw [Bytes.length, ho, List.length_append, hl, joined_cons, List.length_append, Bytes.length]
    have hlt := out.length_lt'
    obtain ⟨o, h1, l1⟩ := arraycopy_in p out 0 pre.length p.length (by omega) (by omega)
    have hw : o.list = (pre ++ p.list) ++ old.drop p.list.length := by
      rw [l1, Bytes.length, seg_full, ho, overwrite_append, List.append_assoc]
    have hd : (old.drop p.list.length).length = (joined ps).length := by
      rw [List.length_drop, hl, joined_cons, List.length_append]
      omega
    obtain ⟨r, h2, l2⟩ := ih (pre ++ p.list) (old.drop p.list.length) o hw hd
    have hoff : i32 ((pre.length : Int) + p.length) = ((pre ++ p.list).length : Nat) := by
      rw [i32_of_range _ (by omega) (by omega), List.length_append]
      push_cast
      rfl
    refine ⟨r, ?_, by rw [l2, joined_cons, List.append_assoc]⟩
    rw [concatCopy]
    rw [Nat.cast_zero] at h1
    rw [h1, ok_bind, hoff, h2]

/-- A copy loop that returns had room for every part. -/
theorem concatCopy_fits (parts : List Bytes) (out r : Bytes) (off : Nat)
    (hoff : off ≤ out.length) (h : concatCopy out off parts = .ok r) :
    off + (joined parts).length ≤ out.length := by
  induction parts generalizing out off with
  | nil => simpa [joined] using hoff
  | cons p ps ih =>
    obtain ⟨o, h1, h2⟩ := (bind_eq_ok _ _ _).mp h
    obtain ⟨hl, h0, hr⟩ := arraycopy_length _ _ _ _ _ _ h1
    have hlt := out.length_lt'
    have hi : i32 ((off : Int) + p.length) = ((off + p.length : Nat) : Int) := by
      rw [i32_of_range _ (by omega) (by omega)]
      push_cast
      rfl
    rw [hi] at h2
    have ht := ih o (off + p.length) (by omega) h2
    rw [joined_cons, List.length_append]
    have hp : p.length = p.list.length := rfl
    omega

theorem total_eq (parts : List Bytes) (x : Int) :
    parts.foldl (fun total p => i32 (total + p.length)) (i32 x) = i32 (x + (joined parts).length) := by
  induction parts generalizing x with
  | nil => simp [joined]
  | cons p ps ih =>
    rw [List.foldl_cons, i32_add, ih, joined_cons, List.length_append]
    have hp : p.length = p.list.length := rfl
    congr 1
    push_cast
    omega

theorem total_zero (parts : List Bytes) :
    parts.foldl (fun total p => i32 (total + p.length)) 0 = i32 (joined parts).length := by
  have h := total_eq parts 0
  rwa [Int.zero_add] at h

theorem concat_fits (parts : List Bytes) (h : (joined parts).length < 2 ^ 31) :
    concat parts = .ok ⟨joined parts, h⟩ := by
  obtain ⟨r, h1, l1⟩ := concatCopy_in [] (List.replicate (joined parts).length 0) parts
    ⟨List.replicate (joined parts).length 0, by rw [List.length_replicate]; exact h⟩
    rfl List.length_replicate
  have ht : i32 (joined parts).length = ((joined parts).length : Nat) :=
    i32_of_range _ (by omega) (by omega)
  rw [concat, total_zero, ht, newBytes_of_nat _ h, ok_bind]
  have he : r = ⟨joined parts, h⟩ := Bytes.ext l1
  rw [← he]
  exact h1

/-- The parts are joined exactly when they fit one array; otherwise the int total betrays them. -/
theorem concat_eq_ok (parts : List Bytes) (out : Bytes) :
    concat parts = .ok out ↔ out.list = joined parts := by
  constructor
  · intro h
    by_cases hf : (joined parts).length < 2 ^ 31
    · rw [concat_fits parts hf] at h
      rw [← Except.ok.inj h]
    · obtain ⟨o, h1, h2⟩ := (bind_eq_ok _ _ _).mp h
      have hlen : (o.length : Int) ≤ i32 (joined parts).length := by
        rw [total_zero] at h1
        unfold newBytes at h1
        split_ifs at h1 with hc
        rw [← Except.ok.inj h1, Bytes.length, List.length_replicate]
        omega
      have hroom := concatCopy_fits parts o out 0 (by omega) h2
      have hr := (i32_range (joined parts).length).2
      omega
  · intro h
    have hf : (joined parts).length < 2 ^ 31 := h ▸ out.length_lt
    rw [concat_fits parts hf]
    exact congrArg Except.ok (Bytes.ext h.symm)

theorem concat_wrapped (parts : List Bytes) (hl : 2 ^ 31 ≤ (joined parts).length)
    (hu : (joined parts).length < 2 ^ 32) : concat parts = .error .negativeArraySize := by
  have hn : i32 (joined parts).length < 0 := by
    unfold i32
    omega
  rw [concat, total_zero, newBytes_neg _ hn, error_bind]

def slice (b : Bytes) (off len : Int) : Java Bytes := do
  let out ← newBytes len
  arraycopy b off out 0 len

theorem slice_in (b : Bytes) (off len : Nat) (h : off + len ≤ b.length) :
    slice b off len = .ok (b.sub off len) := by
  have hb := b.length_lt'
  have hl := seg_length b.list off len h
  rw [slice, newBytes_of_nat len (by omega), ok_bind]
  obtain ⟨o, h1, l1⟩ := arraycopy_in b ⟨List.replicate len 0, by rw [List.length_replicate]; omega⟩
    off 0 len h (by simp [Bytes.length])
  rw [Nat.cast_zero] at h1
  rw [h1]
  refine congrArg Except.ok (Bytes.ext ?_)
  rw [l1, overwrite_all _ _ (by rw [List.length_replicate, hl])]
  rfl

theorem slice_at (b : Bytes) (off len : Int) (o n : Nat) (ho : off = o) (hn : len = n)
    (h : o + n ≤ b.length) : slice b off len = .ok (b.sub o n) := by
  rw [ho, hn, slice_in b o n h]

theorem slice_neg (b : Bytes) (off len : Int) (h : len < 0) :
    slice b off len = .error .negativeArraySize := by
  rw [slice, newBytes_neg len h, error_bind]

theorem slice_out (b : Bytes) (off len : Int) (h0 : 0 ≤ len) (hu : len < 2 ^ 31)
    (h : off < 0 ∨ b.length < off + len) : slice b off len = .error .arrayIndexOutOfBounds := by
  obtain ⟨n, rfl⟩ := Int.eq_ofNat_of_zero_le h0
  rw [slice, newBytes_of_nat n (by omega), ok_bind, arraycopy_out]
  omega

/-- A slice fails exactly when it does not lie inside the array. -/
theorem slice_eq_error (b : Bytes) (off len : Int) (x : JavaException) (hu : len < 2 ^ 31)
    (h : slice b off len = .error x) :
    (x = .negativeArraySize ∨ x = .arrayIndexOutOfBounds) ∧
      (off < 0 ∨ len < 0 ∨ b.length < off + len) := by
  by_cases hneg : len < 0
  · rw [slice_neg b off len hneg] at h
    exact ⟨.inl (Except.error.inj h).symm, .inr (.inl hneg)⟩
  by_cases hout : off < 0 ∨ b.length < off + len
  · rw [slice_out b off len (by omega) hu hout] at h
    exact ⟨.inr (Except.error.inj h).symm, by omega⟩
  · rw [slice_at b off len off.toNat len.toNat (by omega) (by omega) (by omega)] at h
    cases h

/-- A slice that returns lies inside the array. -/
theorem slice_eq_ok (b out : Bytes) (off len : Int) (h : slice b off len = .ok out) :
    0 ≤ off ∧ 0 ≤ len ∧ off + len ≤ b.length := by
  obtain ⟨o, h1, h2⟩ := (bind_eq_ok _ _ _).mp h
  have hn : 0 ≤ len := by
    by_contra hneg
    rw [newBytes_neg len (by omega)] at h1
    cases h1
  refine ⟨?_, hn, ?_⟩
  all_goals
    by_contra hbad
    rw [arraycopy_out _ _ _ _ _ (by omega)] at h2
    cases h2

end SimpleCacheFormat

end SimpleCacheTool
