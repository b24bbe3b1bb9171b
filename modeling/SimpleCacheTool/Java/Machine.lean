import SimpleCacheTool.Math.Fallible
import SimpleCacheTool.Math.Segments

namespace SimpleCacheTool

open Fallible Segments

/-- A Java byte as its eight bits; `& 0xff` and sign extension are explicit where the code has them. -/
abbrev Byte := BitVec 8

/-- What the tool's code throws itself, and what its array accesses and allocations can raise. -/
inductive JavaException where
  | illegalArgument (message : String)
  | illegalState (message : String)
  | arrayIndexOutOfBounds
  | stringIndexOutOfBounds
  | negativeArraySize
  | nullPointer
  | outOfMemory
  deriving DecidableEq, Repr

abbrev Java := Except JavaException

/-- An int result: the two's complement value of the low 32 bits. -/
def i32 (x : Int) : Int := (x + 2 ^ 31) % 2 ^ 32 - 2 ^ 31

theorem i32_of_range (x : Int) (hl : -2 ^ 31 ≤ x) (hu : x < 2 ^ 31) : i32 x = x := by
  unfold i32
  omega

theorem i32_nat (x : Int) (n : Nat) (hx : x = n) (hn : n < 2 ^ 31) : i32 x = n := by
  rw [hx, i32_of_range _ (by omega) (by omega)]

theorem i32_range (x : Int) : -2 ^ 31 ≤ i32 x ∧ i32 x < 2 ^ 31 := by
  unfold i32
  omega

/-- Adding wraps at the end only. -/
theorem i32_add (x y : Int) : i32 (i32 x + y) = i32 (x + y) := by
  unfold i32
  omega

theorem toInt32_range (v : BitVec 32) : -2 ^ 31 ≤ v.toInt ∧ v.toInt < 2 ^ 31 := by
  have hv := v.isLt
  rw [BitVec.toInt_eq_toNat_cond]
  split_ifs <;> omega

theorem toInt32_of_nonneg (v : BitVec 32) (h : 0 ≤ v.toInt) : v.toInt = v.toNat := by
  have hv := v.isLt
  rw [BitVec.toInt_eq_toNat_cond] at h ⊢
  split_ifs at h ⊢ <;> omega

theorem toInt32_ofNat (n : Nat) (h : n < 2 ^ 31) : (BitVec.ofNat 32 n).toInt = n := by
  rw [BitVec.toInt_eq_toNat_cond, BitVec.toNat_ofNat]
  split_ifs <;> omega

/-- A `byte[]`; its length is a Java int. -/
@[ext] structure Bytes where
  list : List Byte
  length_lt : list.length < 2 ^ 31
  deriving DecidableEq, Repr

namespace Bytes

def length (b : Bytes) : Nat := b.list.length

theorem length_lt' (b : Bytes) : b.length < 2 ^ 31 := b.length_lt

def empty : Bytes := ⟨[], by decide⟩

/-- `b[i]` -/
def get (b : Bytes) (i : Int) : Java Byte :=
  if i < 0 then .error .arrayIndexOutOfBounds
  else match b.list[i.toNat]? with
    | some x => .ok x
    | none => .error .arrayIndexOutOfBounds

/-- `b[i] = x` -/
def set (b : Bytes) (i : Int) (x : Byte) : Java Bytes :=
  if 0 ≤ i ∧ i < b.length then
    .ok ⟨b.list.set i.toNat x, by rw [List.length_set]; exact b.length_lt⟩
  else .error .arrayIndexOutOfBounds

/-- The bytes from `off` on, at most `len` of them. -/
def sub (b : Bytes) (off len : Nat) : Bytes :=
  ⟨seg b.list off len, Nat.lt_of_le_of_lt (seg_length_le b.list off len) b.length_lt⟩

@[simp] theorem sub_list (b : Bytes) (off len : Nat) : (b.sub off len).list = seg b.list off len := rfl

theorem sub_length (b : Bytes) (off len : Nat) (h : off + len ≤ b.length) :
    (b.sub off len).length = len := seg_length b.list off len h

theorem get_of_lt (b : Bytes) (i : Int) (n : Nat) (hi : i = n) (hn : n < b.list.length) :
    b.get i = .ok b.list[n] := by
  subst hi
  have h0 : ¬((n : Int) < 0) := by omega
  rw [get, if_neg h0, Int.toNat_natCast, List.getElem?_eq_getElem hn]

theorem get_out (b : Bytes) (i : Int) (h : i < 0 ∨ (b.length : Int) ≤ i) :
    b.get i = .error .arrayIndexOutOfBounds := by
  rw [get]
  split_ifs with h0
  · rfl
  · have hb : b.list.length ≤ i.toNat := by
      have he : b.length = b.list.length := rfl
      omega
    rw [List.getElem?_eq_none hb]

theorem set_in (b : Bytes) (i : Int) (n : Nat) (x : Byte) (hi : i = n) (hn : n < b.length) :
    ∃ out, b.set i x = .ok out ∧ out.list = overwrite b.list n [x] := by
  subst hi
  have hc : 0 ≤ (n : Int) ∧ (n : Int) < b.length := by omega
  rw [set, if_pos hc]
  exact ⟨_, rfl, set_eq_overwrite b.list n x hn⟩

/-- Whatever follows an access may assume the index in bounds, or the whole fails at the access. -/
theorem get_bind_out {β : Type} (b : Bytes) (i : Int) (f : Byte → Java β)
    (h : 0 ≤ i → i < b.length → ∀ x, f x = .error .arrayIndexOutOfBounds) :
    (b.get i >>= f) = .error .arrayIndexOutOfBounds := by
  by_cases hi : i < 0 ∨ (b.length : Int) ≤ i
  · rw [get_out b i hi, error_bind]
  · have hn : i.toNat < b.list.length := by
      have he : b.length = b.list.length := rfl
      omega
    rw [get_of_lt b i i.toNat (by omega) hn, ok_bind]
    exact h (by omega) (by omega) _

end Bytes

/-- `new byte[n]` -/
def newBytes (n : Int) : Java Bytes :=
  if h : 0 ≤ n ∧ n < 2 ^ 31 then .ok ⟨List.replicate n.toNat 0, by rw [List.length_replicate]; omega⟩
  else .error .negativeArraySize

theorem newBytes_of_nat (n : Nat) (h : n < 2 ^ 31) :
    newBytes n = .ok ⟨List.replicate n 0, by rw [List.length_replicate]; exact h⟩ := by
  have hn : 0 ≤ (n : Int) ∧ (n : Int) < 2 ^ 31 := by omega
  rw [newBytes, dif_pos hn]
  congr 2

theorem newBytes_neg (n : Int) (h : n < 0) : newBytes n = .error .negativeArraySize := by
  rw [newBytes, dif_neg (by omega)]

/-- `System.arraycopy`, with the destination returned. -/
def arraycopy (src : Bytes) (srcPos : Int) (dest : Bytes) (destPos len : Int) : Java Bytes :=
  if h : 0 ≤ srcPos ∧ 0 ≤ destPos ∧ 0 ≤ len ∧ srcPos + len ≤ src.length ∧
      destPos + len ≤ dest.length then
    .ok ⟨overwrite dest.list destPos.toNat (seg src.list srcPos.toNat len.toNat), by
      have hs : src.length = src.list.length := rfl
      have hd : dest.length = dest.list.length := rfl
      have hl := seg_length src.list srcPos.toNat len.toNat (by omega)
      rw [overwrite_length _ _ _ (by omega)]
      exact dest.length_lt⟩
  else .error .arrayIndexOutOfBounds

theorem arraycopy_out (src : Bytes) (srcPos : Int) (dest : Bytes) (destPos len : Int)
    (h : ¬(0 ≤ srcPos ∧ 0 ≤ destPos ∧ 0 ≤ len ∧ srcPos + len ≤ src.length ∧
      destPos + len ≤ dest.length)) :
    arraycopy src srcPos dest destPos len = .error .arrayIndexOutOfBounds := dif_neg h

theorem arraycopy_in (src dest : Bytes) (s d n : Nat) (hs : s + n ≤ src.length)
    (hd : d + n ≤ dest.length) :
    ∃ out, arraycopy src s dest d n = .ok out ∧
      out.list = overwrite dest.list d (seg src.list s n) := by
  have hc : 0 ≤ (s : Int) ∧ 0 ≤ (d : Int) ∧ 0 ≤ (n : Int) ∧ (s : Int) + n ≤ src.length ∧
      (d : Int) + n ≤ dest.length := by omega
  rw [arraycopy, dif_pos hc]
  exact ⟨_, rfl, by simp⟩

theorem arraycopy_length (src : Bytes) (srcPos : Int) (dest : Bytes) (destPos len : Int)
    (out : Bytes) (h : arraycopy src srcPos dest destPos len = .ok out) :
    out.length = dest.length ∧ 0 ≤ len ∧ destPos + len ≤ dest.length := by
  unfold arraycopy at h
  split_ifs at h with hc
  obtain rfl := Except.ok.inj h
  have hs : src.length = src.list.length := rfl
  have hd : dest.length = dest.list.length := rfl
  have hl := seg_length src.list srcPos.toNat len.toNat (by omega)
  refine ⟨?_, hc.2.2.1, hc.2.2.2.2⟩
  change (overwrite dest.list destPos.toNat (seg src.list srcPos.toNat len.toNat)).length = _
  rw [overwrite_length _ _ _ (by omega), hd]

end SimpleCacheTool
