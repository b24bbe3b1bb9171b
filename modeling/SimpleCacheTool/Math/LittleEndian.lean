import Mathlib.Data.Nat.Bitwise
import Mathlib.Tactic.Ring

namespace LittleEndian

/-- The number a byte string spells, least significant byte first. -/
def ofLE : List (BitVec 8) → Nat
  | [] => 0
  | b :: bs => b.toNat + 256 * ofLE bs

/-- The `n` low bytes of a number, least significant first. -/
def toLE : Nat → Nat → List (BitVec 8)
  | 0, _ => []
  | n + 1, v => BitVec.ofNat 8 v :: toLE n (v / 256)

@[simp] theorem toLE_length (n v : Nat) : (toLE n v).length = n := by
  induction n generalizing v with
  | zero => rfl
  | succ n ih => simp [toLE, ih]

theorem ofLE_lt (bs : List (BitVec 8)) : ofLE bs < 256 ^ bs.length := by
  induction bs with
  | nil => simp [ofLE]
  | cons b bs ih =>
    have hb := b.isLt
    simp only [ofLE, List.length_cons, pow_succ]
    omega

theorem ofLE_toLE (n v : Nat) : ofLE (toLE n v) = v % 256 ^ n := by
  induction n generalizing v with
  | zero => simp [toLE, ofLE, Nat.mod_one]
  | succ n ih =>
    have hm : v % 256 ^ (n + 1) = v % 256 + 256 * (v / 256 % 256 ^ n) := by
      rw [pow_succ', Nat.mod_mul]
    rw [toLE, ofLE, ih, hm, BitVec.toNat_ofNat]

theorem toLE_ofLE (bs : List (BitVec 8)) : toLE bs.length (ofLE bs) = bs := by
  induction bs with
  | nil => rfl
  | cons b bs ih =>
    have hb := b.isLt
    have hq : (b.toNat + 256 * ofLE bs) / 256 = ofLE bs := by omega
    rw [List.length_cons, toLE, ofLE, hq, ih]
    congr 1
    apply BitVec.eq_of_toNat_eq
    rw [BitVec.toNat_ofNat]
    omega

/-- The `w`-bit word a byte string spells. -/
def word (w : Nat) (bs : List (BitVec 8)) : BitVec w := BitVec.ofNat w (ofLE bs)

/-- The `n` bytes of a word. -/
def bytes {w : Nat} (n : Nat) (v : BitVec w) : List (BitVec 8) := toLE n v.toNat

@[simp] theorem bytes_length {w : Nat} (n : Nat) (v : BitVec w) : (bytes n v).length = n :=
  toLE_length n v.toNat

private theorem pow_bytes {w : Nat} (n : Nat) (hw : w = 8 * n) : 256 ^ n = 2 ^ w := by
  rw [hw, pow_mul]
  norm_num

theorem word_bytes {w : Nat} (n : Nat) (hw : w = 8 * n) (v : BitVec w) : word w (bytes n v) = v := by
  apply BitVec.eq_of_toNat_eq
  have hp := pow_bytes n hw
  rw [word, bytes, ofLE_toLE, hp, BitVec.toNat_ofNat, Nat.mod_mod, Nat.mod_eq_of_lt v.isLt]

theorem word_toNat {w : Nat} (n : Nat) (hw : w = 8 * n) (bs : List (BitVec 8))
    (hl : bs.length = n) : (word w bs).toNat = ofLE bs := by
  have hp := pow_bytes n hw
  have hb := ofLE_lt bs
  rw [hl, hp] at hb
  rw [word, BitVec.toNat_ofNat, Nat.mod_eq_of_lt hb]

theorem bytes_word {w : Nat} (n : Nat) (hw : w = 8 * n) (bs : List (BitVec 8))
    (hl : bs.length = n) : bytes n (word w bs) = bs := by
  rw [bytes, word_toNat n hw bs hl, ← hl, toLE_ofLE]

theorem word_nil (w : Nat) : word w [] = 0#w := rfl

/-- A word is its first byte below the rest shifted up by eight, whatever the width drops. -/
theorem word_cons (w : Nat) (b : BitVec 8) (bs : List (BitVec 8)) :
    word w (b :: bs) = b.setWidth w ||| (word w bs <<< 8) := by
  apply BitVec.eq_of_getLsbD_eq
  intro i hi
  have hs : b.toNat + 256 * ofLE bs = 2 ^ 8 * ofLE bs + b.toNat := by ring
  rw [word, ofLE, hs, BitVec.getLsbD_ofNat, Nat.testBit_two_pow_mul_add _ b.isLt,
    BitVec.getLsbD_or, BitVec.getLsbD_shiftLeft, BitVec.getLsbD_setWidth, word,
    BitVec.getLsbD_ofNat]
  by_cases h8 : i < 8
  · simp [hi, h8, BitVec.testBit_toNat]
  · have hsub : i - 8 < w := by omega
    have hb : b.getLsbD i = false := BitVec.getLsbD_of_ge b i (by omega)
    simp [hi, h8, hsub, hb]

theorem bytes_zero {w : Nat} (v : BitVec w) : bytes 0 v = [] := rfl

/-- The lowest byte comes first, the word shifted down by eight follows. -/
theorem bytes_succ {w : Nat} (n : Nat) (v : BitVec w) :
    bytes (n + 1) v = v.setWidth 8 :: bytes n (v >>> 8) := by
  rw [bytes, toLE, bytes, BitVec.toNat_ushiftRight, Nat.shiftRight_eq_div_pow, BitVec.ofNat_toNat]

end LittleEndian
