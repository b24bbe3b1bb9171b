import SimpleCacheTool.Format.SimpleCacheFormat
import SimpleCacheTool.Java.Text

namespace SimpleCacheTool

open Fallible

namespace JString

def isHighSurrogate (c : BitVec 16) : Bool := 0xd800 ≤ c.toNat ∧ c.toNat ≤ 0xdbff

def isLowSurrogate (c : BitVec 16) : Bool := 0xdc00 ≤ c.toNat ∧ c.toNat ≤ 0xdfff

/-- The UTF-8 bytes of one code unit; a lone surrogate becomes a question mark. -/
def utf8Unit (c : BitVec 16) : List Byte :=
  let n := c.toNat
  if n < 0x80 then [BitVec.ofNat 8 n]
  else if n < 0x800 then [BitVec.ofNat 8 (0xc0 + n / 64), BitVec.ofNat 8 (0x80 + n % 64)]
  else if isHighSurrogate c ∨ isLowSurrogate c then [0x3f#8]
  else [BitVec.ofNat 8 (0xe0 + n / 4096), BitVec.ofNat 8 (0x80 + n / 64 % 64),
    BitVec.ofNat 8 (0x80 + n % 64)]

def utf8Pair (high low : BitVec 16) : List Byte :=
  let n := 0x10000 + (high.toNat - 0xd800) * 0x400 + (low.toNat - 0xdc00)
  [BitVec.ofNat 8 (0xf0 + n / 0x40000), BitVec.ofNat 8 (0x80 + n / 4096 % 64),
    BitVec.ofNat 8 (0x80 + n / 64 % 64), BitVec.ofNat 8 (0x80 + n % 64)]

/-- The bytes of `getBytes(UTF_8)`. -/
def utf8 : JString → List Byte
  | [] => []
  | [c] => utf8Unit c
  | c :: d :: s =>
    if isHighSurrogate c ∧ isLowSurrogate d then utf8Pair c d ++ utf8 s
    else utf8Unit c ++ utf8 (d :: s)

/-- `new String(bytes, US_ASCII)` -/
def usAscii (l : List Byte) : JString :=
  l.map fun b => if b.toNat < 0x80 then b.setWidth 16 else 0xfffd#16

def IsAscii (s : JString) : Prop := ∀ c ∈ s, c.toNat < 0x80

def upperLetter (c : BitVec 16) : BitVec 16 :=
  if 0x61 ≤ c.toNat ∧ c.toNat ≤ 0x7a then c - 0x20#16 else c

/-- `toUpperCase()` of an ASCII string without the letter i, which no locale maps otherwise. -/
def asciiUpper (s : JString) : JString := s.map upperLetter

theorem utf8Unit_ascii (c : BitVec 16) (h : c.toNat < 0x80) : utf8Unit c = [c.setWidth 8] := by
  rw [utf8Unit]
  simp only [if_pos h]
  congr 1

theorem utf8_ascii (s : JString) (h : IsAscii s) : utf8 s = s.map fun c => c.setWidth 8 := by
  induction s using utf8.induct with
  | case1 => rfl
  | case2 c => exact utf8Unit_ascii c (h c List.mem_cons_self)
  | case3 c d s hpair ih =>
    have hc := h c List.mem_cons_self
    have hhigh : 0xd800 ≤ c.toNat := by
      simp only [isHighSurrogate, decide_eq_true_eq] at hpair
      exact hpair.1.1
    omega
  | case4 c d s hpair ih =>
    rw [utf8, if_neg hpair, ih fun x hx => h x (List.mem_cons_of_mem c hx),
      utf8Unit_ascii c (h c List.mem_cons_self)]
    rfl

theorem usAscii_utf8 (s : JString) (h : IsAscii s) : usAscii (utf8 s) = s := by
  rw [utf8_ascii s h, usAscii, List.map_map]
  conv_rhs => rw [← List.map_id s]
  apply List.map_congr_left
  intro c hc
  have h80 := h c hc
  have hb : (c.setWidth 8).toNat < 0x80 := by
    rw [BitVec.toNat_setWidth]
    omega
  rw [Function.comp_apply, if_pos hb]
  apply BitVec.eq_of_toNat_eq
  rw [BitVec.toNat_setWidth, BitVec.toNat_setWidth, id]
  omega

end JString

namespace SimpleCacheFormat

/-- UTF-8, whatever the name says; more bytes than an array holds are an `Error`. -/
def ascii (s : JString) : Java Bytes :=
  if h : s.utf8.length < 2 ^ 31 then .ok ⟨s.utf8, h⟩ else .error .outOfMemory

def hexChars : JString := .lit "0123456789abcdef"

def hexDigit (v : Nat) : BitVec 16 := hexChars.getD v 0#16

/-- The digits of a byte string, high half first. -/
def hexOf (l : List Byte) : JString :=
  l.flatMap fun b => [hexDigit (b.toNat >>> 4), hexDigit (b.toNat &&& 0xf)]

def hex (b : Bytes) : Java JString := do
  throwIf (i32 (b.length * 2) < 0) .negativeArraySize
  .ok (hexOf b.list)

/-- The value of a digit in either case. -/
def hexValue (c : BitVec 16) : Option Nat :=
  if 0x30 ≤ c.toNat ∧ c.toNat ≤ 0x39 then some (c.toNat - 0x30)
  else if 0x61 ≤ c.toNat ∧ c.toNat ≤ 0x66 then some (c.toNat - 0x57)
  else if 0x41 ≤ c.toNat ∧ c.toNat ≤ 0x46 then some (c.toNat - 0x37)
  else none

/-- The bytes that pairs of hex digits stand for. -/
def unhex : JString → Option (List Byte)
  | [] => some []
  | [_] => none
  | c :: d :: s => do
    let high ← hexValue c
    let low ← hexValue d
    let rest ← unhex s
    some (BitVec.ofNat 8 (16 * high + low) :: rest)

theorem unhex_isSome (s : JString) (l : List Byte) (h : unhex s = some l) :
    ∀ d ∈ s, (hexValue d).isSome := by
  induction s using unhex.induct generalizing l with
  | case1 => simp
  | case2 c => cases h
  | case3 c d s ih =>
    rw [unhex] at h
    simp only [Option.bind_eq_bind, Option.bind_eq_some_iff] at h
    obtain ⟨high, hhigh, low, hlow, rest, hrest, -⟩ := h
    intro e he
    rcases List.mem_cons.mp he with rfl | he
    · exact Option.isSome_of_eq_some hhigh
    · rcases List.mem_cons.mp he with rfl | he
      · exact Option.isSome_of_eq_some hlow
      · exact ih rest hrest e he

theorem hexDigit_toNat : ∀ v < 16,
    (hexDigit v).toNat = if v < 10 then 0x30 + v else 0x57 + v := by decide

/-- The same digit in upper case. -/
theorem hexDigit_upper (v : Nat) (h : v < 16) :
    (JString.upperLetter (hexDigit v)).toNat = if v < 10 then 0x30 + v else 0x37 + v := by
  have hv := hexDigit_toNat v h
  rw [JString.upperLetter]
  by_cases h10 : v < 10
  · rw [if_pos h10] at hv ⊢
    rw [if_neg (by omega), hv]
  · rw [if_neg h10] at hv ⊢
    rw [if_pos (by omega), BitVec.toNat_sub, hv, BitVec.toNat_ofNat]
    omega

theorem hexDigit_value (v : Nat) (h : v < 16) (c : BitVec 16)
    (hc : c.toNat = if v < 10 then 0x30 + v else 0x57 + v) : hexValue c = some v := by
  rw [hexValue]
  split_ifs at hc ⊢ <;> first | omega | (congr 1; omega)

theorem hexUpper_value (v : Nat) (h : v < 16) (c : BitVec 16)
    (hc : c.toNat = if v < 10 then 0x30 + v else 0x37 + v) : hexValue c = some v := by
  rw [hexValue]
  split_ifs at hc ⊢ <;> first | omega | (congr 1; omega)

theorem hexOf_cons (b : Byte) (l : List Byte) :
    hexOf (b :: l) = hexDigit (b.toNat >>> 4) :: hexDigit (b.toNat &&& 0xf) :: hexOf l := rfl

theorem hexOf_length (l : List Byte) : (hexOf l).length = 2 * l.length := by
  induction l with
  | nil => rfl
  | cons b l ih =>
    rw [hexOf_cons, List.length_cons, List.length_cons, ih, List.length_cons]
    omega

theorem byte_halves (b : Byte) : b.toNat >>> 4 < 16 ∧ b.toNat &&& 0xf < 16 ∧
    BitVec.ofNat 8 (16 * (b.toNat >>> 4) + (b.toNat &&& 0xf)) = b := by
  have hb := b.isLt
  have hlow : b.toNat &&& 0xf = b.toNat % 16 := Nat.and_two_pow_sub_one_eq_mod _ 4
  have hhigh : b.toNat >>> 4 = b.toNat / 16 := Nat.shiftRight_eq_div_pow _ 4
  refine ⟨by omega, by omega, ?_⟩
  apply BitVec.eq_of_toNat_eq
  rw [BitVec.toNat_ofNat, hlow, hhigh]
  omega

theorem hexOf_ascii (l : List Byte) : JString.IsAscii (hexOf l) := by
  intro c hc
  obtain ⟨b, -, hb⟩ := List.mem_flatMap.mp hc
  obtain ⟨hhigh, hlow, -⟩ := byte_halves b
  have hdigit (v : Nat) (hv : v < 16) : (hexDigit v).toNat < 0x80 := by
    rw [hexDigit_toNat v hv]
    split_ifs <;> omega
  rcases List.mem_pair.mp hb with rfl | rfl
  · exact hdigit _ hhigh
  · exact hdigit _ hlow

theorem asciiUpper_ascii (l : List Byte) : JString.IsAscii (hexOf l).asciiUpper := by
  intro c hc
  obtain ⟨x, hx, rfl⟩ := List.mem_map.mp hc
  have h := hexOf_ascii l x hx
  rw [JString.upperLetter]
  split_ifs with hlower
  · rw [BitVec.toNat_sub]
    simp only [BitVec.toNat_ofNat]
    omega
  · exact h

/-- The digits of both cases stand for the bytes they were made from. -/
theorem unhex_hexOf (l : List Byte) :
    unhex (hexOf l) = some l ∧ unhex (hexOf l).asciiUpper = some l := by
  induction l with
  | nil => exact ⟨rfl, rfl⟩
  | cons b l ih =>
    obtain ⟨hhigh, hlow, hb⟩ := byte_halves b
    have vh := hexDigit_value _ hhigh _ (hexDigit_toNat _ hhigh)
    have vl := hexDigit_value _ hlow _ (hexDigit_toNat _ hlow)
    rw [hexOf_cons]
    constructor
    · rw [unhex, vh, vl, ih.1]
      simp only [Option.bind_eq_bind, Option.bind_some, hb]
    · have uh := hexUpper_value _ hhigh _ (hexDigit_upper _ hhigh)
      have ul := hexUpper_value _ hlow _ (hexDigit_upper _ hlow)
      have hupper := ih.2
      rw [JString.asciiUpper] at hupper
      rw [JString.asciiUpper, List.map_cons, List.map_cons, unhex, uh, ul, hupper]
      simp only [Option.bind_eq_bind, Option.bind_some, hb]

theorem ascii_of_lt (s : JString) (h : s.utf8.length < 2 ^ 31) : ascii s = .ok ⟨s.utf8, h⟩ := dif_pos h

theorem hex_eq (b : Bytes) (h : b.length < 2 ^ 30) : hex b = .ok (hexOf b.list) := by
  rw [hex, throwIf_bind_of_not _ _ _ (by rw [i32_of_range _ (by omega) (by omega)]; omega)]

end SimpleCacheFormat

end SimpleCacheTool
