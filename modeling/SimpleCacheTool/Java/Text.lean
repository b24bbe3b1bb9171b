import Mathlib.Data.Nat.Digits.Defs
import SimpleCacheTool.Java.Machine
import SimpleCacheTool.Math.Lines

namespace SimpleCacheTool

open Fallible

/-- A `String` as its UTF-16 code units. -/
abbrev JString := List (BitVec 16)

namespace JString

/-- The code units of an ASCII literal. -/
def lit (s : String) : JString := s.toList.map fun c => BitVec.ofNat 16 c.toNat

/-- `new String(bytes, ISO_8859_1)` -/
def latin1 (l : List Byte) : JString := l.map fun b => b.setWidth 16

/-- `getBytes(ISO_8859_1)`; only strings without surrogates reach it. -/
def getBytes (s : JString) : List Byte :=
  s.map fun c => if c.toNat < 256 then c.setWidth 8 else 0x3f#8

/-- A Latin-1 letter's lower case: A to Z and À to Þ move by 0x20, the sign × at 0xd7 does not. -/
def latin1Lower (c : BitVec 16) : BitVec 16 :=
  if (0x41 ≤ c.toNat ∧ c.toNat ≤ 0x5a) ∨ (0xc0 ≤ c.toNat ∧ c.toNat ≤ 0xde ∧ c.toNat ≠ 0xd7) then
    c + 0x20#16
  else c

/-- `toLowerCase(Locale.ROOT)`; `unicode` does it for strings beyond Latin-1. -/
def toLowerCase (unicode : JString → JString) (s : JString) : JString :=
  if ∀ c ∈ s, c.toNat < 256 then s.map latin1Lower else unicode s

def isSpace (c : BitVec 16) : Bool := c.toNat ≤ 0x20

/-- `trim()` -/
def trim (s : JString) : JString := ((s.dropWhile isSpace).reverse.dropWhile isSpace).reverse

/-- The first match at or behind the start of what is left of the string. -/
def indexOfLoop (needle : JString) : JString → Nat → Option Nat
  | [], i => if needle = [] then some i else none
  | c :: cs, i => if needle.isPrefixOf (c :: cs) then some i else indexOfLoop needle cs (i + 1)

/-- `indexOf(needle, from)`; -1 is `none`. -/
def indexOf (s needle : JString) (start : Nat) : Option Nat :=
  if start ≤ s.length then indexOfLoop needle (s.drop start) start
  else if needle = [] then some s.length else none

/-- `indexOf(c, from)` -/
def indexOfChar (s : JString) (c : BitVec 16) (start : Nat) : Option Nat := indexOf s [c] start

/-- `charAt(i)` -/
def charAt (s : JString) (i : Nat) : Java (BitVec 16) :=
  match s[i]? with
  | some c => .ok c
  | none => .error .stringIndexOutOfBounds

/-- `substring(first, last)` -/
def substring (s : JString) (first last : Nat) : Java JString :=
  if first ≤ last ∧ last ≤ s.length then .ok ((s.take last).drop first)
  else .error .stringIndexOutOfBounds

/-- `Integer.toString` -/
def ofInt (n : Int) : JString := lit (toString n)

/-- The text of a message that quotes the string. -/
def text (s : JString) : String := String.ofList (s.map fun c => Char.ofNat c.toNat)

theorem indexOfLoop_least (needle s : JString) (i k : Nat) (hn : needle ≠ [])
    (h : IsLeast {j | needle <+: s.drop j} k) : indexOfLoop needle s i = some (i + k) := by
  induction s generalizing i k with
  | nil =>
    have h0 : needle <+: ([] : JString).drop k := h.1
    rw [List.drop_nil, List.prefix_nil] at h0
    exact absurd h0 hn
  | cons c cs ih =>
    rw [indexOfLoop]
    by_cases hc : needle <+: c :: cs
    · have hk : k = 0 := Nat.le_zero.mp (h.2 hc)
      rw [if_pos (List.isPrefixOf_iff_prefix.mpr hc), hk, Nat.add_zero]
    · obtain ⟨k, rfl⟩ : ∃ m, k = m + 1 := by
        cases k with
        | zero => exact absurd h.1 hc
        | succ m => exact ⟨m, rfl⟩
      have hmin : ∀ j, needle <+: cs.drop j → k + 1 ≤ j + 1 := fun j hj => @h.2 (j + 1) hj
      have hr := ih (i + 1) k ⟨h.1, fun j hj => Nat.le_of_succ_le_succ (hmin j hj)⟩
      rw [if_neg (fun hp => hc (List.isPrefixOf_iff_prefix.mp hp)), hr, Nat.add_assoc,
        Nat.add_comm 1]

theorem indexOfLoop_none (needle s : JString) (i : Nat) (h : ∀ j, ¬needle <+: s.drop j) :
    indexOfLoop needle s i = none := by
  induction s generalizing i with
  | nil =>
    have hn : needle ≠ [] := fun hn => h 0 (by simp [hn])
    exact if_neg hn
  | cons c cs ih =>
    have h0 : ¬needle.isPrefixOf (c :: cs) := fun hp => h 0 (List.isPrefixOf_iff_prefix.mp hp)
    rw [indexOfLoop, if_neg h0, ih (i + 1) fun j => h (j + 1)]

theorem indexOf_least (s needle : JString) (start i : Nat) (hn : needle ≠ [])
    (h : IsLeast {j | start ≤ j ∧ needle <+: s.drop j} i) : s.indexOf needle start = some i := by
  obtain ⟨⟨hi, ho⟩, hmin⟩ := h
  have hl := Lines.occurs_length needle s i hn ho
  have hk : IsLeast {j | needle <+: (s.drop start).drop j} (i - start) := by
    refine ⟨?_, fun j hj => ?_⟩
    · change needle <+: (s.drop start).drop (i - start)
      rwa [List.drop_drop, Nat.add_sub_cancel' hi]
    · have hj' : needle <+: (s.drop start).drop j := hj
      rw [List.drop_drop] at hj'
      have := hmin ⟨Nat.le_add_right start j, hj'⟩
      omega
  rw [indexOf, if_pos (by omega), indexOfLoop_least needle _ start _ hn hk, Nat.add_sub_cancel' hi]

theorem indexOf_none (s needle : JString) (start : Nat) (hn : needle ≠ [])
    (h : ∀ j, start ≤ j → ¬needle <+: s.drop j) : s.indexOf needle start = none := by
  rw [indexOf, if_neg hn]
  split_ifs
  · apply indexOfLoop_none
    intro j
    rw [List.drop_drop]
    exact h _ (Nat.le_add_right start j)
  · rfl

/-- What `indexOf` finds: the first occurrence from the start on, or none. -/
theorem indexOf_cases (s needle : JString) (start : Nat) (hn : needle ≠ []) :
    (∃ i, IsLeast {j | start ≤ j ∧ needle <+: s.drop j} i ∧ i + needle.length ≤ s.length ∧
      s.indexOf needle start = some i) ∨
    (∀ j, start ≤ j → ¬needle <+: s.drop j) ∧ s.indexOf needle start = none := by
  rcases Lines.least_or_none fun j => start ≤ j ∧ needle <+: s.drop j with ⟨i, hi⟩ | hnone
  · exact .inl ⟨i, hi, Lines.occurs_length needle s i hn hi.1.2, indexOf_least s needle start i hn hi⟩
  · have hno : ∀ j, start ≤ j → ¬needle <+: s.drop j := fun j hj ho => hnone j ⟨hj, ho⟩
    exact .inr ⟨hno, indexOf_none s needle start hn hno⟩

theorem indexOfLoop_le (needle s : JString) (i k : Nat) (h : indexOfLoop needle s i = some k) :
    k ≤ i + s.length := by
  induction s generalizing i with
  | nil =>
    rw [indexOfLoop, Option.ite_none_right_eq_some] at h
    have hk := Option.some.inj h.2
    simp [hk]
  | cons c cs ih =>
    rw [indexOfLoop] at h
    rw [List.length_cons]
    split_ifs at h
    · have hk := Option.some.inj h
      omega
    · have hk := ih (i + 1) h
      omega

theorem indexOf_le (s needle : JString) (start i : Nat) (h : s.indexOf needle start = some i) :
    i ≤ s.length := by
  rw [indexOf] at h
  split_ifs at h
  · have hi := indexOfLoop_le needle _ start i h
    rw [List.length_drop] at hi
    omega
  · exact (Option.some.inj h).ge

theorem toLowerCase_latin1 (unicode : JString → JString) (s : JString)
    (h : s.all fun c => c.toNat < 256) : s.toLowerCase unicode = s.map latin1Lower := by
  apply if_pos
  intro c hc
  exact of_decide_eq_true (List.all_eq_true.mp h c hc)

/-- Lower case on the characters of a Latin-1 byte. -/
def lowerByte (b : Byte) : BitVec 16 := latin1Lower (b.setWidth 16)

@[simp] theorem latin1_length (l : List Byte) : (latin1 l).length = l.length := List.length_map _

theorem latin1_toLowerCase (unicode : JString → JString) (l : List Byte) :
    (latin1 l).toLowerCase unicode = l.map lowerByte := by
  have h : ∀ c ∈ latin1 l, c.toNat < 256 := by
    intro c hc
    obtain ⟨b, -, rfl⟩ := List.mem_map.mp hc
    have hb := b.isLt
    rw [BitVec.toNat_setWidth]
    omega
  rw [toLowerCase, if_pos h, latin1, List.map_map]
  rfl

theorem getBytes_latin1 (l : List Byte) : (latin1 l).getBytes = l := by
  rw [getBytes, latin1, List.map_map]
  conv_rhs => rw [← List.map_id l]
  apply List.map_congr_left
  intro b _
  have hb := b.isLt
  have hc : (b.setWidth 16).toNat < 256 := by
    rw [BitVec.toNat_setWidth]
    omega
  rw [Function.comp_apply, if_pos hc]
  apply BitVec.eq_of_toNat_eq
  rw [BitVec.toNat_setWidth, BitVec.toNat_setWidth, id]
  omega

@[simp] theorem getBytes_append (s t : JString) : (s ++ t).getBytes = s.getBytes ++ t.getBytes :=
  List.map_append

theorem latin1_getBytes (s : JString) (h : ∀ c ∈ s, c.toNat < 256) : latin1 s.getBytes = s := by
  rw [getBytes, latin1, List.map_map]
  conv_rhs => rw [← List.map_id s]
  apply List.map_congr_left
  intro c hc
  have h256 := h c hc
  rw [Function.comp_apply, if_pos h256]
  apply BitVec.eq_of_toNat_eq
  rw [BitVec.toNat_setWidth, BitVec.toNat_setWidth, id]
  omega

theorem dropWhile_of_none {α : Type*} (p : α → Bool) (l : List α) (h : ∀ a ∈ l, ¬p a) :
    l.dropWhile p = l := by
  cases l with
  | nil => rfl
  | cons a l => rw [List.dropWhile_cons_of_neg (h a List.mem_cons_self)]

/-- `trim` takes off the spaces at both ends, and no more. -/
theorem trim_padded (a s b : JString) (ha : ∀ c ∈ a, isSpace c) (hs : ∀ c ∈ s, ¬isSpace c)
    (hne : s ≠ []) (hb : ∀ c ∈ b, isSpace c) : (a ++ (s ++ b)).trim = s := by
  obtain ⟨c, rest, rfl⟩ := List.exists_cons_of_ne_nil hne
  have hfront : ((c :: rest) ++ b).dropWhile isSpace = (c :: rest) ++ b :=
    List.dropWhile_cons_of_neg (hs c List.mem_cons_self)
  rw [trim, List.dropWhile_append_of_pos ha, hfront, List.reverse_append,
    List.dropWhile_append_of_pos fun x hx => hb x (List.mem_reverse.mp hx),
    dropWhile_of_none isSpace _ fun x hx => hs x (List.mem_reverse.mp hx), List.reverse_reverse]

theorem trim_of_none (s : JString) (h : ∀ c ∈ s, ¬isSpace c) : s.trim = s := by
  rw [trim, dropWhile_of_none isSpace s h,
    dropWhile_of_none isSpace _ fun c hc => h c (List.mem_reverse.mp hc), List.reverse_reverse]

/-- A string is what `trim` leaves of it between spaces. -/
theorem trim_split (s : JString) : ∃ a b : JString, (∀ c ∈ a, isSpace c) ∧ (∀ c ∈ b, isSpace c) ∧
    s = a ++ (s.trim ++ b) := by
  refine ⟨s.takeWhile isSpace, ((s.dropWhile isSpace).reverse.takeWhile isSpace).reverse, ?_, ?_, ?_⟩
  · intro c hc
    exact List.all_eq_true.mp List.all_takeWhile c hc
  · intro c hc
    exact List.all_eq_true.mp List.all_takeWhile c (List.mem_reverse.mp hc)
  · rw [trim, ← List.reverse_append, List.takeWhile_append_dropWhile, List.reverse_reverse,
      List.takeWhile_append_dropWhile]

theorem ofInt_nat (n : Nat) : ofInt n = (Nat.toDigits 10 n).map fun c => BitVec.ofNat 16 c.toNat := by
  have h : toString (n : Int) = String.ofList (Nat.toDigits 10 n) := rfl
  rw [ofInt, lit, h, String.toList_ofList]

theorem ofInt_digits (n : Nat) (c : BitVec 16) (hc : c ∈ ofInt n) :
    0x30 ≤ c.toNat ∧ c.toNat ≤ 0x39 := by
  rw [ofInt_nat] at hc
  obtain ⟨d, hd, rfl⟩ := List.mem_map.mp hc
  have hdigit := Nat.isDigit_of_mem_toDigits (by decide) (Nat.le_refl 10) hd
  simp only [Char.isDigit, Bool.and_eq_true, decide_eq_true_eq] at hdigit
  obtain ⟨h0, h9⟩ := hdigit
  have h0' : 48 ≤ d.toNat := h0
  have h9' : d.toNat ≤ 57 := h9
  rw [BitVec.toNat_ofNat]
  omega

/-- An int has ten digits at most. -/
theorem ofInt_length (n : Nat) (h : n < 2 ^ 31) : (ofInt n).length ≤ 10 := by
  rw [ofInt_nat, List.length_map, Nat.length_toDigits_le_iff (by decide) (by decide)]
  omega

end JString

/-- The library code the tool calls beyond what is modelled here. -/
structure Jdk where
  /-- `toLowerCase(Locale.ROOT)` of a string beyond Latin-1. -/
  toLowerCase : JString → JString
  /-- What a `GZIPOutputStream` writes for the data; `none` when it throws. -/
  gzip : List Byte → Option (List Byte)
  /-- What a `DeflaterOutputStream` writes. -/
  deflate : List Byte → Option (List Byte)
  /-- What a `GZIPInputStream` delivers, and whether its end is reached without an exception. -/
  gunzip : List Byte → List Byte × Bool
  /-- The same for an `InflaterInputStream`. -/
  inflate : List Byte → List Byte × Bool

/-- The library with coders that store the data as it is. -/
def storedJdk : Jdk where
  toLowerCase := id
  gzip := some
  deflate := some
  gunzip := fun data => (data, true)
  inflate := fun data => (data, true)

end SimpleCacheTool
