import Mathlib.Data.List.TakeWhile
import SimpleCacheTool.Metadata.HeaderSearch

namespace SimpleCacheTool.HttpCacheMetadata

open Fallible Segments Lines LittleEndian JString SimpleCacheFormat

/-! What `CONTENT_LENGTH` matches, by lines. -/

/-- The digits right behind the colon of a content-length line. -/
def leadingDigits (line : List Byte) : JString := (latin1 (line.drop 15)).takeWhile isDigit

/-- What stands behind them. -/
def behindDigits (line : List Byte) : JString := (latin1 (line.drop 15)).dropWhile isDigit

/-- A content-length line with a digit right behind the colon. -/
def leads (line : List Byte) : Bool := startsWith lengthNeedle line && !(leadingDigits line).isEmpty

theorem startsWith_of_leads (line : List Byte) (h : leads line) : startsWith lengthNeedle line := by
  simp only [leads, Bool.and_eq_true] at h
  exact h.1

/-- The two lower cases differ beyond ASCII alone, and stay there. -/
theorem asciiLower_eq_iff (b : Byte) (x : BitVec 16) (hx : x.toNat < 0x80) :
    x = asciiLower (b.setWidth 16) ↔ x = lowerByte b := by
  have hb := b.isLt
  have hn : (b.setWidth 16).toNat = b.toNat := by
    rw [BitVec.toNat_setWidth]
    omega
  rw [lowerByte, asciiLower, latin1Lower, hn]
  by_cases hu : 0x41 ≤ b.toNat ∧ b.toNat ≤ 0x5a
  · rw [if_pos hu, if_pos (.inl hu)]
  · rw [if_neg hu]
    by_cases hl : 0xc0 ≤ b.toNat ∧ b.toNat ≤ 0xde ∧ b.toNat ≠ 0xd7
    · -- neither the letter nor its lower case is ASCII
      rw [if_pos (.inr hl), ← BitVec.toNat_inj, ← BitVec.toNat_inj, BitVec.toNat_add, hn]
      simp only [BitVec.toNat_ofNat]
      omega
    · rw [if_neg (by omega)]

theorem prefix_asciiLower (needle : JString) (hn : IsAscii needle) (l : List Byte) :
    needle <+: l.map (fun b => asciiLower (b.setWidth 16)) ↔ needle <+: l.map lowerByte := by
  induction needle generalizing l with
  | nil => simp
  | cons x needle ih =>
    cases l with
    | nil => simp
    | cons b l =>
      rw [List.map_cons, List.map_cons, List.cons_prefix_cons, List.cons_prefix_cons,
        asciiLower_eq_iff b x (hn x List.mem_cons_self),
        ih fun c hc => hn c (List.mem_cons_of_mem x hc)]

theorem lengthNeedle_ascii : IsAscii lengthNeedle := by
  intro c hc
  have h : lengthNeedle.all fun c => decide (c.toNat < 0x80) := by decide
  exact of_decide_eq_true (List.all_eq_true.mp h c hc)

theorem takeWhile_line (p : BitVec 16 → Bool) (hp : ¬p 0#16) (line : List Byte)
    (post : List (List Byte)) :
    (latin1 (line ++ after 0#8 post)).takeWhile p = (latin1 line).takeWhile p := by
  induction line with
  | nil =>
    cases post with
    | nil => rfl
    | cons a post =>
      rw [List.nil_append, after_cons]
      exact List.takeWhile_cons_of_neg hp
  | cons b line ih =>
    rw [List.cons_append]
    change ((b.setWidth 16) :: latin1 (line ++ after 0#8 post)).takeWhile p =
      ((b.setWidth 16) :: latin1 line).takeWhile p
    rw [List.takeWhile_cons, List.takeWhile_cons, ih]

/-- A match at a line's start stays in the line. -/
theorem lengthAt_line (line : List Byte) (post : List (List Byte)) :
    lengthAt (latin1 (line ++ after 0#8 post)) =
      if leads line then some (leadingDigits line) else none := by
  have hp : (lit "content-length:").isPrefixOf ((latin1 (line ++ after 0#8 post)).map asciiLower) ↔
      startsWith lengthNeedle line := by
    rw [List.isPrefixOf_iff_prefix, startsWith_iff, latin1, List.map_map]
    change lengthNeedle <+: (line ++ after 0#8 post).map (fun b => asciiLower (b.setWidth 16)) ↔ _
    rw [occurs_line 0#8 _ lengthNeedle (by decide), prefix_asciiLower lengthNeedle lengthNeedle_ascii]
  rw [lengthAt]
  by_cases hs : startsWith lengthNeedle line
  · have hlen := startsWith_length line hs
    have hgroup : ((latin1 (line ++ after 0#8 post)).drop 15).takeWhile isDigit =
        leadingDigits line := by
      rw [latin1, ← List.map_drop, List.drop_append_of_le_length hlen, leadingDigits]
      exact takeWhile_line isDigit (by decide) (line.drop 15) post
    rw [if_pos (hp.mpr hs), leads, hs, hgroup]
    cases leadingDigits line <;> rfl
  · rw [if_neg (mt hp.mp hs), if_neg (mt (startsWith_of_leads line) hs)]

theorem lengthBehindZero_line (line rest : List Byte) (hz : 0#8 ∉ line) :
    lengthBehindZero (latin1 (line ++ rest)) = lengthBehindZero (latin1 rest) := by
  induction line with
  | nil => rfl
  | cons b line ih =>
    rw [List.mem_cons, not_or] at hz
    have hb : b.setWidth 16 ≠ 0#16 := fun h => hz.1 ((setWidth_eq_zero b).mp h).symm
    change (if b.setWidth 16 = 0#16 then _ else lengthBehindZero (latin1 (line ++ rest))) = _
    rw [if_neg hb, ih hz.2]

theorem lengthBehindZero_after (ls : List (List Byte)) (hz : ∀ l ∈ ls, 0#8 ∉ l) :
    lengthBehindZero (latin1 (after 0#8 ls)) = (ls.find? leads).map leadingDigits := by
  induction ls with
  | nil => rfl
  | cons a ls ih =>
    have hrest := ih fun l hl => hz l (List.mem_cons_of_mem a hl)
    rw [after_cons]
    change (lengthAt (latin1 (a ++ after 0#8 ls))).orElse
      (fun _ => lengthBehindZero (latin1 (a ++ after 0#8 ls))) = _
    rw [lengthAt_line, lengthBehindZero_line a _ (hz a List.mem_cons_self), hrest, List.find?_cons]
    cases leads a <;> rfl

/-- The regular expression finds the first content-length line with a digit right behind the colon. -/
theorem findContentLength_lines (block : List Byte) :
    findContentLength (latin1 block) = ((linesOf block).find? leads).map leadingDigits := by
  obtain ⟨l, ls, hl⟩ := List.exists_cons_of_ne_nil (linesOf_ne_nil block)
  have hz := not_mem_linesOf block
  rw [hl] at hz
  have hblock := block_cons block l ls hl
  rw [hl, hblock, findContentLength, lengthAt_line, lengthBehindZero_line l _ (hz l List.mem_cons_self),
    lengthBehindZero_after ls fun x hx => hz x (List.mem_cons_of_mem l hx), List.find?_cons]
  cases leads l <;> rfl

/-! The numbers of the two readers. -/

/-- The value of decimal digits. -/
def digitsValue (digits : JString) : Nat :=
  digits.foldl (fun value c => 10 * value + (c.toNat - 0x30)) 0

/-- An int's value, and -1 for what is no int. -/
def orAbsent (n : Nat) : Int := if n < 2 ^ 31 then n else -1

/-- The number of the first line with a digit right behind the colon. -/
def lengthRead (ls : List (List Byte)) : Int :=
  match ls.find? leads with
  | none => -1
  | some line => orAbsent (digitsValue (leadingDigits line))

theorem contentLength_lines (s : Bytes) (hs hlen : Nat) (h : BlockAt s.list hs hlen) :
    contentLength s = .ok (lengthRead (linesOf (seg s.list hs hlen))) := by
  rw [contentLength, headerBlock_block s hs hlen h, ok_bind]
  simp only [findContentLength_lines, lengthRead]
  cases (linesOf (seg s.list hs hlen)).find? leads with
  | none => rfl
  | some line =>
    change Except.ok ((parseDigits (leadingDigits line)).getD (-1)) =
      Except.ok (orAbsent (digitsValue (leadingDigits line)))
    unfold parseDigits orAbsent digitsValue
    dsimp only
    split_ifs <;> rfl

/-- A string of decimal digits. -/
def IsNumeral (v : JString) : Prop := v ≠ [] ∧ ∀ c ∈ v, isDigit c

instance (v : JString) : Decidable (IsNumeral v) :=
  decidable_of_iff (v ≠ [] ∧ v.all isDigit) (and_congr_right' List.all_eq_true)

/-- The number of a header's value; -1 for null and what is no number. -/
def numberOf : Option JString → Int
  | none => -1
  | some v => if IsNumeral v then orAbsent (digitsValue v) else -1

/-- For every int the one reader gives it exactly when the other's text is its digits, and the one
gives -1 exactly when the other's text is missing or no int. -/
structure ReadersAgree (jdk : Jdk) (s : Bytes) : Prop where
  value : ∀ n : Nat, n < 2 ^ 31 → (contentLength s = .ok (n : Int) ↔
    ∃ v, headerValue jdk s lengthName = .ok (some v) ∧ IsNumeral v ∧ digitsValue v = n)
  absent : contentLength s = .ok (-1) ↔ headerValue jdk s lengthName = .ok none ∨
    ∃ v, headerValue jdk s lengthName = .ok (some v) ∧ (¬IsNumeral v ∨ 2 ^ 31 ≤ digitsValue v)

theorem orAbsent_eq (k n : Nat) : orAbsent k = n ↔ k < 2 ^ 31 ∧ k = n := by
  rw [orAbsent]
  by_cases h : k < 2 ^ 31
  · rw [if_pos h, Nat.cast_inj]
    exact ⟨fun he => ⟨h, he⟩, fun he => he.2⟩
  · rw [if_neg h]
    exact ⟨fun he => by omega, fun he => absurd he.1 h⟩

theorem orAbsent_absent (k : Nat) : orAbsent k = -1 ↔ 2 ^ 31 ≤ k := by
  rw [orAbsent]
  by_cases h : k < 2 ^ 31
  · rw [if_pos h]
    exact ⟨fun he => by omega, fun he => by omega⟩
  · rw [if_neg h]
    exact ⟨fun _ => by omega, fun _ => rfl⟩

theorem numberOf_eq (o : Option JString) (n : Nat) (hn : n < 2 ^ 31) :
    numberOf o = n ↔ ∃ v, o = some v ∧ IsNumeral v ∧ digitsValue v = n := by
  cases o with
  | none => simp [numberOf]
  | some v =>
    simp only [numberOf, Option.some.injEq, exists_eq_left']
    by_cases hv : IsNumeral v
    · rw [if_pos hv, orAbsent_eq]
      exact ⟨fun h => ⟨hv, h.2⟩, fun h => ⟨by omega, h.2⟩⟩
    · rw [if_neg hv]
      exact ⟨fun h => by omega, fun h => absurd h.1 hv⟩

theorem numberOf_absent (o : Option JString) : numberOf o = -1 ↔
    o = none ∨ ∃ v, o = some v ∧ (¬IsNumeral v ∨ 2 ^ 31 ≤ digitsValue v) := by
  cases o with
  | none => simp [numberOf]
  | some v =>
    simp only [numberOf, Option.some.injEq, exists_eq_left', reduceCtorEq, false_or]
    by_cases hv : IsNumeral v
    · rw [if_pos hv, orAbsent_absent]
      exact ⟨.inr, fun h => h.resolve_left (not_not.mpr hv)⟩
    · rw [if_neg hv]
      exact ⟨fun _ => .inl hv, fun _ => rfl⟩

theorem lengthRead_range (ls : List (List Byte)) :
    lengthRead ls = -1 ∨ ∃ n : Nat, n < 2 ^ 31 ∧ lengthRead ls = n := by
  rw [lengthRead]
  cases ls.find? leads with
  | none => exact .inl rfl
  | some line =>
    dsimp only
    by_cases h : digitsValue (leadingDigits line) < 2 ^ 31
    · exact .inr ⟨_, h, if_pos h⟩
    · exact .inl (if_neg h)

/-- The readers agree when the numbers they get from the lines do. -/
theorem readersAgree_lines (jdk : Jdk) (s : Bytes) (hs hlen : Nat) (h : BlockAt s.list hs hlen) :
    ReadersAgree jdk s ↔ lengthRead (linesOf (seg s.list hs hlen)) =
      numberOf (valueOf lengthNeedle (linesOf (seg s.list hs hlen))) := by
  have hv := headerValue_length jdk s hs hlen h
  have hc := contentLength_lines s hs hlen h
  generalize linesOf (seg s.list hs hlen) = ls at hv hc ⊢
  have hvalue (n : Nat) : (∃ v, headerValue jdk s lengthName = .ok (some v) ∧ IsNumeral v ∧
      digitsValue v = n) ↔ ∃ v, valueOf lengthNeedle ls = some v ∧ IsNumeral v ∧ digitsValue v = n := by
    simp only [hv, Except.ok.injEq]
  have habsent : (headerValue jdk s lengthName = .ok none ∨
      ∃ v, headerValue jdk s lengthName = .ok (some v) ∧ (¬IsNumeral v ∨ 2 ^ 31 ≤ digitsValue v)) ↔
      numberOf (valueOf lengthNeedle ls) = -1 := by
    simp only [hv, Except.ok.injEq, numberOf_absent]
  constructor
  · rintro ⟨value, absent⟩
    rcases lengthRead_range ls with hr | ⟨n, hn, hr⟩
    · rw [hr, habsent.mp (absent.mp (by rw [hc, hr]))]
    · rw [hr, (numberOf_eq _ n hn).mpr ((hvalue n).mp ((value n hn).mp (by rw [hc, hr])))]
  · intro heq
    refine ⟨fun n hn => ?_, ?_⟩
    · rw [hvalue, ← numberOf_eq _ n hn, ← heq, hc, Except.ok.injEq]
    · rw [habsent, ← heq, hc, Except.ok.injEq]

/-! A value between white space. -/

/-- Behind the colon stand digits of the value `n`, and white space around them. -/
def Padded (line : List Byte) (n : Nat) : Prop :=
  ∃ a d b : JString, latin1 (line.drop 15) = a ++ (d ++ b) ∧ (∀ c ∈ a, isSpace c) ∧
    (∀ c ∈ b, isSpace c) ∧ IsNumeral d ∧ digitsValue d = n

theorem not_space_of_digit (c : BitVec 16) (h : isDigit c) : ¬isSpace c := by
  simp only [isDigit, isSpace, decide_eq_true_eq] at *
  omega

theorem padded_iff_trim (line : List Byte) (n : Nat) :
    Padded line n ↔ IsNumeral (lengthValue line) ∧ digitsValue (lengthValue line) = n := by
  constructor
  · rintro ⟨a, d, b, hsplit, ha, hb, hd, hn⟩
    have ht : lengthValue line = d := by
      rw [lengthValue, hsplit]
      exact trim_padded a d b ha (fun c hc => not_space_of_digit c (hd.2 c hc)) hd.1 hb
    rw [ht]
    exact ⟨hd, hn⟩
  · rintro ⟨hd, hn⟩
    obtain ⟨a, b, ha, hb, hsplit⟩ := trim_split (latin1 (line.drop 15))
    exact ⟨a, lengthValue line, b, hsplit, ha, hb, hd, hn⟩

theorem takeWhile_padded (d b : JString) (hd : ∀ c ∈ d, isDigit c) (hb : ∀ c ∈ b, isSpace c) :
    (d ++ b).takeWhile isDigit = d ∧ (d ++ b).dropWhile isDigit = b := by
  rw [List.takeWhile_append_of_pos hd, List.dropWhile_append_of_pos hd]
  cases b with
  | nil => exact ⟨List.append_nil d, rfl⟩
  | cons c b =>
    have hc : ¬isDigit c := fun h => not_space_of_digit c h (hb c List.mem_cons_self)
    rw [List.takeWhile_cons_of_neg hc, List.dropWhile_cons_of_neg hc]
    exact ⟨List.append_nil d, rfl⟩

/-- With a digit right behind the colon, only what stands behind the digits can be in the way. -/
theorem padded_leads (line : List Byte) (hlead : leadingDigits line ≠ []) (n : Nat) :
    Padded line n ↔ (∀ c ∈ behindDigits line, isSpace c) ∧ digitsValue (leadingDigits line) = n := by
  have hsplit : latin1 (line.drop 15) = leadingDigits line ++ behindDigits line :=
    List.takeWhile_append_dropWhile.symm
  have hdigits : ∀ c ∈ leadingDigits line, isDigit c := fun c hc =>
    List.all_eq_true.mp List.all_takeWhile c hc
  constructor
  · rintro ⟨a, d, b, hpadded, ha, hb, hd, hn⟩
    cases a with
    | nil =>
      rw [List.nil_append] at hpadded
      have h := takeWhile_padded d b hd.2 hb
      rw [← hpadded] at h
      rw [leadingDigits, behindDigits, h.1, h.2]
      exact ⟨hb, hn⟩
    | cons c a =>
      -- a space where the first digit stands
      obtain ⟨x, rest, hx⟩ := List.exists_cons_of_ne_nil hlead
      rw [hsplit, hx] at hpadded
      have hxc : x = c := (List.cons.inj hpadded).1
      have hdx := hdigits x (by rw [hx]; exact List.mem_cons_self)
      exact absurd (hxc ▸ ha c List.mem_cons_self) (not_space_of_digit x hdx)
  · rintro ⟨hspaces, hn⟩
    exact ⟨[], leadingDigits line, behindDigits line, hsplit, by simp, hspaces, ⟨hlead, hdigits⟩, hn⟩

theorem numberOf_line (line : List Byte) (n : Nat) (hn : n < 2 ^ 31) :
    numberOf (some (lengthValue line)) = n ↔ Padded line n := by
  rw [numberOf_eq _ n hn, padded_iff_trim]
  simp only [Option.some.injEq, exists_eq_left']

theorem numberOf_line_absent (line : List Byte) :
    numberOf (some (lengthValue line)) = -1 ↔ ∀ n < 2 ^ 31, ¬Padded line n := by
  rw [numberOf_absent]
  simp only [Option.some.injEq, exists_eq_left', reduceCtorEq, false_or, padded_iff_trim]
  constructor
  · rintro (h | h) n hn ⟨hd, hv⟩
    · exact h hd
    · omega
  · intro h
    by_contra hno
    rw [not_or, not_not, not_le] at hno
    exact h _ hno.2 ⟨hno.1, rfl⟩

/-! When the readers agree. -/

/-- The lines from the first content-length line on. -/
def fromFirst (ls : List (List Byte)) : List (List Byte) :=
  ls.dropWhile fun line => !startsWith lengthNeedle line

/-- On the lines from the first content-length line on. With a digit right behind its colon, its
leading digits are no int or have only white space behind them. Without one, the first later line that
has one has the number that stands padded on the first line, or neither has an int. -/
def OneReading : List (List Byte) → Prop
  | [] => True
  | line :: later =>
    if leads line then
      2 ^ 31 ≤ digitsValue (leadingDigits line) ∨ ∀ c ∈ behindDigits line, isSpace c
    else
      match later.find? leads with
      | none => ∀ n < 2 ^ 31, ¬Padded line n
      | some other =>
        if digitsValue (leadingDigits other) < 2 ^ 31 then
          Padded line (digitsValue (leadingDigits other))
        else ∀ n < 2 ^ 31, ¬Padded line n

theorem valueOf_fromFirst (ls : List (List Byte)) :
    valueOf lengthNeedle ls = (fromFirst ls).head?.map lengthValue := by
  rw [valueOf, List.find?_eq_head?_dropWhile_not, fromFirst]
  rfl

theorem find?_fromFirst (ls : List (List Byte)) : ls.find? leads = (fromFirst ls).find? leads := by
  induction ls with
  | nil => rfl
  | cons l ls ih =>
    rw [fromFirst]
    by_cases hs : startsWith lengthNeedle l
    · rw [List.dropWhile_cons_of_neg (by simpa using hs)]
    · rw [List.dropWhile_cons_of_pos (by simpa using hs),
        List.find?_cons_of_neg (mt (startsWith_of_leads l) hs), ih, fromFirst]

theorem fromFirst_starts (ls : List (List Byte)) (line : List Byte) (later : List (List Byte))
    (h : fromFirst ls = line :: later) : startsWith lengthNeedle line := by
  have hh := List.head?_dropWhile_not (fun l => !startsWith lengthNeedle l) ls
  rw [← fromFirst, h] at hh
  simpa using hh

/-- The numbers of the two readers are one exactly then. -/
theorem oneReading_iff (ls : List (List Byte)) :
    lengthRead ls = numberOf (valueOf lengthNeedle ls) ↔ OneReading (fromFirst ls) := by
  rw [lengthRead, find?_fromFirst, valueOf_fromFirst]
  have hstarts := fromFirst_starts ls
  generalize fromFirst ls = ls at hstarts ⊢
  cases ls with
  | nil => simp [OneReading, numberOf]
  | cons line later =>
    rw [List.head?_cons, Option.map_some, OneReading]
    by_cases hl : leads line
    · have hlead : leadingDigits line ≠ [] := by
        intro h
        simp [leads, h] at hl
      rw [List.find?_cons_of_pos hl, if_pos hl, eq_comm]
      dsimp only
      by_cases hv : digitsValue (leadingDigits line) < 2 ^ 31
      · have hno : ¬2 ^ 31 ≤ digitsValue (leadingDigits line) := by omega
        rw [orAbsent, if_pos hv, numberOf_line line _ hv, padded_leads line hlead]
        simp only [and_true, hno, false_or]
      · rw [orAbsent, if_neg hv, numberOf_line_absent]
        refine ⟨fun _ => .inl (by omega), fun _ n hn hp => ?_⟩
        have hval := ((padded_leads line hlead n).mp hp).2
        omega
    · rw [List.find?_cons_of_neg hl, if_neg hl, eq_comm]
      cases later.find? leads with
      | none => exact numberOf_line_absent line
      | some other =>
        dsimp only
        by_cases hv : digitsValue (leadingDigits other) < 2 ^ 31
        · rw [orAbsent, if_pos hv, if_pos hv, numberOf_line line _ hv]
        · rw [orAbsent, if_neg hv, if_neg hv, numberOf_line_absent]

/-- The readers of the content-length agree on exactly these blocks: the regular expression takes no
white space behind the colon, text behind the digits, and a later line when the first has no digit
there, where the search loop takes the first line and trims it. -/
theorem readersAgree_iff (jdk : Jdk) (s : Bytes) (hs : Nat) (v : BitVec 32)
    (hoff : headerOffset s = .ok hs) (hv : u32 s (i32 ((hs : Int) - 4)) = .ok v)
    (hin : hs + v.toInt ≤ s.length) :
    ReadersAgree jdk s ↔ OneReading (fromFirst (linesOf (seg s.list hs v.toNat))) := by
  have h := blockAt_found s hs v hoff hv hin
  rw [readersAgree_lines jdk s hs _ h, oneReading_iff]

theorem readersAgree_iff_pickle : ReadersAgree storedJdk ⟨lengthPickle, by decide⟩ ↔
    OneReading (fromFirst (linesOf (seg lengthPickle 8 24))) :=
  readersAgree_iff storedJdk ⟨lengthPickle, by decide⟩ 8 24#32
    (headerOffset_block ⟨lengthPickle, by decide⟩ 8 24 lengthPickle_block) (by decide) (by decide)

/-- A pickle with the lines `HTTP/1.1` and `Content-Length: 123` at offset 8. -/
def spacedPickle : Bytes :=
  ⟨bytes 4 32#32 ++ bytes 4 28#32 ++ (lit "HTTP/1.1").getBytes ++ [0#8] ++
    (lit "Content-Length: 123").getBytes, by decide⟩

theorem spacedPickle_disagrees : headerOffset spacedPickle = .ok 8 ∧
    u32 spacedPickle 4 = .ok 28#32 ∧ 8 + (28#32).toInt ≤ spacedPickle.length ∧
    contentLength spacedPickle = .ok (-1) ∧
    ∀ jdk, headerValue jdk spacedPickle lengthName = .ok (some (lit "123")) ∧
      ¬ReadersAgree jdk spacedPickle := by
  have hb : BlockAt spacedPickle.list 8 28 := by
    refine ⟨?_, by decide, by decide, by decide, by decide⟩
    exact least_of_before _ 8 (by decide) (by decide)
  have hnumber : lengthRead (linesOf (seg spacedPickle.list 8 28)) = -1 := by decide
  have htext : valueOf lengthNeedle (linesOf (seg spacedPickle.list 8 28)) = some (lit "123") := by
    decide
  have hc : contentLength spacedPickle = .ok (-1) := by
    rw [contentLength_lines spacedPickle 8 28 hb, hnumber]
  refine ⟨headerOffset_block _ 8 28 hb, by decide, by decide, hc, fun jdk => ?_⟩
  have hv : headerValue jdk spacedPickle lengthName = .ok (some (lit "123")) := by
    rw [headerValue_length jdk spacedPickle 8 28 hb, htext]
  refine ⟨hv, fun h => ?_⟩
  have hread := (h.value 123 (by decide)).mpr ⟨_, hv, by decide, by decide⟩
  rw [hc] at hread
  cases hread

end SimpleCacheTool.HttpCacheMetadata
