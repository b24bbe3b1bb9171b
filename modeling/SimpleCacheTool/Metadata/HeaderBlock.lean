import SimpleCacheTool.Metadata.HeaderLines

namespace SimpleCacheTool.HttpCacheMetadata

open Fallible Segments Lines SimpleCacheFormat

theorem matchesAt_in (haystack : Bytes) (i : Nat) (n : List Byte) (j : Nat)
    (h : i + j + n.length ≤ haystack.length) :
    matchesAt haystack i n j = .ok (decide (n <+: haystack.list.drop (i + j))) := by
  have hb := haystack.length_lt'
  induction n generalizing j with
  | nil => simp [matchesAt]
  | cons x n ih =>
    rw [List.length_cons] at h
    have hl : i + j < haystack.list.length := by
      have he : haystack.length = haystack.list.length := rfl
      omega
    have hnext := ih (j + 1) (by omega)
    have hi : i32 ((i : Int) + j) = ((i + j : Nat) : Int) := i32_nat _ _ (by omega) (by omega)
    have hp : x :: n <+: haystack.list.drop (i + j) ↔
        haystack.list[i + j] = x ∧ n <+: haystack.list.drop (i + (j + 1)) := by
      rw [List.drop_eq_getElem_cons hl, List.cons_prefix_cons, eq_comm, Nat.add_assoc]
    rw [matchesAt, hi, haystack.get_of_lt _ (i + j) rfl hl, ok_bind]
    by_cases hx : haystack.list[i + j] = x
    · rw [if_neg (not_not.mpr hx)]
      change matchesAt haystack i n ((j + 1 : Nat) : Int) = _
      simp only [hnext, hp, hx, true_and]
    · rw [if_pos hx]
      simp only [hp, hx, false_and, decide_false]

theorem matchesAt_decide (haystack : Bytes) (i : Nat) (n : List Byte)
    (h : i + n.length ≤ haystack.length) :
    matchesAt haystack i n 0 = .ok (decide (n <+: haystack.list.drop i)) := by
  have hm := matchesAt_in haystack i n 0 h
  rwa [Nat.cast_zero, Nat.add_zero] at hm

/-- The search stops at the first occurrence; up to there the index sums stay ints. -/
theorem indexOfLoop_found (haystack : Bytes) (n : List Byte) (k : Nat)
    (hk : k + n.length ≤ haystack.length) (ho : n <+: haystack.list.drop k) (rounds i : Nat)
    (hik : i ≤ k) (hr : k < rounds + i) (hbefore : ∀ j, i ≤ j → j < k → ¬n <+: haystack.list.drop j) :
    indexOfLoop haystack n rounds i = .ok k := by
  have hb := haystack.length_lt'
  induction rounds generalizing i with
  | zero => omega
  | succ rounds ih =>
    have hsum : i32 ((i : Int) + n.length) = ((i + n.length : Nat) : Int) :=
      i32_nat _ _ (by omega) (by omega)
    rw [indexOfLoop, hsum, if_pos (by omega), matchesAt_decide haystack i n (by omega), ok_bind]
    by_cases hi : i = k
    · subst hi
      rw [if_pos (by simpa using ho)]
    · have hnext : i32 ((i : Int) + 1) = ((i + 1 : Nat) : Int) := i32_nat _ _ (by omega) (by omega)
      rw [if_neg (by simpa using hbefore i (Nat.le_refl i) (by omega)), hnext]
      exact ih (i + 1) (by omega) (by omega) fun j hj => hbefore j (by omega)

theorem indexOfLoop_none (haystack : Bytes) (n : List Byte) (hb : haystack.length + 1 < 2 ^ 31)
    (hn : n.length < 2 ^ 31) (hnone : ∀ j, ¬n <+: haystack.list.drop j) (rounds i : Nat)
    (hi : i = 0 ∨ i + n.length ≤ haystack.length + 1) :
    indexOfLoop haystack n rounds i = .ok (-1) := by
  induction rounds generalizing i with
  | zero => rfl
  | succ rounds ih =>
    have hsum : i32 ((i : Int) + n.length) = ((i + n.length : Nat) : Int) :=
      i32_nat _ _ (by omega) (by omega)
    rw [indexOfLoop, hsum]
    by_cases hin : i + n.length ≤ haystack.length
    · have hnext : i32 ((i : Int) + 1) = ((i + 1 : Nat) : Int) := i32_nat _ _ (by omega) (by omega)
      rw [if_pos (by omega), matchesAt_decide haystack i n hin, ok_bind,
        if_neg (by simpa using hnone i), hnext]
      exact ih (i + 1) (by omega)
    · rw [if_neg (by omega)]

/-- A match that would reach beyond the array fails inside it or at its end. -/
theorem matchesAt_beyond (haystack : Bytes) (i : Nat) (n : List Byte) (j : Nat)
    (hij : i + j ≤ haystack.length) (h : haystack.length < i + j + n.length) :
    matchesAt haystack i n j = .ok false ∨
      matchesAt haystack i n j = .error .arrayIndexOutOfBounds := by
  have hb := haystack.length_lt'
  induction n generalizing j with
  | nil => simp at h; omega
  | cons x n ih =>
    have hi : i32 ((i : Int) + j) = ((i + j : Nat) : Int) := i32_nat _ _ (by omega) (by omega)
    rw [matchesAt, hi]
    by_cases hl : i + j < haystack.list.length
    · rw [haystack.get_of_lt _ (i + j) rfl hl, ok_bind]
      split_ifs
      · exact .inl rfl
      · rw [List.length_cons] at h
        have he : haystack.length = haystack.list.length := rfl
        exact_mod_cast ih (j + 1) (by omega) (by omega)
    · have he : haystack.length = haystack.list.length := rfl
      rw [haystack.get_out _ (by omega), error_bind]
      exact .inr rfl

/-- In an array of the greatest length the bound of the loop wraps, and a search that finds nothing
runs off the end. -/
theorem indexOfLoop_wrapped (haystack : Bytes) (n : List Byte) (hb : haystack.length + 1 = 2 ^ 31)
    (hne : n ≠ []) (hn : n.length < 2 ^ 31) (hnone : ∀ j, ¬n <+: haystack.list.drop j) (rounds i : Nat)
    (hi : i ≤ haystack.length) (hr : haystack.length < rounds + i) :
    indexOfLoop haystack n rounds i = .error .arrayIndexOutOfBounds := by
  have hlen := List.length_pos_of_ne_nil hne
  induction rounds generalizing i with
  | zero => omega
  | succ rounds ih =>
    have hcond : i32 ((i : Int) + n.length) ≤ haystack.length := by
      unfold i32
      omega
    have hrest : matchesAt haystack i n 0 = .ok false ∧ i < haystack.length ∨
        matchesAt haystack i n 0 = .error .arrayIndexOutOfBounds := by
      by_cases hin : i + n.length ≤ haystack.length
      · rw [matchesAt_decide haystack i n hin]
        exact .inl ⟨by simpa using hnone i, by omega⟩
      · by_cases hlast : i < haystack.length
        · rcases matchesAt_beyond haystack i n 0 hi (by omega) with h | h
          · exact .inl ⟨by exact_mod_cast h, hlast⟩
          · exact .inr (by exact_mod_cast h)
        · obtain ⟨x, rest, rfl⟩ := List.exists_cons_of_ne_nil hne
          have hi0 : i32 ((i : Int) + 0) = (i : Int) := by
            rw [Int.add_zero, i32_of_range _ (by omega) (by omega)]
          rw [matchesAt, hi0, haystack.get_out _ (by omega), error_bind]
          exact .inr rfl
    rw [indexOfLoop, if_pos hcond]
    rcases hrest with ⟨h, hlt⟩ | h
    · have hnext : i32 ((i : Int) + 1) = ((i + 1 : Nat) : Int) := i32_nat _ _ (by omega) (by omega)
      rw [h, ok_bind, if_neg (by decide), hnext]
      exact ih (i + 1) (by omega) (by omega)
    · rw [h, error_bind]

/-- `"HTTP/1."` -/
def httpBytes : List Byte := (JString.lit "HTTP/1.").getBytes

/-- The first status line of stream 0. -/
def StatusLineAt (s : List Byte) (hs : Nat) : Prop := IsLeast {j | httpBytes <+: s.drop j} hs

theorem statusLine_length (s : List Byte) (hs : Nat) (h : StatusLineAt s hs) : hs + 7 ≤ s.length :=
  occurs_length httpBytes s hs (by decide) h.1

theorem indexOf_http (s : Bytes) (hs : Nat) (h : StatusLineAt s.list hs) :
    indexOf s (JString.lit "HTTP/1.") 0 = .ok hs := by
  have hlen := statusLine_length s.list hs h
  have he : s.length = s.list.length := rfl
  refine indexOfLoop_found s httpBytes hs hlen h.1 (s.length + 1) 0 (Nat.zero_le hs) (by omega) ?_
  intro j _ hj ho
  have hle := h.2 ho
  omega

theorem indexOf_http_none (s : Bytes) (hl : s.length + 1 < 2 ^ 31)
    (h : ∀ j, ¬httpBytes <+: s.list.drop j) : indexOf s (JString.lit "HTTP/1.") 0 = .ok (-1) :=
  indexOfLoop_none s httpBytes hl (by decide) h _ 0 (.inl rfl)

theorem indexOf_http_wrapped (s : Bytes) (hl : s.length + 1 = 2 ^ 31)
    (h : ∀ j, ¬httpBytes <+: s.list.drop j) :
    indexOf s (JString.lit "HTTP/1.") 0 = .error .arrayIndexOutOfBounds :=
  indexOfLoop_wrapped s httpBytes hl (by decide) (by decide) h _ 0 (Nat.zero_le _) (by omega)

theorem statusLine_or_none (s : List Byte) :
    (∃ hs, StatusLineAt s hs) ∨ ∀ j, ¬httpBytes <+: s.drop j :=
  least_or_none fun j => httpBytes <+: s.drop j

/-- Behind the search, `headerOffset` looks at the length word and compares the end as an int. -/
theorem headerOffset_eq (s : Bytes) (hs : Nat) (h : StatusLineAt s.list hs) :
    headerOffset s = .ok (if 4 ≤ hs ∧ 0 < (wordAt 32 s.list (hs - 4)).toInt ∧
      i32 (hs + (wordAt 32 s.list (hs - 4)).toInt) ≤ s.length then hs else -1) := by
  have hlen := statusLine_length s.list hs h
  have he : s.length = s.list.length := rfl
  have hb := s.length_lt'
  rw [headerOffset]
  by_cases h4 : 4 ≤ hs
  · have hoff : i32 ((hs : Int) - 4) = ((hs - 4 : Nat) : Int) := i32_nat _ _ (by omega) (by omega)
    rw [if_neg (by omega), indexOf_http s hs h, ok_bind, if_neg (by omega), hoff,
      u32_in s (hs - 4) (by omega), ok_bind]
    split_ifs with hc hr hr
    · omega
    · rfl
    · rfl
    · omega
  · have hno : ¬(4 ≤ hs ∧ 0 < (wordAt 32 s.list (hs - 4)).toInt ∧
        i32 (hs + (wordAt 32 s.list (hs - 4)).toInt) ≤ s.length) := fun hr => h4 hr.1
    rw [if_neg hno]
    split_ifs
    · rfl
    · rw [indexOf_http s hs h, ok_bind, if_pos (by omega)]

theorem headerOffset_status (s : Bytes) (hs : Nat) (h : StatusLineAt s.list hs) :
    headerOffset s = .ok (-1) ∨
      4 ≤ hs ∧ 0 < (wordAt 32 s.list (hs - 4)).toInt ∧ headerOffset s = .ok hs := by
  rw [headerOffset_eq s hs h]
  split_ifs with hr
  · exact .inr ⟨hr.1, hr.2.1, rfl⟩
  · exact .inl rfl

/-- `headerOffset` throws on no array but those of the greatest length. -/
theorem headerOffset_spec (s : Bytes) (hl : s.length + 1 < 2 ^ 31) :
    headerOffset s = .ok (-1) ∨ ∃ hs : Nat, StatusLineAt s.list hs ∧ 4 ≤ hs ∧
      0 < (wordAt 32 s.list (hs - 4)).toInt ∧ headerOffset s = .ok hs := by
  rcases statusLine_or_none s.list with ⟨hs, hat⟩ | hnone
  · rcases headerOffset_status s hs hat with h | ⟨h4, hpos, h⟩
    · exact .inl h
    · exact .inr ⟨hs, hat, h4, hpos, h⟩
  · refine .inl ?_
    rw [headerOffset]
    split_ifs
    · rfl
    · rw [indexOf_http_none s hl hnone, ok_bind, if_pos (by decide)]

/-- Where stream 0 holds a header block. -/
structure BlockAt (s : List Byte) (hs hlen : Nat) : Prop where
  status : StatusLineAt s hs
  four : 4 ≤ hs
  length : (wordAt 32 s (hs - 4)).toNat = hlen
  pos : 0 < hlen
  inside : hs + hlen ≤ s.length

/-- What follows does not move the block. -/
theorem blockAt_append (s post : List Byte) (hs hlen : Nat) (h : BlockAt s hs hlen) :
    BlockAt (s ++ post) hs hlen := by
  have hl := statusLine_length s hs h.status
  have h4 := h.four
  have hin := h.inside
  have h7 : httpBytes.length = 7 := by decide
  refine ⟨⟨(occurs_append_left httpBytes s post hs (by omega)).mpr h.status.1, ?_⟩, h4, ?_, h.pos, ?_⟩
  · intro j hj
    by_contra hlt
    have hj : httpBytes <+: (s ++ post).drop j := hj
    rw [occurs_append_left httpBytes s post j (by omega)] at hj
    exact hlt (h.status.2 hj)
  · rw [wordAt, seg_append_left s post _ _ (by omega)]
    exact h.length
  · rw [List.length_append]
    omega

theorem blockAt_u32 (s : Bytes) (hs hlen : Nat) (h : BlockAt s.list hs hlen) :
    ∃ v : BitVec 32, u32 s (i32 ((hs : Int) - 4)) = .ok v ∧ v.toInt = hlen := by
  have hin := h.inside
  have hl := s.length_lt
  have h4 := h.four
  have he : s.length = s.list.length := rfl
  have hstatus := statusLine_length s.list hs h.status
  have hoff : i32 ((hs : Int) - 4) = ((hs - 4 : Nat) : Int) := i32_nat _ _ (by omega) (by omega)
  refine ⟨_, by rw [hoff, u32_in s (hs - 4) (by omega)], ?_⟩
  rw [BitVec.toInt_eq_toNat_cond, h.length, if_pos (by omega)]

theorem headerOffset_block (s : Bytes) (hs hlen : Nat) (h : BlockAt s.list hs hlen) :
    headerOffset s = .ok hs := by
  have hstatus := statusLine_length s.list hs h.status
  have he : s.length = s.list.length := rfl
  have hb := s.length_lt'
  have hin := h.inside
  have hpos := h.pos
  have h4 := h.four
  obtain ⟨v, hv, hvi⟩ := blockAt_u32 s hs hlen h
  have hsum : i32 ((hs : Int) + hlen) = ((hs + hlen : Nat) : Int) := i32_nat _ _ (by omega) (by omega)
  rw [headerOffset, if_neg (by omega), indexOf_http s hs h.status, ok_bind, if_neg (by omega), hv,
    ok_bind, hvi, hsum, if_neg (by omega)]

theorem newString_in (s : Bytes) (off len : Nat) (h : off + len ≤ s.length) :
    newString s off len = .ok (JString.latin1 (seg s.list off len)) := by
  rw [newString, if_neg (by omega)]
  rfl

theorem headerBlock_block (s : Bytes) (hs hlen : Nat) (h : BlockAt s.list hs hlen) :
    headerBlock s = .ok (some (JString.latin1 (seg s.list hs hlen))) := by
  obtain ⟨v, hv, hvi⟩ := blockAt_u32 s hs hlen h
  rw [headerBlock, headerOffset_block s hs hlen h, ok_bind, if_neg (by omega), hv, ok_bind, hvi,
    newString_in s hs hlen h.inside, ok_bind]

/-- The end of the header block, by the length stored before it, is an int. -/
def BlockEnds (s : List Byte) : Prop :=
  ∀ hs, StatusLineAt s hs → 4 ≤ hs → 0 < (wordAt 32 s (hs - 4)).toInt →
    hs + (wordAt 32 s (hs - 4)).toInt < 2 ^ 31

/-- Then what `headerOffset` finds is a block. -/
theorem block_or_absent (s : Bytes) (hs : Nat) (hat : StatusLineAt s.list hs)
    (hend : BlockEnds s.list) : headerOffset s = .ok (-1) ∨ ∃ hlen, BlockAt s.list hs hlen := by
  rw [headerOffset_eq s hs hat]
  split_ifs with hr
  · obtain ⟨h4, hpos, hle⟩ := hr
    have hn := toInt32_of_nonneg _ hpos.le
    have hlt := hend hs hat h4 hpos
    have he : s.length = s.list.length := rfl
    rw [i32_of_range _ (by omega) (by omega)] at hle
    exact .inr ⟨(wordAt 32 s.list (hs - 4)).toNat, hat, h4, rfl, by omega, by omega⟩
  · exact .inl rfl

/-- What `headerOffset` finds is a block when its end, not wrapped, is inside the array. -/
theorem blockAt_found (s : Bytes) (hs : Nat) (v : BitVec 32) (hoff : headerOffset s = .ok hs)
    (hv : u32 s (i32 ((hs : Int) - 4)) = .ok v) (hin : hs + v.toInt ≤ s.length) :
    BlockAt s.list hs v.toNat := by
  have hlt := s.length_lt'
  have he : s.length = s.list.length := rfl
  rcases statusLine_or_none s.list with ⟨k, hat⟩ | hnone
  · have heq := headerOffset_eq s k hat
    rw [hoff] at heq
    split_ifs at heq with hr
    · obtain rfl : hs = k := by exact_mod_cast Except.ok.inj heq
      have hlen := statusLine_length s.list hs hat
      obtain ⟨h4, hpos, -⟩ := hr
      have hoff4 : i32 ((hs : Int) - 4) = ((hs - 4 : Nat) : Int) := i32_nat _ _ (by omega) (by omega)
      rw [hoff4, u32_in s (hs - 4) (by omega)] at hv
      obtain rfl := Except.ok.inj hv
      have hn := toInt32_of_nonneg _ hpos.le
      exact ⟨hat, h4, rfl, by omega, by omega⟩
    · have hneg : (hs : Int) = -1 := Except.ok.inj heq
      omega
  · -- without a status line the search ends with -1, or runs off a longest array
    rw [headerOffset] at hoff
    by_cases h8 : s.length < 8
    · rw [if_pos h8] at hoff
      have hneg : (-1 : Int) = hs := Except.ok.inj hoff
      omega
    · rw [if_neg h8] at hoff
      by_cases hlast : s.length + 1 < 2 ^ 31
      · rw [indexOf_http_none s hlast hnone, ok_bind, if_pos (by decide)] at hoff
        have hneg : (-1 : Int) = hs := Except.ok.inj hoff
        omega
      · rw [indexOf_http_wrapped s (by omega) hnone, error_bind] at hoff
        cases hoff

/-- A length that overflows when it is added to the offset passes as inside, and the block cannot be
cut out. -/
theorem headerBlock_overflow (s : Bytes) (hs : Nat) (h : StatusLineAt s.list hs) (h4 : 4 ≤ hs)
    (hbig : 2 ^ 31 ≤ hs + (wordAt 32 s.list (hs - 4)).toInt) :
    headerBlock s = .error .stringIndexOutOfBounds := by
  have hlen := statusLine_length s.list hs h
  have he : s.length = s.list.length := rfl
  have hlt := s.length_lt'
  have hr := toInt32_range (wordAt 32 s.list (hs - 4))
  have hoff : i32 ((hs : Int) - 4) = ((hs - 4 : Nat) : Int) := i32_nat _ _ (by omega) (by omega)
  have hwrap : i32 (hs + (wordAt 32 s.list (hs - 4)).toInt) ≤ s.length := by
    unfold i32
    omega
  rw [headerBlock, headerOffset_eq s hs h, if_pos ⟨h4, by omega, hwrap⟩, ok_bind, if_neg (by omega),
    hoff, u32_in s (hs - 4) (by omega), ok_bind, newString, if_pos (by omega), error_bind]

theorem headerBlock_absent (s : Bytes) (h : headerOffset s = .ok (-1)) :
    headerBlock s = .ok none := by
  rw [headerBlock, h, ok_bind, if_pos (by decide)]

/-- Looking up a header throws exactly when the block's end is no int. -/
theorem headerBlock_ends (s : Bytes) (hl : s.length + 1 < 2 ^ 31) :
    (BlockEnds s.list ∧ ∃ b : Option (List Byte), headerBlock s = .ok (b.map JString.latin1)) ∨
    (¬BlockEnds s.list ∧ headerBlock s = .error .stringIndexOutOfBounds) := by
  by_cases hend : BlockEnds s.list
  · refine .inl ⟨hend, ?_⟩
    rcases headerOffset_spec s hl with h | ⟨hs, hat, -⟩
    · exact ⟨none, headerBlock_absent s h⟩
    · rcases block_or_absent s hs hat hend with h | ⟨hlen, h⟩
      · exact ⟨none, headerBlock_absent s h⟩
      · exact ⟨some _, headerBlock_block s hs hlen h⟩
  · refine .inr ⟨hend, ?_⟩
    rw [BlockEnds] at hend
    push Not at hend
    obtain ⟨hs, hat, h4, -, hbig⟩ := hend
    exact headerBlock_overflow s hs hat h4 hbig

def encodingName : JString := JString.lit "content-encoding"

theorem encodingName_toLowerCase (unicode : JString → JString) :
    encodingName.toLowerCase unicode = encodingName := by
  rw [JString.toLowerCase_latin1 unicode encodingName (by decide)]
  decide

def encodingNeedle : JString := JString.lit "content-encoding:"

theorem headerValue_encoding (jdk : Jdk) (s : Bytes) (block : List Byte)
    (hb : headerBlock s = .ok (some (JString.latin1 block))) :
    headerValue jdk s encodingName = .ok (valueOf encodingNeedle (linesOf block)) := by
  have hn : encodingName.toLowerCase jdk.toLowerCase ++ JString.lit ":" = encodingNeedle := by
    rw [encodingName_toLowerCase]
    simp [encodingName, encodingNeedle, JString.lit]
  have h := headerValue_lines jdk s encodingName block hb (by
    rw [hn]
    simp [encodingNeedle, JString.lit])
  rwa [hn] at h

/-- The content-encoding of a header block's lines; an empty one is none. -/
def encodingOf (ls : List (List Byte)) : Option JString :=
  (valueOf encodingNeedle ls).filter fun v => !v.isEmpty

theorem contentEncoding_lines (jdk : Jdk) (s : Bytes) (block : List Byte)
    (hb : headerBlock s = .ok (some (JString.latin1 block))) :
    contentEncoding jdk s = .ok (encodingOf (linesOf block)) := by
  have h := headerValue_encoding jdk s block hb
  rw [contentEncoding]
  change (headerValue jdk s encodingName >>= _) = _
  rw [h, ok_bind, encodingOf]
  cases valueOf encodingNeedle (linesOf block) with
  | none => rfl
  | some v => cases v <;> rfl

theorem contentEncoding_none (jdk : Jdk) (s : Bytes) (hb : headerBlock s = .ok none) :
    contentEncoding jdk s = .ok none := by
  rw [contentEncoding, headerValue, hb, ok_bind, ok_bind]

/-- `contentEncoding` fails on no stream 0 but those whose block's end is no int. -/
theorem contentEncoding_ends (jdk : Jdk) (s : Bytes) (hl : s.length + 1 < 2 ^ 31) :
    (BlockEnds s.list ∧ ∃ encoding, contentEncoding jdk s = .ok encoding) ∨
    (¬BlockEnds s.list ∧ contentEncoding jdk s = .error .stringIndexOutOfBounds) := by
  rcases headerBlock_ends s hl with ⟨hin, b, hb⟩ | ⟨hout, hb⟩
  · refine .inl ⟨hin, ?_⟩
    cases b with
    | none => exact ⟨_, contentEncoding_none jdk s hb⟩
    | some block => exact ⟨_, contentEncoding_lines jdk s block hb⟩
  · refine .inr ⟨hout, ?_⟩
    rw [contentEncoding, headerValue, hb, error_bind, error_bind]

end SimpleCacheTool.HttpCacheMetadata
