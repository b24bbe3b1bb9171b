import SimpleCacheTool.Metadata.Lens

namespace SimpleCacheTool.HttpCacheMetadata

open Fallible Segments Lines LittleEndian JString SimpleCacheFormat

/-- Inside a block, a header of any name is looked up without an exception. -/
theorem headerValue_ok (jdk : Jdk) (s : Bytes) (block : List Byte) (name : JString)
    (hb : headerBlock s = .ok (some (latin1 block))) : ∃ v, headerValue jdk s name = .ok v := by
  have hn : name.toLowerCase jdk.toLowerCase ++ lit ":" ≠ [] := by simp [lit]
  rw [headerValue, hb, ok_bind]
  generalize name.toLowerCase jdk.toLowerCase ++ lit ":" = needle at hn ⊢
  rcases findLine_spec jdk block needle hn with ⟨i, hi, hf⟩ | ⟨-, hf⟩
  · -- the needle lies inside the block, and so does the end of its line
    have ho := occurs_length needle _ i hn (stands_occurs needle block i hi.1)
    rw [List.length_map] at ho
    have hend := lineEnd_bounds block (i + needle.length) ho
    simp only [hf, ok_bind]
    rw [substring_latin1 block _ _ hend, ok_bind]
    exact ⟨_, rfl⟩
  · simp only [hf, ok_bind]
    exact ⟨_, rfl⟩

theorem contentLength_ok (s : Bytes) (b : Option JString) (hb : headerBlock s = .ok b) :
    ∃ v, contentLength s = .ok v := by
  rw [contentLength, hb, ok_bind]
  cases b with
  | none => exact ⟨_, rfl⟩
  | some block =>
    cases hf : findContentLength block with
    | none => simp only [hf]; exact ⟨_, rfl⟩
    | some group => simp only [hf]; exact ⟨_, rfl⟩

/-- Every helper returns, and the block that `headerOffset` finds lies inside stream 0, with the
padding a patch skips. -/
def HelpersReturn (jdk : Jdk) (s : Bytes) (n : Int) : Prop :=
  (∃ v, contentLength s = .ok v) ∧ (∀ name, ∃ v, headerValue jdk s name = .ok v) ∧
  (∃ v, contentEncoding jdk s = .ok v) ∧ (∃ v, patchContentLength jdk s n = .ok v) ∧
  ∀ (hs : Nat) (hlen : BitVec 32), headerOffset s = .ok hs → u32 s ((hs : Int) - 4) = .ok hlen →
    0 < hlen.toInt ∧ hs + hlen.toInt ≤ s.length ∧ (HasLength s.list hs hlen.toNat →
      hs + hlen.toNat + padding (hs + hlen.toNat) ≤ s.length)

/-- The stream 0 on which the helpers return. -/
structure Harmless (s : Bytes) (n : Int) : Prop where
  /-- The search ends before its bound wraps. -/
  search : (∃ hs, StatusLineAt s.list hs) ∨ s.length + 1 < 2 ^ 31
  /-- A block's end is an int. -/
  block_end : BlockEnds s.list
  /-- The padding of a block to be patched is there, and the result fits an array. -/
  room : ∀ hs hlen, BlockAt s.list hs hlen → ∀ line,
    (linesOf (seg s.list hs hlen)).find? (startsWith lengthNeedle) = some line →
    hs + hlen + padding (hs + hlen) ≤ s.length ∧ patchedSize s.list hs hlen line n < 2 ^ 31

/-- Without a block nothing is done. -/
theorem helpersReturn_absent (jdk : Jdk) (s : Bytes) (n : Int) (h : headerOffset s = .ok (-1)) :
    HelpersReturn jdk s n := by
  have hb := headerBlock_absent s h
  refine ⟨contentLength_ok s none hb, fun name => ?_, ⟨_, contentEncoding_none jdk s hb⟩,
    ⟨_, patchContentLength_absent jdk s n h⟩, fun hs hlen ho => ?_⟩
  · rw [headerValue, hb, ok_bind]
    exact ⟨_, rfl⟩
  · rw [h] at ho
    have he := Except.ok.inj ho
    omega

/-- A block with a content-length line: its patch returns when there is room. -/
theorem patch_returns_iff (jdk : Jdk) (s : Bytes) (n : Int) (hs hlen : Nat)
    (h : BlockAt s.list hs hlen) : (∃ v, patchContentLength jdk s n = .ok v) ↔
      ∀ line, (linesOf (seg s.list hs hlen)).find? (startsWith lengthNeedle) = some line →
        hs + hlen + padding (hs + hlen) ≤ s.length ∧ patchedSize s.list hs hlen line n < 2 ^ 31 := by
  rcases find?_split (startsWith lengthNeedle) (linesOf (seg s.list hs hlen)) with
    hnone | ⟨pre, line, post, hsplit, hpre, hline, hf⟩
  · refine ⟨fun _ line hf => ?_, fun _ => ⟨s, patchContentLength_noLine jdk s n hs hlen h ?_⟩⟩
    · exact absurd (List.find?_some hf) (hnone line (List.mem_of_find?_eq_some hf))
    · rintro ⟨l, hl, hw⟩
      exact hnone l hl hw
  · have hhas := hasLength_of_split s.list hs hlen pre line post hsplit hline
    have hfits : PatchFits s.list hs hlen n ↔ hs + hlen + padding (hs + hlen) ≤ s.length ∧
        patchedSize s.list hs hlen line n < 2 ^ 31 := by
      apply and_congr_right
      intro hroom
      rw [patched_length s.list hs hlen h.four hroom line n hf]
    rw [hf]
    constructor
    · rintro ⟨v, hv⟩ line' he
      obtain rfl := Option.some.inj he
      by_contra hbig
      obtain ⟨x, hx⟩ := patchContentLength_throws jdk s n hs hlen h hhas (mt hfits.mp hbig)
      rw [hx] at hv
      cases hv
    · intro hroom
      exact ⟨_, patchContentLength_fits jdk s n hs hlen h hhas (hfits.mpr (hroom line rfl))⟩

/-- In a block only the patch can fail. -/
theorem helpersReturn_block (jdk : Jdk) (s : Bytes) (n : Int) (hs hlen : Nat)
    (h : BlockAt s.list hs hlen) :
    HelpersReturn jdk s n ↔ ∃ v, patchContentLength jdk s n = .ok v := by
  refine ⟨fun hr => hr.2.2.2.1, ?_⟩
  intro hp
  have hblock := headerBlock_block s hs hlen h
  refine ⟨contentLength_ok s _ hblock, fun name => headerValue_ok jdk s _ name hblock,
    ⟨_, contentEncoding_lines jdk s _ hblock⟩, hp, fun hs' v ho hu => ?_⟩
  have hin := h.inside
  have hpos := h.pos
  have h4 := h.four
  have hlt := s.length_lt'
  have he : s.length = s.list.length := rfl
  rw [headerOffset_block s hs hlen h] at ho
  obtain rfl : hs = hs' := Int.natCast_inj.mp (Except.ok.inj ho)
  obtain ⟨w, hw, hwi⟩ := blockAt_u32 s hs hlen h
  rw [i32_of_range _ (by omega) (by omega), hu] at hw
  obtain rfl := Except.ok.inj hw
  have hv : v.toNat = hlen := by
    have hn := toInt32_of_nonneg v (by omega)
    omega
  rw [hwi, hv]
  refine ⟨by omega, by omega, ?_⟩
  intro hline
  obtain ⟨line, hf⟩ := hasLength_find s.list hs hlen hline
  exact ((patch_returns_iff jdk s n hs hlen h).mp hp line hf).1

/-- The helpers return on the harmless streams and on no others. -/
theorem helpersReturn_iff (jdk : Jdk) (s : Bytes) (n : Int) :
    HelpersReturn jdk s n ↔ Harmless s n := by
  rcases statusLine_or_none s.list with ⟨hs, hat⟩ | hnone
  · have hstatus := statusLine_length s.list hs hat
    have hsame : ∀ hs', StatusLineAt s.list hs' → hs' = hs := fun hs' h' => h'.unique hat
    by_cases hend : BlockEnds s.list
    · by_cases hblock : ∃ hlen, BlockAt s.list hs hlen
      · obtain ⟨hlen, h⟩ := hblock
        rw [helpersReturn_block jdk s n hs hlen h, patch_returns_iff jdk s n hs hlen h]
        constructor
        · intro hroom
          refine ⟨.inl ⟨hs, hat⟩, hend, ?_⟩
          intro hs' hlen' h'
          obtain rfl := hsame hs' h'.status
          obtain rfl : hlen = hlen' := h.length.symm.trans h'.length
          exact hroom
        · exact fun hr => hr.room hs hlen h
      · have habsent := (block_or_absent s hs hat hend).resolve_right hblock
        refine ⟨fun _ => ⟨.inl ⟨hs, hat⟩, hend, fun hs' hlen' h' => ?_⟩,
          fun _ => helpersReturn_absent jdk s n habsent⟩
        obtain rfl := hsame hs' h'.status
        exact absurd ⟨hlen', h'⟩ hblock
    · constructor
      · rintro ⟨⟨v, hv⟩, -⟩
        rw [BlockEnds] at hend
        push Not at hend
        obtain ⟨hs', h', h4, -, hbig⟩ := hend
        rw [contentLength, headerBlock_overflow s hs' h' h4 hbig, error_bind] at hv
        cases hv
      · exact fun hr => absurd hr.block_end hend
  · constructor
    · rintro ⟨⟨v, hv⟩, -⟩
      refine ⟨.inr ?_, fun hs h => absurd h.1 (hnone hs), fun hs _ h => absurd h.status.1 (hnone hs)⟩
      by_contra hfull
      have hl := s.length_lt'
      have hb : headerBlock s = .error .arrayIndexOutOfBounds := by
        rw [headerBlock, headerOffset, if_neg (by omega), indexOf_http_wrapped s (by omega) hnone,
          error_bind, error_bind]
      rw [contentLength, hb, error_bind] at hv
      cases hv
    · intro hr
      have hl : s.length + 1 < 2 ^ 31 := by
        rcases hr.search with ⟨hs, h⟩ | h
        · exact absurd h.1 (hnone hs)
        · exact h
      apply helpersReturn_absent
      rcases headerOffset_spec s hl with h | ⟨hs, h, -⟩
      · exact h
      · exact absurd h.1 (hnone hs)

/-- A status line whose length field holds the greatest int. -/
def overlongBlock : Bytes := ⟨bytes 4 0x7fffffff#32 ++ (lit "HTTP/1.").getBytes, by decide⟩

theorem overlongBlock_throws : ¬HelpersReturn storedJdk overlongBlock 0 := by
  rintro ⟨⟨v, hv⟩, -⟩
  have hat : StatusLineAt overlongBlock.list 4 := least_of_before _ 4 (by decide) (by decide)
  rw [contentLength, headerBlock_overflow overlongBlock 4 hat (by decide) (by decide), error_bind] at hv
  cases hv

end SimpleCacheTool.HttpCacheMetadata
