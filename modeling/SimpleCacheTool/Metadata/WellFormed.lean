import SimpleCacheTool.Metadata.Lens

namespace SimpleCacheTool.HttpCacheMetadata

open Fallible Segments Lines LittleEndian JString SimpleCacheFormat

/-- A pickle of whole words with a header string that a patch leaves where it is. -/
structure PickleAt (s : List Byte) (hs hlen : Nat) : Prop extends BlockAt s hs hlen where
  /-- Below 16 MiB. -/
  short : s.length < 2 ^ 24
  whole : s.length % 4 = 0
  eight : 8 ≤ hs
  aligned : hs % 4 = 0
  /-- No beginning of a status line stands before the string's length. -/
  quiet : QuietEnd (s.take (hs - 4))

/-- Stream 0 has no header block or is such a pickle. -/
def WellFormed (s : Bytes) : Prop :=
  headerOffset s = .ok (-1) ∨ ∃ hs hlen, PickleAt s.list hs hlen

/-- What a patch with any length leaves: `t` declares the encoding that `s` declares, and patches as
`s` does. -/
structure Repatched (jdk : Jdk) (s t : Bytes) : Prop where
  encoding : contentEncoding jdk t = contentEncoding jdk s
  patch : ∀ (m : Nat) (out : Bytes),
    patchContentLength jdk t m = .ok out ↔ patchContentLength jdk s m = .ok out

theorem repatched_self (jdk : Jdk) (s : Bytes) : Repatched jdk s s :=
  ⟨rfl, fun _ _ => Iff.rfl⟩

theorem encodingName_other (unicode : JString → JString) :
    OtherHeader (encodingName.toLowerCase unicode) := by
  rw [encodingName_toLowerCase]
  constructor <;> decide

/-- A decimal longer by ten digits is all that a patch can add, and its padding. -/
theorem patchedSize_le (s : List Byte) (hs hlen : Nat) (line : List Byte) (n : Nat) (hn : n < 2 ^ 31)
    (hline : startsWith lengthNeedle line) (hle : line.length ≤ hlen)
    (hroom : hs + hlen + padding (hs + hlen) ≤ s.length) :
    patchedSize s hs hlen line n ≤ s.length + 13 := by
  have h15 := startsWith_length line hline
  have hd : (digits n).length ≤ 10 := by
    rw [digits_length]
    exact ofInt_length n hn
  have hpad := padding_le (hs + (hlen - line.length + 15 + (digits n).length))
  rw [patchedSize]
  omega

theorem pickle_patch (jdk : Jdk) (s : Bytes) (hs hlen : Nat) (h : PickleAt s.list hs hlen) (n : Nat)
    (hn : n < 2 ^ 31) : ∃ t, patchContentLength jdk s n = .ok t ∧ Repatched jdk s t := by
  have hframe := frameAt_of_aligned s hs hlen h.toBlockAt h.eight h.aligned h.whole
  by_cases hline : HasLength s.list hs hlen
  · obtain ⟨line, hf⟩ := hasLength_find s.list hs hlen hline
    have hle := line_length_le _ line (List.mem_of_find?_eq_some hf)
    rw [seg_length s.list hs hlen h.inside] at hle
    have hsize := patchedSize_le s.list hs hlen line n hn (List.find?_some hf) hle hframe.room
    rw [← patched_length s.list hs hlen h.four hframe.room line n hf] at hsize
    have hshort := h.short
    have hfit : PatchFits s.list hs hlen n := ⟨hframe.room, by omega⟩
    have hsmall : (patched s.list hs hlen n).length < quietSize := by
      unfold quietSize
      omega
    have hbout := patched_blockAt s.list hs hlen hframe hline h.quiet n hsmall
    refine ⟨_, patchContentLength_fits jdk s n hs hlen h.toBlockAt hline hfit, ?_, ?_⟩
    · have hv := headerValue_patched jdk s ⟨_, hfit.2⟩ n hs hlen hframe rfl hbout encodingName
        (encodingName_other jdk.toLowerCase)
      rw [contentEncoding, contentEncoding]
      change (headerValue jdk _ encodingName >>= _) = (headerValue jdk _ encodingName >>= _)
      rw [hv]
    · exact patch_patched jdk s ⟨_, hfit.2⟩ n hs hlen hframe rfl hbout hline
  · exact ⟨s, patchContentLength_noLine jdk s n hs hlen h.toBlockAt hline, repatched_self jdk s⟩

/-- A well-formed stream 0 takes any patch, and the patch leaves it as good as it was. -/
theorem wellFormed_patch (jdk : Jdk) (s : Bytes) (h : WellFormed s) (n : Nat) (hn : n < 2 ^ 31) :
    ∃ t, patchContentLength jdk s n = .ok t ∧ Repatched jdk s t := by
  rcases h with h | ⟨hs, hlen, h⟩
  · exact ⟨s, patchContentLength_absent jdk s n h, repatched_self jdk s⟩
  · exact pickle_patch jdk s hs hlen h n hn

/-- The encoding of a well-formed stream 0 can be looked up. -/
theorem wellFormed_encoding (jdk : Jdk) (s : Bytes) (h : WellFormed s) :
    ∃ encoding, contentEncoding jdk s = .ok encoding := by
  rcases h with h | ⟨hs, hlen, h⟩
  · exact ⟨_, contentEncoding_none jdk s (headerBlock_absent s h)⟩
  · exact ⟨_, contentEncoding_lines jdk s _ (headerBlock_block s hs hlen h.toBlockAt)⟩

end SimpleCacheTool.HttpCacheMetadata
