import SimpleCacheTool.Format.AsciiText
import SimpleCacheTool.Metadata.Lens

namespace SimpleCacheTool.HttpCacheMetadata

open Fallible Segments Lines JString SimpleCacheFormat

/-- The `while` loop from an `idx` on ends, with another; -1 is `none`. -/
inductive LoopEnds (block lower needle : JString) : Option Nat → Option Nat → Prop
  | absent : LoopEnds block lower needle none none
  | front : LoopEnds block lower needle (some 0) (some 0)
  | line (idx : Nat) (h0 : 0 < idx) (hc : block.charAt (idx - 1) = .ok 0#16) :
    LoopEnds block lower needle (some idx) (some idx)
  | next (idx : Nat) (c : BitVec 16) (result : Option Nat) (h0 : 0 < idx)
    (hc : block.charAt (idx - 1) = .ok c) (hz : c ≠ 0#16)
    (rest : LoopEnds block lower needle (lower.indexOf needle (idx + 1)) result) :
    LoopEnds block lower needle (some idx) result

/-- Each round starts its search behind the last match, so the loop runs out of block. -/
theorem lineStartLoop_ends (l : List Byte) (needle : JString) (hn : needle ≠ []) (rounds start : Nat)
    (hr : l.length + 2 ≤ rounds + start) : ∃ result,
      LoopEnds (latin1 l) (l.map lowerByte) needle
        (JString.indexOf (l.map lowerByte) needle start) result ∧
      lineStartLoop (latin1 l) (l.map lowerByte) needle rounds
        (JString.indexOf (l.map lowerByte) needle start) = .ok result := by
  have hlen := List.length_pos_of_ne_nil hn
  induction rounds generalizing start with
  | zero =>
    have hnone : JString.indexOf (l.map lowerByte) needle start = none := by
      apply JString.indexOf_none _ _ _ hn
      intro j hj ho
      have hl := occurs_length needle _ j hn ho
      rw [List.length_map] at hl
      omega
    rw [hnone]
    exact ⟨none, .absent, rfl⟩
  | succ rounds ih =>
    rcases JString.indexOf_cases (l.map lowerByte) needle start hn with
      ⟨i, hi, hl, hindex⟩ | ⟨-, hindex⟩
    · have hsi : start ≤ i := hi.1.1
      rw [List.length_map] at hl
      rw [hindex, lineStartLoop]
      by_cases h0 : 0 < i
      · have hc := charAt_latin1 l (i - 1) (by omega)
        rw [if_pos h0, hc, ok_bind]
        by_cases hz : l[i - 1].setWidth 16 = 0#16
        · rw [if_neg (not_not.mpr hz)]
          exact ⟨some i, .line i h0 (by rw [hc, hz]), rfl⟩
        · rw [if_pos hz]
          obtain ⟨result, hends, heq⟩ := ih (i + 1) (by omega)
          exact ⟨result, .next i _ result h0 hc hz hends, heq⟩
      · rw [if_neg h0]
        obtain rfl : i = 0 := by omega
        exact ⟨some 0, .front, rfl⟩
    · rw [hindex, lineStartLoop]
      exact ⟨none, .absent, rfl⟩

theorem findLine_ends (jdk : Jdk) (l : List Byte) (needle : JString) (hn : needle ≠ []) :
    ∃ result, LoopEnds (latin1 l) ((latin1 l).toLowerCase jdk.toLowerCase) needle
        (((latin1 l).toLowerCase jdk.toLowerCase).indexOf needle 0) result ∧
      findLine jdk (latin1 l) needle = .ok result := by
  have h := lineStartLoop_ends l needle hn (l.length + 2) 0 (by omega)
  rw [findLine, latin1_toLowerCase, List.length_map]
  exact h

theorem latin1Lower_zero (c : BitVec 16) (h : latin1Lower c = 0#16) (hc : c.toNat < 0x80) :
    c = 0#16 := by
  apply BitVec.eq_of_toNat_eq
  have ht := congrArg BitVec.toNat h
  rw [latin1Lower] at ht
  split_ifs at ht with hu
  · rw [BitVec.toNat_add] at ht
    simp only [BitVec.toNat_ofNat] at ht
    omega
  · exact ht

theorem toLowerCase_ascii (unicode : JString → JString) (name : JString) (h : IsAscii name) :
    name.toLowerCase unicode = name.map latin1Lower := by
  apply toLowerCase_latin1
  apply List.all_eq_true.mpr
  intro c hc
  have h80 := h c hc
  exact decide_eq_true (by omega)

theorem zero_not_mem_lower (name : JString) (h : IsAscii name) (hz : 0#16 ∉ name) :
    0#16 ∉ name.map latin1Lower := by
  intro hm
  obtain ⟨c, hc, hl⟩ := List.mem_map.mp hm
  exact hz (latin1Lower_zero c hl (h c hc) ▸ hc)

/-- A header by splitting the block at its NULs: the first line that starts with the name, in
lower case, and a colon, and its value trimmed. -/
def splitValue (name : JString) (block : List Byte) : Option JString :=
  ((linesOf block).find? (startsWith (name.map latin1Lower ++ lit ":"))).map fun line =>
    trim (latin1 (line.drop (name.length + 1)))

theorem headerValue_split (jdk : Jdk) (s : Bytes) (hs hlen : Nat) (h : BlockAt s.list hs hlen)
    (name : JString) (ha : IsAscii name) (hz : 0#16 ∉ name) :
    headerValue jdk s name = .ok (splitValue name (seg s.list hs hlen)) := by
  have hl : (name.map latin1Lower ++ lit ":").length = name.length + 1 := by
    rw [List.length_append, List.length_map]
    rfl
  have hlow := toLowerCase_ascii jdk.toLowerCase name ha
  rw [headerValue_block jdk s hs hlen h name (hlow ▸ zero_not_mem_lower name ha hz), hlow, valueOf, hl]
  rfl

/-- The line that the one loop reads is the line that the other rewrites. -/
structure SameLine (jdk : Jdk) (s block : Bytes) (value : JString) (pre : List (List Byte))
    (line : List Byte) (post : List (List Byte)) : Prop where
  lines : linesOf block.list = pre ++ line :: post
  first : ∀ l ∈ pre, ¬startsWith lengthNeedle l
  starts : startsWith lengthNeedle line
  reads : headerValue jdk s lengthName = .ok (some (trim (latin1 (line.drop 15))))
  returns : replaceContentLength jdk block value ≠ .ok none
  rewrites : ∀ out, replaceContentLength jdk block value = .ok (some out) ↔
    out.list = [0#8].intercalate (pre ++ (line.take 15 ++ value.getBytes) :: post)

/-- The search loops find lines. -/
structure SearchesLines (jdk : Jdk) (s : Bytes) (hs hlen : Nat) : Prop where
  value : ∀ name : JString, IsAscii name → 0#16 ∉ name →
    headerValue jdk s name = .ok (splitValue name (seg s.list hs hlen))
  ends : ∀ (l : List Byte) (needle : JString), needle ≠ [] →
    ∃ result, LoopEnds (latin1 l) ((latin1 l).toLowerCase jdk.toLowerCase) needle
        (((latin1 l).toLowerCase jdk.toLowerCase).indexOf needle 0) result ∧
      findLine jdk (latin1 l) needle = .ok result
  rewritten : ∃ block, slice s hs hlen = .ok block ∧ block.list = seg s.list hs hlen ∧
    ∀ value : JString,
      (headerValue jdk s lengthName = .ok none ∧ replaceContentLength jdk block value = .ok none) ∨
      ∃ pre line post, SameLine jdk s block value pre line post

theorem replaceContentLength_ne_none (jdk : Jdk) (block : Bytes) (value : JString)
    (h : ∃ l ∈ linesOf block.list, startsWith lengthNeedle l) :
    replaceContentLength jdk block value ≠ .ok none ∧
      ∀ out, replaceContentLength jdk block value = .ok (some out) ↔
        out.list = patchedBlock value.getBytes block.list := by
  by_cases hfit : (patchedBlock value.getBytes block.list).length < 2 ^ 31
  · rw [replaceContentLength_lines jdk block value h hfit]
    refine ⟨by simp, fun out => ?_⟩
    rw [Except.ok.injEq, Option.some_inj, Bytes.ext_iff, eq_comm]
  · rw [replaceContentLength_big jdk block value h hfit]
    refine ⟨by simp, fun out => ⟨fun he => ?_, fun he => ?_⟩⟩
    · cases he
    · exact absurd (he ▸ out.length_lt) hfit

theorem sameLine_or_none (jdk : Jdk) (s block : Bytes) (hs hlen : Nat) (h : BlockAt s.list hs hlen)
    (hblock : block.list = seg s.list hs hlen) (value : JString) :
    (headerValue jdk s lengthName = .ok none ∧ replaceContentLength jdk block value = .ok none) ∨
      ∃ pre line post, SameLine jdk s block value pre line post := by
  have hv := headerValue_length jdk s hs hlen h
  rw [valueOf, ← hblock] at hv
  rcases find?_split (startsWith lengthNeedle) (linesOf block.list) with
    hnone | ⟨pre, line, post, hsplit, hpre, hline, hfind⟩
  · rw [List.find?_eq_none.mpr hnone, Option.map_none] at hv
    exact .inl ⟨hv, replaceContentLength_none jdk block value hnone⟩
  · have hmem : line ∈ linesOf block.list := by
      rw [hsplit]
      simp
    have hr := replaceContentLength_ne_none jdk block value ⟨line, hmem, hline⟩
    rw [patchedBlock, patchedLines, hsplit, updateFirst_split _ _ pre line post hpre hline] at hr
    rw [hfind] at hv
    exact .inr ⟨pre, line, post, hsplit, hpre, hline, hv, hr.1, hr.2⟩

/-- Both search loops are line splitting: where `headerOffset` finds a block, they end, and they come
to the first line of the name. -/
theorem headerSearch_lines (jdk : Jdk) (s : Bytes) (hs : Nat) (v : BitVec 32)
    (hoff : headerOffset s = .ok hs) (hv : u32 s (i32 ((hs : Int) - 4)) = .ok v)
    (hin : hs + v.toInt ≤ s.length) : SearchesLines jdk s hs v.toNat := by
  have h := blockAt_found s hs v hoff hv hin
  refine ⟨headerValue_split jdk s hs _ h, findLine_ends jdk, ?_⟩
  refine ⟨s.sub hs v.toNat, slice_in s hs v.toNat h.inside, rfl, ?_⟩
  exact sameLine_or_none jdk s _ hs _ h rfl

theorem headerSearch_lines_pickle : SearchesLines storedJdk ⟨lengthPickle, by decide⟩ 8 24 :=
  headerSearch_lines storedJdk ⟨lengthPickle, by decide⟩ 8 24#32
    (headerOffset_block ⟨lengthPickle, by decide⟩ 8 24 lengthPickle_block) (by decide) (by decide)

end SimpleCacheTool.HttpCacheMetadata
