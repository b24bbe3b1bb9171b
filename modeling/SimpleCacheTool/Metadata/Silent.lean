import Mathlib.Data.List.TakeWhile
import SimpleCacheTool.Metadata.Lens

namespace SimpleCacheTool.HttpCacheMetadata

open Fallible Segments Lines LittleEndian JString SimpleCacheFormat

/-- The first content-encoding line, if there is one, has a blank value. -/
def BlankEncoding (ls : List (List Byte)) : Prop :=
  ∀ line, ls.find? (startsWith encodingNeedle) = some line → ∀ b ∈ line.drop 17, b.toNat ≤ 0x20

/-- A stream 0 with no block, or with one that has no content-length and no content-encoding. -/
structure Silent (s : List Byte) : Prop where
  block_end : BlockEnds s
  length : ∀ hs hlen, BlockAt s hs hlen → ¬HasLength s hs hlen
  encoding : ∀ hs hlen, BlockAt s hs hlen → BlankEncoding (linesOf (seg s hs hlen))

theorem trim_eq_nil (s : JString) : s.trim = [] ↔ ∀ c ∈ s, isSpace c := by
  constructor
  · intro h c hc
    obtain ⟨a, b, ha, hb, hs⟩ := trim_split s
    rw [h, List.nil_append] at hs
    rw [hs] at hc
    rcases List.mem_append.mp hc with hc | hc
    · exact ha c hc
    · exact hb c hc
  · intro h
    have hd : s.dropWhile isSpace = [] := List.dropWhile_eq_nil_iff.mpr h
    rw [trim, hd]
    rfl

theorem encodingOf_eq_none (ls : List (List Byte)) : encodingOf ls = none ↔ BlankEncoding ls := by
  rw [encodingOf, valueOf, BlankEncoding]
  cases ls.find? (startsWith encodingNeedle) with
  | none => simp
  | some line =>
    have hl : encodingNeedle.length = 17 := by decide
    have hspace : (∀ c ∈ latin1 (line.drop 17), isSpace c) ↔ ∀ b ∈ line.drop 17, b.toNat ≤ 0x20 := by
      rw [latin1, List.forall_mem_map]
      apply forall₂_congr
      intro b _
      have hb := b.isLt
      rw [isSpace, BitVec.toNat_setWidth, decide_eq_true_iff, Nat.mod_eq_of_lt (by omega)]
    rw [hl, Option.map_some]
    constructor
    · intro h line' he
      obtain rfl := Option.some.inj he
      rw [← hspace, ← trim_eq_nil]
      by_contra hne
      simp [hne] at h
    · intro h
      rw [(trim_eq_nil _).mpr (hspace.mpr (h line rfl))]
      rfl

/-- The block put into stream 0 stands where the old one stood. -/
theorem seg_withBlock (s : List Byte) (hs hlen : Nat) (block : List Byte) (h4 : 4 ≤ hs)
    (hin : hs ≤ s.length) : seg (withBlock s hs hlen block) hs block.length = block := by
  obtain ⟨k, rfl⟩ := Nat.exists_eq_add_of_le h4
  have htake : (s.take (4 + k - 4)).length = 4 + k - 4 := by
    rw [List.length_take]
    omega
  have hfront := seg_overwrite_front (spliced s (4 + k) hlen block)
    (bytes 4 (BitVec.ofInt 32 ((spliced s (4 + k) hlen block).length - 4))) k block.length
  rw [bytes_length] at hfront
  rw [withBlock, hfront, spliced, ← List.append_assoc]
  apply seg_at
  · rw [List.length_append, htake, bytes_length]
    omega
  · rfl

/-- Two lengths written give two streams. -/
theorem patched_differ (s : List Byte) (hs hlen : Nat) (h4 : 4 ≤ hs) (hin : hs ≤ s.length)
    (hline : HasLength s hs hlen) : patched s hs hlen (0 : Nat) ≠ patched s hs hlen (1 : Nat) := by
  intro heq
  obtain ⟨line, hf⟩ := hasLength_find s hs hlen hline
  have h0 := seg_withBlock s hs hlen (newBlock s hs hlen (0 : Nat)) h4 hin
  have h1 := seg_withBlock s hs hlen (newBlock s hs hlen (1 : Nat)) h4 hin
  have hl0 := patchedBlock_length (digits (0 : Nat)) (seg s hs hlen) line hf
  have hl1 := patchedBlock_length (digits (1 : Nat)) (seg s hs hlen) line hf
  have hd : (digits (0 : Nat)).length = (digits (1 : Nat)).length := by decide
  have hsame : (newBlock s hs hlen (0 : Nat)).length = (newBlock s hs hlen (1 : Nat)).length := by
    change (patchedBlock (digits (0 : Nat)) (seg s hs hlen)).length =
      (patchedBlock (digits (1 : Nat)) (seg s hs hlen)).length
    omega
  have hblock : newBlock s hs hlen (0 : Nat) = newBlock s hs hlen (1 : Nat) := by
    rw [← h0, hsame]
    exact (congrArg (fun l => seg l hs (newBlock s hs hlen (1 : Nat)).length) heq).trans h1
  -- the two blocks read back two values
  have hlines := congrArg (fun b => valueOf lengthNeedle (linesOf b)) hblock
  change valueOf lengthNeedle (linesOf (patchedBlock (digits (0 : Nat)) _)) =
    valueOf lengthNeedle (linesOf (patchedBlock (digits (1 : Nat)) _)) at hlines
  rw [linesOf_patchedBlock _ _ (digits_ne_zero 0), linesOf_patchedBlock _ _ (digits_ne_zero 1),
    valueOf_patchedLines 0 _ hline, valueOf_patchedLines 1 _ hline] at hlines
  exact absurd (Option.some.inj hlines) (by decide)

/-- A stream 0 without a content-encoding that no patch changes. -/
def Unchanged (jdk : Jdk) (s : Bytes) : Prop :=
  (∀ n : Nat, n < 2 ^ 31 → patchContentLength jdk s n = .ok s) ∧ contentEncoding jdk s = .ok none

theorem silent_of_unchanged (jdk : Jdk) (s : Bytes) (hl : s.length + 1 < 2 ^ 31)
    (h : Unchanged jdk s) : Silent s.list := by
  obtain ⟨hpatch, hencoding⟩ := h
  refine ⟨?_, ?_, ?_⟩
  · rcases contentEncoding_ends jdk s hl with ⟨hend, -⟩ | ⟨-, herr⟩
    · exact hend
    · rw [hencoding] at herr
      cases herr
  · intro hs hlen hb hline
    have hin := hb.inside
    have h0 := ((patch_eq_ok jdk s s 0 hs hlen hb hline).mp (hpatch 0 (by decide))).2
    have h1 := ((patch_eq_ok jdk s s 1 hs hlen hb hline).mp (hpatch 1 (by decide))).2
    exact patched_differ s.list hs hlen hb.four (by omega) hline (h0.symm.trans h1)
  · intro hs hlen hb
    rw [contentEncoding_lines jdk s _ (headerBlock_block s hs hlen hb)] at hencoding
    exact (encodingOf_eq_none _).mp (Except.ok.inj hencoding)

theorem unchanged_of_absent (jdk : Jdk) (s : Bytes) (h : headerOffset s = .ok (-1)) : Unchanged jdk s :=
  ⟨fun n _ => patchContentLength_absent jdk s n h, contentEncoding_none jdk s (headerBlock_absent s h)⟩

/-- On an array that can be searched these are the silent streams. -/
theorem unchanged_iff (jdk : Jdk) (s : Bytes) (hl : s.length + 1 < 2 ^ 31) :
    Unchanged jdk s ↔ Silent s.list := by
  refine ⟨silent_of_unchanged jdk s hl, ?_⟩
  intro h
  rcases headerOffset_spec s hl with habsent | ⟨hs, hat, -⟩
  · exact unchanged_of_absent jdk s habsent
  · rcases block_or_absent s hs hat h.block_end with habsent | ⟨hlen, hb⟩
    · exact unchanged_of_absent jdk s habsent
    · refine ⟨fun n _ => patchContentLength_noLine jdk s n hs hlen hb (h.length hs hlen hb), ?_⟩
      rw [contentEncoding_lines jdk s _ (headerBlock_block s hs hlen hb),
        (encodingOf_eq_none _).mpr (h.encoding hs hlen hb)]

/-! Bytes behind a header. -/

theorem mem_line_of_block (block l : List Byte) (hline : l ∈ linesOf block) (k : Nat)
    (hk : k < l.length) : ∃ j, k ≤ j ∧ block[j]? = some l[k] := by
  obtain ⟨pre, post, hl⟩ := List.append_of_mem hline
  refine ⟨(before 0#8 pre).length + k, by omega, ?_⟩
  rw [block_split block pre l post hl, List.getElem?_append_right (by omega), Nat.add_sub_cancel_left,
    List.getElem?_append_left hk, List.getElem?_eq_getElem hk]

/-- No line of a block starts with a name of eight characters or more and a colon, when the bytes
from offset 12 on are no colons. -/
theorem no_line_starts (s : List Byte) (hs hlen : Nat) (h4 : 4 ≤ hs) (htail : 0x3a#8 ∉ s.drop 12)
    (name : JString) (hname : 7 < name.length) :
    ∀ l ∈ linesOf (seg s hs hlen), ¬startsWith (name ++ lit ":") l := by
  intro l hline hstart
  have hp := (startsWith_iff _ l).mp hstart
  have hle := hp.length_le
  have hcolon : (lit ":").length = 1 := rfl
  rw [List.length_map, List.length_append, hcolon] at hle
  -- the colon behind the name
  have hget := List.prefix_iff_getElem?.mp hp name.length (by rw [List.length_append, hcolon]; omega)
  rw [List.getElem?_map, List.getElem?_eq_getElem (by omega), List.getElem_append_right (Nat.le_refl _)]
    at hget
  have hbyte : lowerByte l[name.length] = 0x3a#16 := by
    simpa [lit] using hget
  have h3a : l[name.length] = 0x3a#8 := by
    have hall : ∀ b : Byte, lowerByte b = 0x3a#16 → b = 0x3a#8 := by decide
    exact hall _ hbyte
  obtain ⟨j, hj, hblock⟩ := mem_line_of_block _ l hline name.length (by omega)
  have hs12 : (s.drop 12)[hs + j - 12]? = some 0x3a#8 := by
    have hin := (List.getElem?_eq_some_iff.mp hblock).1
    rw [seg, List.getElem?_take_of_lt (by
      rw [seg, List.length_take] at hin
      omega), List.getElem?_drop, h3a] at hblock
    rw [List.getElem?_drop, Nat.add_sub_cancel' (by omega)]
    exact hblock
  exact htail (List.mem_of_getElem? hs12)

end SimpleCacheTool.HttpCacheMetadata
