import SimpleCacheTool.Metadata.PatchedLines

namespace SimpleCacheTool.HttpCacheMetadata

open Fallible Segments Lines LittleEndian JString SimpleCacheFormat

/-- A frame read from its own bytes is the frame. -/
theorem frame_ofToList (f : Framed) (h : FrameAt f.toList f.offset f.block.length) :
    FrameAt.frame f.toList f.offset f.block.length h = f := by
  have hoff : f.offset - 8 = f.between.length := by
    rw [Framed.offset]
    omega
  have hpad : padding (f.offset + f.block.length) = f.pad.length := f.pad_length.symm
  refine Framed.ext f.seg_first ?_ f.seg_block ?_ ?_
  · change seg f.toList 4 (f.offset - 8) = f.between
    rw [hoff, f.seg_between]
  · change seg f.toList (f.offset + f.block.length) (padding (f.offset + f.block.length)) = f.pad
    rw [hpad, f.seg_pad]
  · change f.toList.drop (f.offset + f.block.length + padding (f.offset + f.block.length)) = f.rest
    rw [hpad, f.drop_rest]

namespace FrameAt

variable (s : List Byte) (hs hlen : Nat)

/-- The frame of the patched stream. -/
def patchedFrame (h : FrameAt s hs hlen) (n : Nat) : Framed :=
  (frame s hs hlen h).withBlock (newBlock s hs hlen n)

theorem patched_frame (h : FrameAt s hs hlen) (n : Nat) :
    patched s hs hlen n = (patchedFrame s hs hlen h n).toList :=
  withBlock_frame s hs hlen h _

@[simp] theorem patchedFrame_offset (h : FrameAt s hs hlen) (n : Nat) :
    (patchedFrame s hs hlen h n).offset = hs :=
  frame_offset s hs hlen h

theorem newBlock_eq (n : Nat) : newBlock s hs hlen n = patchedBlock (digits n) (seg s hs hlen) := rfl

/-- The patched stream is a frame again when the search finds its block. -/
theorem patched_frameAt (h : FrameAt s hs hlen) (n : Nat)
    (hb : BlockAt (patched s hs hlen n) hs (newBlock s hs hlen n).length) :
    FrameAt (patched s hs hlen n) hs (newBlock s hs hlen n).length := by
  refine ⟨hb, h.eight, ?_⟩
  rw [patched_frame s hs hlen h, patchedFrame, Framed.withBlock_length, frame_offset]
  omega

theorem seg_patched (h : FrameAt s hs hlen) (n : Nat) :
    seg (patched s hs hlen n) hs (newBlock s hs hlen n).length = newBlock s hs hlen n := by
  have hsb := (patchedFrame s hs hlen h n).seg_block
  rw [patchedFrame_offset, ← patched_frame] at hsb
  exact hsb

/-- The patched block line by line. -/
theorem linesOf_patched (h : FrameAt s hs hlen) (n : Nat) :
    linesOf (seg (patched s hs hlen n) hs (newBlock s hs hlen n).length) =
      patchedLines (digits n) (linesOf (seg s hs hlen)) := by
  rw [seg_patched s hs hlen h]
  exact linesOf_patchedBlock (digits n) _ (digits_ne_zero n)

/-- Only the last length written counts. -/
theorem patched_patched (h : FrameAt s hs hlen) (n m : Nat)
    (hb : BlockAt (patched s hs hlen n) hs (newBlock s hs hlen n).length) :
    patched (patched s hs hlen n) hs (newBlock s hs hlen n).length m = patched s hs hlen m := by
  have hout := patched_frameAt s hs hlen h n hb
  have hseg := seg_patched s hs hlen h n
  have hnew : newBlock (patched s hs hlen n) hs (newBlock s hs hlen n).length m =
      newBlock s hs hlen m := by
    rw [newBlock, hseg, newBlock_eq, newBlock_eq]
    exact patchedBlock_patchedBlock (digits n) (digits m) _ (digits_ne_zero n)
  have hframe : frame _ _ _ hout = patchedFrame s hs hlen h n := by
    have hf := frame_ofToList (patchedFrame s hs hlen h n) (by
      rw [patchedFrame_offset, ← patched_frame]
      exact hout)
    rw [← hf]
    congr 1
    · exact patched_frame s hs hlen h n
    · exact (patchedFrame_offset s hs hlen h n).symm
  rw [patched_frame _ _ _ hout, patchedFrame, hframe, hnew, patched_frame s hs hlen h, patchedFrame,
    patchedFrame, Framed.withBlock_withBlock]

end FrameAt

theorem quietEnd_suffix (l pre : List Byte) (h : QuietEnd (pre ++ l)) : QuietEnd l :=
  fun k h4 h7 hs => h k h4 h7 (hs.trans (List.suffix_append pre l))

theorem line_length_le (block line : List Byte) (h : line ∈ linesOf block) :
    line.length ≤ block.length := by
  obtain ⟨pre, post, hsplit⟩ := List.append_of_mem h
  rw [← intercalate_linesOf block, hsplit, intercalate_split]
  simp only [List.length_append]
  omega

theorem hasLength_le (s : List Byte) (hs hlen : Nat) (h : HasLength s hs hlen) : 15 ≤ hlen := by
  obtain ⟨l, hl, hstart⟩ := h
  have h15 := startsWith_length l hstart
  have hle := line_length_le _ l hl
  have htake : (seg s hs hlen).length ≤ hlen := by
    rw [seg, List.length_take]
    omega
  omega

theorem hasLength_find (s : List Byte) (hs hlen : Nat) (h : HasLength s hs hlen) :
    ∃ line, (linesOf (seg s hs hlen)).find? (startsWith lengthNeedle) = some line := by
  obtain ⟨l, hl, hw⟩ := h
  exact Option.isSome_iff_exists.mp (List.find?_isSome.mpr ⟨l, hl, hw⟩)

theorem block_status (s : List Byte) (hs hlen : Nat) (h : StatusLineAt s hs) (h7 : 7 ≤ hlen) :
    httpBytes <+: seg s hs hlen := by
  rw [seg, List.prefix_take_iff]
  exact ⟨h.1, by rw [httpBytes_length]; exact h7⟩

/-- The search finds the block of a patched stream of moderate size. -/
theorem patched_blockAt (s : List Byte) (hs hlen : Nat) (h : FrameAt s hs hlen)
    (hline : HasLength s hs hlen) (hq : QuietEnd (s.take (hs - 4))) (n : Nat)
    (hsmall : (patched s hs hlen n).length < quietSize) :
    BlockAt (patched s hs hlen n) hs (newBlock s hs hlen n).length := by
  have h8 := h.eight
  have h15 := hasLength_le s hs hlen hline
  have hbetween : QuietEnd (FrameAt.frame s hs hlen h).between := by
    apply quietEnd_suffix _ (seg s 0 4)
    change QuietEnd (seg s 0 4 ++ seg s 4 (hs - 8))
    have h4 : 4 + (hs - 8) = hs - 4 := by omega
    rw [seg_join, h4]
    exact hq
  have hst : StatusLineAt (FrameAt.frame s hs hlen h).toList (FrameAt.frame s hs hlen h).offset := by
    rw [FrameAt.frame_toList, FrameAt.frame_offset]
    exact h.status
  rw [FrameAt.patched_frame s hs hlen h] at hsmall ⊢
  have hb := (FrameAt.frame s hs hlen h).blockAt_withBlock (newBlock s hs hlen n) hbetween hst
    (patchedBlock_status _ _ (block_status s hs hlen h.status (by omega))) hsmall
  rwa [FrameAt.frame_offset] at hb

/-- The size of the patched stream: the first content-length line exchanges its value for a decimal,
and the block is padded anew. -/
def patchedSize (s : List Byte) (hs hlen : Nat) (line : List Byte) (n : Int) : Nat :=
  hs + (hlen - line.length + 15 + (digits n).length) +
    padding (hs + (hlen - line.length + 15 + (digits n).length)) +
    (s.length - (hs + hlen + padding (hs + hlen)))

theorem patched_length (s : List Byte) (hs hlen : Nat) (h4 : 4 ≤ hs)
    (hroom : hs + hlen + padding (hs + hlen) ≤ s.length) (line : List Byte) (n : Int)
    (hf : (linesOf (seg s hs hlen)).find? (startsWith lengthNeedle) = some line) :
    (patched s hs hlen n).length = patchedSize s hs hlen line n := by
  have hb : (newBlock s hs hlen n).length + line.length =
      (seg s hs hlen).length + 15 + (digits n).length := patchedBlock_length _ _ line hf
  have hle := line_length_le _ line (List.mem_of_find?_eq_some hf)
  rw [seg_length s hs hlen (by omega)] at hb hle
  have hn : (newBlock s hs hlen n).length = hlen - line.length + 15 + (digits n).length := by omega
  rw [patched, withBlock_length s hs hlen _ h4 hroom, spliced_length s hs hlen _ h4 hroom, hn,
    patchedSize]

end SimpleCacheTool.HttpCacheMetadata
