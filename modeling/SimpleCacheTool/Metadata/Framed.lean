import SimpleCacheTool.Metadata.Patch

namespace SimpleCacheTool.HttpCacheMetadata

open Fallible Segments Lines LittleEndian SimpleCacheFormat

/-- A stream 0 cut around its header string: the payload size, what lies between it and the string's
length, the string, its padding and the rest. -/
@[ext] structure Framed where
  first : List Byte
  between : List Byte
  block : List Byte
  pad : List Byte
  rest : List Byte
  first_length : first.length = 4
  pad_length : pad.length = padding (8 + between.length + block.length)

namespace Framed

/-- Where the header string starts. -/
def offset (f : Framed) : Nat := 8 + f.between.length

def lengthWord (f : Framed) : List Byte := bytes 4 (BitVec.ofNat 32 f.block.length)

def toList (f : Framed) : List Byte :=
  f.first ++ (f.between ++ (f.lengthWord ++ (f.block ++ (f.pad ++ f.rest))))

theorem lengthWord_length (f : Framed) : f.lengthWord.length = 4 := bytes_length 4 _

theorem toList_length (f : Framed) :
    f.toList.length = f.offset + f.block.length + f.pad.length + f.rest.length := by
  have h := f.first_length
  have hw := f.lengthWord_length
  simp only [toList, List.length_append, offset]
  omega

/-- The places of the parts. -/
theorem seg_first (f : Framed) : seg f.toList 0 4 = f.first := seg_prefix _ _ 4 f.first_length

theorem seg_between (f : Framed) : seg f.toList 4 f.between.length = f.between :=
  seg_at f.first f.between _ _ _ f.first_length.symm rfl

theorem seg_lengthWord (f : Framed) : seg f.toList (f.offset - 4) 4 = f.lengthWord := by
  have h := f.first_length
  have ht : f.toList = (f.first ++ f.between) ++ (f.lengthWord ++ (f.block ++ (f.pad ++ f.rest))) := by
    simp only [toList, List.append_assoc]
  rw [ht]
  apply seg_at
  · rw [List.length_append, offset]
    omega
  · exact f.lengthWord_length.symm

theorem seg_block (f : Framed) : seg f.toList f.offset f.block.length = f.block := by
  have h := f.first_length
  have hw := f.lengthWord_length
  have ht : f.toList = (f.first ++ f.between ++ f.lengthWord) ++ (f.block ++ (f.pad ++ f.rest)) := by
    simp only [toList, List.append_assoc]
  rw [ht]
  apply seg_at
  · rw [List.length_append, List.length_append, offset]
    omega
  · rfl

theorem seg_pad (f : Framed) : seg f.toList (f.offset + f.block.length) f.pad.length = f.pad := by
  have h := f.first_length
  have hw := f.lengthWord_length
  have ht : f.toList = (f.first ++ f.between ++ f.lengthWord ++ f.block) ++ (f.pad ++ f.rest) := by
    simp only [toList, List.append_assoc]
  rw [ht]
  apply seg_at
  · simp only [List.length_append, offset]
    omega
  · rfl

theorem drop_rest (f : Framed) : f.toList.drop (f.offset + f.block.length + f.pad.length) = f.rest := by
  have h := f.first_length
  have hw := f.lengthWord_length
  have ht : f.toList = (f.first ++ f.between ++ f.lengthWord ++ f.block ++ f.pad) ++ f.rest := by
    simp only [toList, List.append_assoc]
  have hl : f.offset + f.block.length + f.pad.length =
      (f.first ++ f.between ++ f.lengthWord ++ f.block ++ f.pad).length := by
    simp only [List.length_append, offset]
    omega
  rw [ht, hl, List.drop_left]

/-- The string's length as stored. -/
theorem wordAt_length (f : Framed) :
    wordAt 32 f.toList (f.offset - 4) = BitVec.ofNat 32 f.block.length :=
  wordAt_of_tile 32 _ _ _ rfl f.seg_lengthWord

/-- The payload size of the frame with another string. -/
def sizeWord (f : Framed) (block : List Byte) : List Byte :=
  bytes 4 (BitVec.ofNat 32 (f.offset + block.length + padding (f.offset + block.length) +
    f.rest.length - 4))

/-- The frame with another string, padded anew, its size in the first word. -/
def withBlock (f : Framed) (block : List Byte) : Framed where
  first := f.sizeWord block
  between := f.between
  block := block
  pad := List.replicate (padding (f.offset + block.length)) 0
  rest := f.rest
  first_length := bytes_length 4 _
  pad_length := List.length_replicate

/-- Only the last string written counts. -/
theorem withBlock_withBlock (f : Framed) (a b : List Byte) :
    (f.withBlock a).withBlock b = f.withBlock b := rfl

@[simp] theorem withBlock_offset (f : Framed) (block : List Byte) :
    (f.withBlock block).offset = f.offset := rfl

@[simp] theorem withBlock_block (f : Framed) (block : List Byte) :
    (f.withBlock block).block = block := rfl

theorem withBlock_pad (f : Framed) (block : List Byte) :
    (f.withBlock block).pad = List.replicate (padding (f.offset + block.length)) 0 := rfl

theorem withBlock_toList (f : Framed) (block : List Byte) : (f.withBlock block).toList =
    f.sizeWord block ++ (f.between ++ (bytes 4 (BitVec.ofNat 32 block.length) ++ (block ++
      (List.replicate (padding (f.offset + block.length)) 0 ++ f.rest)))) := rfl

theorem withBlock_length (f : Framed) (block : List Byte) : (f.withBlock block).toList.length =
    f.offset + block.length + padding (f.offset + block.length) + f.rest.length := by
  rw [toList_length, (f.withBlock block).pad_length]
  rfl

/-- The payload size written is that of the frame. -/
theorem withBlock_size (f : Framed) (block : List Byte) :
    wordAt 32 (f.withBlock block).toList 0 =
      BitVec.ofNat 32 ((f.withBlock block).toList.length - 4) := by
  rw [withBlock_length]
  exact wordAt_of_tile 32 _ 0 _ rfl (f.withBlock block).seg_first

end Framed

/-- A stream 0 with a header block behind the payload size, and room for the block's padding. -/
structure FrameAt (s : List Byte) (hs hlen : Nat) : Prop extends BlockAt s hs hlen where
  eight : 8 ≤ hs
  room : hs + hlen + padding (hs + hlen) ≤ s.length

namespace FrameAt

/-- The frame of such a stream. -/
def frame (s : List Byte) (hs hlen : Nat) (h : FrameAt s hs hlen) : Framed where
  first := seg s 0 4
  between := seg s 4 (hs - 8)
  block := seg s hs hlen
  pad := seg s (hs + hlen) (padding (hs + hlen))
  rest := s.drop (hs + hlen + padding (hs + hlen))
  first_length := by
    have h8 := h.eight
    have hr := h.room
    exact seg_length s 0 4 (by omega)
  pad_length := by
    have h8 := h.eight
    have hr := h.room
    rw [seg_length _ _ _ hr, seg_length s 4 (hs - 8) (by omega), seg_length s hs hlen (by omega)]
    congr 2
    omega

variable (s : List Byte) (hs hlen : Nat) (h : FrameAt s hs hlen)

@[simp] theorem frame_offset : (frame s hs hlen h).offset = hs := by
  have h8 := h.eight
  have hr := h.room
  change 8 + (seg s 4 (hs - 8)).length = hs
  rw [seg_length s 4 (hs - 8) (by omega)]
  omega

theorem frame_block_length : (frame s hs hlen h).block.length = hlen :=
  seg_length s hs hlen (Nat.le_of_add_right_le h.room)

theorem frame_lengthWord : (frame s hs hlen h).lengthWord = seg s (hs - 4) 4 := by
  have h8 := h.eight
  have hr := h.room
  have hw : BitVec.ofNat 32 hlen = wordAt 32 s (hs - 4) := by
    rw [← h.length, BitVec.ofNat_toNat, BitVec.setWidth_eq]
  rw [Framed.lengthWord, frame_block_length, hw, bytes_wordAt 32 4 s (hs - 4) rfl rfl (by omega)]

theorem frame_toList : (frame s hs hlen h).toList = s := by
  have h8 := h.eight
  have hr := h.room
  have h4 : 4 + (hs - 8) = hs - 4 := by omega
  have hs4 : hs - 4 + 4 = hs := by omega
  rw [Framed.toList, frame_lengthWord]
  change seg s 0 4 ++ (seg s 4 (hs - 8) ++ (seg s (hs - 4) 4 ++ (seg s hs hlen ++
    (seg s (hs + hlen) (padding (hs + hlen)) ++ s.drop (hs + hlen + padding (hs + hlen)))))) = s
  have hword := seg_drop s (hs - 4) 4
  have hbetween := seg_drop s 4 (hs - 8)
  rw [hs4] at hword
  rw [h4] at hbetween
  rw [seg_drop, seg_drop, hword, hbetween]
  exact List.take_append_drop 4 s

/-- The list functions of the patch in terms of the frame. -/
theorem withBlock_frame (block : List Byte) :
    withBlock s hs hlen block = ((frame s hs hlen h).withBlock block).toList := by
  have h8 := h.eight
  have hr := h.room
  have hl := spliced_length s hs hlen block h.four hr
  have hw := (frame s hs hlen h).withBlock_length block
  have hrest : (frame s hs hlen h).rest.length = s.length - (hs + hlen + padding (hs + hlen)) :=
    List.length_drop
  have hhead : s.take (hs - 4) = seg s 0 4 ++ seg s 4 (hs - 8) := by
    have h4 : 4 + (hs - 8) = hs - 4 := by omega
    rw [seg_join, h4]
    rfl
  have hsize : bytes 4 (BitVec.ofInt 32 (((spliced s hs hlen block).length : Int) - 4)) =
      (frame s hs hlen h).sizeWord block := by
    have hi : ((spliced s hs hlen block).length : Int) - 4 =
        ((hs + block.length + padding (hs + block.length) +
          (frame s hs hlen h).rest.length - 4 : Nat) : Int) := by
      rw [hl, hrest]
      omega
    rw [hi, BitVec.ofInt_natCast, Framed.sizeWord, frame_offset]
  have hfour : (seg s 0 4).length = (bytes 4 (BitVec.ofInt 32
      (((spliced s hs hlen block).length : Int) - 4))).length := by
    rw [bytes_length, seg_length s 0 4 (by omega)]
  have hover := overwrite_mid [] _ (seg s 4 (hs - 8) ++ (bytes 4 (BitVec.ofNat 32 block.length) ++
    (block ++ (List.replicate (padding (hs + block.length)) 0 ++
      s.drop (hs + hlen + padding (hs + hlen)))))) _ hfour
  rw [List.nil_append, List.nil_append, ← List.append_assoc, ← hhead] at hover
  rw [HttpCacheMetadata.withBlock]
  refine hover.trans ?_
  rw [hsize, Framed.withBlock_toList, frame_offset]
  rfl

end FrameAt

end SimpleCacheTool.HttpCacheMetadata
