import SimpleCacheTool.Metadata.Framed

namespace SimpleCacheTool.HttpCacheMetadata

open Fallible Segments Lines LittleEndian SimpleCacheFormat

/-- The bytes do not end in "HTTP", "HTTP/" or "HTTP/1". -/
def QuietEnd (l : List Byte) : Prop := ∀ k, 4 ≤ k → k < 7 → ¬httpBytes.take k <:+ l

/-- A size whose high byte is below every byte of "HTTP/1.". -/
def quietSize : Nat := 0x2e000000

theorem httpBytes_length : httpBytes.length = 7 := by decide

theorem httpBytes_ge (k : Nat) (hk : k < httpBytes.length) : 0x2e ≤ httpBytes[k].toNat := by
  have h : ∀ b ∈ httpBytes, 0x2e ≤ b.toNat := by decide
  exact h _ (List.getElem_mem hk)

/-- The high byte of a size word. -/
theorem bytes_high (m : Nat) (hm : m < quietSize) (post : List Byte) :
    ∃ b, (bytes 4 (BitVec.ofNat 32 m) ++ post)[3]? = some b ∧ b.toNat < 0x2e := by
  have hn : (BitVec.ofNat 32 m).toNat = m := by
    rw [BitVec.toNat_ofNat]
    exact Nat.mod_eq_of_lt (by unfold quietSize at hm; omega)
  refine ⟨BitVec.ofNat 8 (m / 256 / 256 / 256), ?_, ?_⟩
  · rw [bytes, hn]
    rfl
  · rw [BitVec.toNat_ofNat]
    unfold quietSize at hm
    omega

/-- No occurrence reaches over the high byte of a size. -/
theorem occurs_high (l : List Byte) (i k : Nat) (h : httpBytes <+: l.drop i) (hi : i ≤ k)
    (hk : k ≤ i + 6) (b : Byte) (hb : l[k]? = some b) : ¬b.toNat < 0x2e := by
  have hin : k - i < httpBytes.length := by
    rw [httpBytes_length]
    omega
  have hg := occurs_getElem httpBytes l i (k - i) hin h
  rw [Nat.add_sub_cancel' hi, hb] at hg
  have hge := httpBytes_ge (k - i) hin
  rw [Option.some.inj hg]
  omega

/-- An occurrence that the end of the first part cuts leaves its beginning there. -/
theorem take_suffix (l post : List Byte) (i : Nat) (h : httpBytes <+: (l ++ post).drop i)
    (hi : i ≤ l.length) (hk : l.length - i ≤ 7) : httpBytes.take (l.length - i) <:+ l := by
  obtain ⟨r, hr⟩ := h
  rw [List.drop_append_of_le_length hi] at hr
  have ht := congrArg (List.take (l.length - i)) hr
  have hd : (l.drop i).length = l.length - i := List.length_drop
  rw [List.take_append_of_le_length (by rw [httpBytes_length]; omega), ← hd, List.take_left, hd] at ht
  rw [ht]
  exact List.drop_suffix i l

namespace Framed

theorem between_quiet (f : Framed) (hst : StatusLineAt f.toList f.offset) (i : Nat) :
    ¬httpBytes <+: f.between.drop i := by
  intro h
  have hl := occurs_length httpBytes f.between i (by decide) h
  have ho : httpBytes <+: f.toList.drop (f.first.length + i) := by
    rw [toList, occurs_append_right, occurs_append_left _ _ _ _ hl]
    exact h
  have hle : f.offset ≤ f.first.length + i := hst.2 ho
  rw [f.first_length, offset] at hle
  rw [httpBytes_length] at hl
  omega

/-- The rewritten sizes make no earlier "HTTP/1.": the search finds the new string where the old
one was. -/
theorem statusLine_withBlock (f : Framed) (block : List Byte) (hq : QuietEnd f.between)
    (hst : StatusLineAt f.toList f.offset) (hb : httpBytes <+: block)
    (hsize : (f.withBlock block).toList.length < quietSize) :
    StatusLineAt (f.withBlock block).toList f.offset := by
  have hlen := f.withBlock_length block
  have hfirst : (f.sizeWord block).length = 4 := bytes_length 4 _
  constructor
  · -- the new string starts with the status line
    have hdrop : block <+: (f.withBlock block).toList.drop f.offset := by
      have hs := (f.withBlock block).seg_block
      rw [withBlock_offset, withBlock_block, seg] at hs
      have ht := List.take_prefix block.length ((f.withBlock block).toList.drop f.offset)
      rwa [hs] at ht
    exact hb.trans hdrop
  · intro j hj
    by_contra hlt
    have hj : httpBytes <+: (f.withBlock block).toList.drop j := hj
    rw [withBlock_toList] at hj
    by_cases h3 : j ≤ 3
    · obtain ⟨b, hb3, hsmall⟩ := bytes_high (f.offset + block.length +
        padding (f.offset + block.length) + f.rest.length - 4) (by omega) (f.between ++
        (bytes 4 (BitVec.ofNat 32 block.length) ++ (block ++
          (List.replicate (padding (f.offset + block.length)) 0 ++ f.rest))))
      exact occurs_high _ j 3 hj h3 (by omega) b hb3 hsmall
    obtain ⟨i, rfl⟩ : ∃ i, j = (f.sizeWord block).length + i := ⟨j - 4, by omega⟩
    rw [occurs_append_right] at hj
    rw [hfirst, offset] at hlt
    by_cases hin : i + 7 ≤ f.between.length
    · rw [occurs_append_left _ _ _ _ (by rw [httpBytes_length]; exact hin)] at hj
      exact f.between_quiet hst i hj
    by_cases hcut : i + 3 < f.between.length
    · have hs := take_suffix f.between _ i hj (by omega) (by omega)
      exact hq (f.between.length - i) (by omega) (by omega) hs
    · -- the window holds the high byte of the string's length
      obtain ⟨b, hb3, hsmall⟩ := bytes_high block.length (by omega) (block ++
        (List.replicate (padding (f.offset + block.length)) 0 ++ f.rest))
      refine occurs_high _ i (f.between.length + 3) hj (by omega) (by omega) b ?_ hsmall
      rw [List.getElem?_append_right (Nat.le_add_right _ 3), Nat.add_sub_cancel_left]
      exact hb3

/-- The frame is one the library reads, with its block where it is. -/
theorem blockAt_withBlock (f : Framed) (block : List Byte) (hq : QuietEnd f.between)
    (hst : StatusLineAt f.toList f.offset) (hb : httpBytes <+: block)
    (hsize : (f.withBlock block).toList.length < quietSize) :
    BlockAt (f.withBlock block).toList f.offset block.length := by
  have hlen := f.withBlock_length block
  have hpos := hb.length_le
  rw [httpBytes_length] at hpos
  have hoff : f.offset = 8 + f.between.length := rfl
  refine ⟨f.statusLine_withBlock block hq hst hb hsize, by omega, ?_, by omega, by omega⟩
  have hw := (f.withBlock block).wordAt_length
  rw [withBlock_offset, withBlock_block] at hw
  rw [hw, BitVec.toNat_ofNat]
  unfold quietSize at hsize
  exact Nat.mod_eq_of_lt (by omega)

end Framed

end SimpleCacheTool.HttpCacheMetadata
