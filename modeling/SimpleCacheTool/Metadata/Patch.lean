import SimpleCacheTool.Metadata.HeaderBlock

namespace SimpleCacheTool.HttpCacheMetadata

open Fallible Segments Lines LittleEndian SimpleCacheFormat

/-- How many bytes are missing to the next multiple of four. -/
def padding (n : Nat) : Nat := (4 - n % 4) % 4

theorem padding_le (n : Nat) : padding n ≤ 3 := by
  rw [padding]
  omega

theorem add_padding_mod (n : Nat) : (n + padding n) % 4 = 0 := by
  rw [padding]
  omega

theorem align4_nat (n : Nat) (h : n + 3 < 2 ^ 31) : align4 (n : Int) = ((n + padding n : Nat) : Int) := by
  rw [align4, i32_nat ((n : Int) + 3) (n + 3) (by omega) h, padding]
  omega

/-- A wrapped sum has the same padding. -/
theorem padding_int (m n : Nat) :
    (4 - i32 ((m : Int) + n) % 4) % 4 = ((padding (m + n) : Nat) : Int) := by
  rw [padding]
  unfold i32
  omega

/-- Where nothing is left behind the aligned end, the size of the rest is negative, also when
aligning wraps. -/
theorem rest_negative (l n : Nat) (hn : n ≤ l) (h : l < n + padding n) :
    i32 ((l : Int) - align4 n) < 0 := by
  rw [padding] at h
  rw [align4]
  unfold i32
  omega

/-- The parts `patchContentLength` puts together: what precedes the string's length, the new length
and string, padding and what follows the old string. -/
def spliced (s : List Byte) (hs hlen : Nat) (block : List Byte) : List Byte :=
  s.take (hs - 4) ++ (bytes 4 (BitVec.ofNat 32 block.length) ++ (block ++
    (List.replicate (padding (hs + block.length)) 0 ++ s.drop (hs + hlen + padding (hs + hlen)))))

/-- Stream 0 with another header string: the parts, and their size in the first word. -/
def withBlock (s : List Byte) (hs hlen : Nat) (block : List Byte) : List Byte :=
  overwrite (spliced s hs hlen block) 0
    (bytes 4 (BitVec.ofInt 32 ((spliced s hs hlen block).length - 4)))

theorem spliced_length (s : List Byte) (hs hlen : Nat) (block : List Byte) (h4 : 4 ≤ hs)
    (hend : hs + hlen + padding (hs + hlen) ≤ s.length) : (spliced s hs hlen block).length =
      hs + block.length + padding (hs + block.length) +
        (s.length - (hs + hlen + padding (hs + hlen))) := by
  simp only [spliced, List.length_append, List.length_take, List.length_drop, List.length_replicate,
    bytes_length]
  omega

theorem withBlock_length (s : List Byte) (hs hlen : Nat) (block : List Byte) (h4 : 4 ≤ hs)
    (hend : hs + hlen + padding (hs + hlen) ≤ s.length) :
    (withBlock s hs hlen block).length = (spliced s hs hlen block).length := by
  have hl := spliced_length s hs hlen block h4 hend
  exact overwrite_length _ _ _ (by rw [bytes_length]; omega)

/-- The block of stream 0 with the content-length replaced by a number. -/
def newBlock (s : List Byte) (hs hlen : Nat) (n : Int) : List Byte :=
  patchedBlock (JString.ofInt n).getBytes (seg s hs hlen)

/-- The patched stream 0. -/
def patched (s : List Byte) (hs hlen : Nat) (n : Int) : List Byte :=
  withBlock s hs hlen (newBlock s hs hlen n)

/-- Stream 0 has a content-length line in its header block. -/
def HasLength (s : List Byte) (hs hlen : Nat) : Prop :=
  ∃ l ∈ linesOf (seg s hs hlen), startsWith lengthNeedle l

theorem patchContentLength_absent (jdk : Jdk) (s : Bytes) (n : Int) (h : headerOffset s = .ok (-1)) :
    patchContentLength jdk s n = .ok s := by
  rw [patchContentLength, h, ok_bind, if_pos (by decide)]

/-- A patch gets as far as the replacement of the content-length. -/
theorem slice_block (s : Bytes) (hs hlen : Nat) (h : BlockAt s.list hs hlen) :
    slice s hs hlen = .ok (s.sub hs hlen) := slice_in s hs hlen h.inside

theorem patchContentLength_noLine (jdk : Jdk) (s : Bytes) (n : Int) (hs hlen : Nat)
    (h : BlockAt s.list hs hlen) (hline : ¬HasLength s.list hs hlen) :
    patchContentLength jdk s n = .ok s := by
  obtain ⟨v, hv, hvi⟩ := blockAt_u32 s hs hlen h
  have hr := replaceContentLength_none jdk (s.sub hs hlen) (JString.ofInt n)
    fun l hl hw => hline ⟨l, hl, hw⟩
  rw [patchContentLength, headerOffset_block s hs hlen h, ok_bind, if_neg (by omega), hv, ok_bind]
  simp only [hvi, slice_block s hs hlen h, ok_bind, hr]

/-- The steps behind the replacement. -/
theorem patchContentLength_line (jdk : Jdk) (s : Bytes) (n : Int) (hs hlen : Nat)
    (h : BlockAt s.list hs hlen) (block : Bytes)
    (hr : replaceContentLength jdk (s.sub hs hlen) (JString.ofInt n) = .ok (some block)) :
    patchContentLength jdk s n = (do
      let rest ← slice s (align4 ((hs + hlen : Nat) : Int))
        (i32 (s.length - align4 ((hs + hlen : Nat) : Int)))
      let lenBytes ← newBytes 4
      let lenBytes ← putU32 lenBytes 0 (BitVec.ofNat 32 block.length)
      let pad ← newBytes ((4 - i32 ((hs : Int) + block.length) % 4) % 4)
      let out ← concat [s.sub 0 (hs - 4), lenBytes, block, pad, rest]
      putU32 out 0 (BitVec.ofInt 32 (out.length - 4))) := by
  obtain ⟨v, hv, hvi⟩ := blockAt_u32 s hs hlen h
  have hin := h.inside
  have h4 := h.four
  have hl := s.length_lt'
  have he : s.length = s.list.length := rfl
  have hsub : i32 ((hs : Int) - 4) = ((hs - 4 : Nat) : Int) := i32_nat _ _ (by omega) (by omega)
  have hsum : i32 ((hs : Int) + hlen) = ((hs + hlen : Nat) : Int) := i32_nat _ _ (by omega) (by omega)
  have hhead : slice s 0 ((hs - 4 : Nat) : Int) = .ok (s.sub 0 (hs - 4)) :=
    slice_at s 0 _ 0 (hs - 4) rfl rfl (by omega)
  rw [patchContentLength, headerOffset_block s hs hlen h, ok_bind, if_neg (by omega), hv, ok_bind]
  simp only [hvi, slice_block s hs hlen h, ok_bind, hr, hsum]
  rw [hsub, hhead, ok_bind]

/-- The parts as arrays, with the aligned end inside stream 0. -/
theorem patchContentLength_parts (jdk : Jdk) (s : Bytes) (n : Int) (hs hlen : Nat)
    (h : BlockAt s.list hs hlen) (block : Bytes)
    (hr : replaceContentLength jdk (s.sub hs hlen) (JString.ofInt n) = .ok (some block))
    (hend : hs + hlen + padding (hs + hlen) ≤ s.length) :
    ∃ parts, joined parts = spliced s.list hs hlen block.list ∧ patchContentLength jdk s n =
      (concat parts >>= fun out => putU32 out 0 (BitVec.ofInt 32 (out.length - 4))) := by
  have hl := s.length_lt'
  have he : s.length = s.list.length := rfl
  have hpad0 : padding (hs + block.length) < 2 ^ 31 := by
    rw [padding]
    omega
  have halign : align4 ((hs + hlen : Nat) : Int) = ((hs + hlen + padding (hs + hlen) : Nat) : Int) := by
    rw [padding] at hend
    exact align4_nat _ (by omega)
  have hsize : i32 ((s.length : Int) - ((hs + hlen + padding (hs + hlen) : Nat) : Int)) =
      ((s.length - (hs + hlen + padding (hs + hlen)) : Nat) : Int) := i32_nat _ _ (by omega) (by omega)
  have hrest := slice_in s (hs + hlen + padding (hs + hlen))
    (s.length - (hs + hlen + padding (hs + hlen))) (by omega)
  have hfour := newBytes_of_nat 4 (by decide)
  rw [Nat.cast_ofNat] at hfour
  obtain ⟨b, hb, lb⟩ := putU32_next ⟨List.replicate 4 0, by decide⟩ [] 0 0
    (BitVec.ofNat 32 block.length) rfl rfl
  rw [List.replicate_zero, List.append_nil, List.nil_append] at lb
  refine ⟨[s.sub 0 (hs - 4), b, block, ⟨List.replicate (padding (hs + block.length)) 0,
    by rw [List.length_replicate]; exact hpad0⟩,
    s.sub (hs + hlen + padding (hs + hlen)) (s.length - (hs + hlen + padding (hs + hlen)))], ?_, ?_⟩
  · have htail : seg s.list (hs + hlen + padding (hs + hlen))
        (s.length - (hs + hlen + padding (hs + hlen))) =
        s.list.drop (hs + hlen + padding (hs + hlen)) := by
      rw [seg, he, ← List.length_drop, List.take_length]
    have hhead : seg s.list 0 (hs - 4) = s.list.take (hs - 4) := rfl
    simp only [joined, List.map_cons, List.map_nil, List.flatten_cons, List.flatten_nil,
      Bytes.sub_list, htail, hhead, lb, List.append_nil, spliced]
    rfl
  · rw [patchContentLength_line jdk s n hs hlen h block hr, halign, hsize, hrest, ok_bind, hfour,
      ok_bind, hb, ok_bind, padding_int, newBytes_of_nat _ hpad0, ok_bind]

/-- Enough room behind the block for its padding, and the result fits an array. -/
def PatchFits (s : List Byte) (hs hlen : Nat) (n : Int) : Prop :=
  hs + hlen + padding (hs + hlen) ≤ s.length ∧ (patched s hs hlen n).length < 2 ^ 31

theorem newBlock_length_le (s : List Byte) (hs hlen : Nat) (n : Int) :
    (newBlock s hs hlen n).length ≤ (spliced s hs hlen (newBlock s hs hlen n)).length := by
  simp only [spliced, List.length_append]
  omega

theorem patchContentLength_fits (jdk : Jdk) (s : Bytes) (n : Int) (hs hlen : Nat)
    (h : BlockAt s.list hs hlen) (hline : HasLength s.list hs hlen) (hfit : PatchFits s.list hs hlen n) :
    patchContentLength jdk s n = .ok ⟨patched s.list hs hlen n, hfit.2⟩ := by
  have h4 := h.four
  have hle := newBlock_length_le s.list hs hlen n
  have hw := withBlock_length s.list hs hlen (newBlock s.list hs hlen n) h4 hfit.1
  have hlt : (spliced s.list hs hlen (newBlock s.list hs hlen n)).length < 2 ^ 31 := hw ▸ hfit.2
  have hr := replaceContentLength_lines jdk (s.sub hs hlen) (JString.ofInt n) hline
    (Nat.lt_of_le_of_lt hle hlt)
  obtain ⟨parts, hj, hp⟩ := patchContentLength_parts jdk s n hs hlen h _ hr hfit.1
  have hfour : 4 ≤ (spliced s.list hs hlen (newBlock s.list hs hlen n)).length := by
    rw [spliced_length s.list hs hlen _ h4 hfit.1]
    omega
  obtain ⟨out, hput, lout⟩ := putU32_in ⟨_, hlt⟩ 0 (BitVec.ofInt 32
    ((spliced s.list hs hlen (newBlock s.list hs hlen n)).length - 4)) hfour
  have hc : concat parts = .ok ⟨_, hlt⟩ := (concat_eq_ok _ _).mpr hj.symm
  rw [hp, hc, ok_bind]
  exact hput.trans (congrArg Except.ok (Bytes.ext lout))

theorem patchContentLength_throws (jdk : Jdk) (s : Bytes) (n : Int) (hs hlen : Nat)
    (h : BlockAt s.list hs hlen) (hline : HasLength s.list hs hlen)
    (hfit : ¬PatchFits s.list hs hlen n) : ∃ x, patchContentLength jdk s n = .error x := by
  have h4 := h.four
  have hin := h.inside
  have he : s.length = s.list.length := rfl
  by_cases hnew : (newBlock s.list hs hlen n).length < 2 ^ 31
  · have hr := replaceContentLength_lines jdk (s.sub hs hlen) (JString.ofInt n) hline hnew
    by_cases hend : hs + hlen + padding (hs + hlen) ≤ s.length
    · obtain ⟨parts, hj, hp⟩ := patchContentLength_parts jdk s n hs hlen h _ hr hend
      have hw := withBlock_length s.list hs hlen (newBlock s.list hs hlen n) h4 hend
      rw [hp]
      cases hc : concat parts with
      | error x => exact ⟨x, error_bind x _⟩
      | ok out =>
        have hout := (concat_eq_ok _ _).mp hc
        have hlt := out.length_lt
        rw [hout, hj] at hlt
        exact absurd ⟨hend, hw ▸ hlt⟩ hfit
    · have hneg := rest_negative s.length (hs + hlen) hin (by omega)
      rw [patchContentLength_line jdk s n hs hlen h _ hr, slice_neg _ _ _ hneg, error_bind]
      exact ⟨_, rfl⟩
  · have hr := replaceContentLength_big jdk (s.sub hs hlen) (JString.ofInt n) hline hnew
    obtain ⟨v, hv, hvi⟩ := blockAt_u32 s hs hlen h
    rw [patchContentLength, headerOffset_block s hs hlen h, ok_bind, if_neg (by omega), hv, ok_bind]
    simp only [hvi, slice_block s hs hlen h, ok_bind, hr, error_bind]
    exact ⟨_, rfl⟩

end SimpleCacheTool.HttpCacheMetadata
