import SimpleCacheTool.Metadata.Stability

namespace SimpleCacheTool.HttpCacheMetadata

open Fallible Segments Lines JString

/-- The decimal a patch writes. -/
def digits (n : Int) : List Byte := (JString.ofInt n).getBytes

theorem latin1_digits (n : Nat) : latin1 (digits n) = JString.ofInt n := by
  apply latin1_getBytes _
  intro c hc
  have h := ofInt_digits n c hc
  omega

theorem digits_length (n : Int) : (digits n).length = (JString.ofInt n).length := List.length_map _

theorem digits_ne_zero (n : Nat) : 0#8 ∉ digits n := by
  intro h
  have hm : (0#8).setWidth 16 ∈ latin1 (digits n) := List.mem_map_of_mem h
  rw [latin1_digits] at hm
  exact absurd (ofInt_digits n _ hm).1 (by decide)

theorem trim_digits (n : Nat) : (JString.ofInt n).trim = JString.ofInt n := by
  apply trim_of_none _
  intro c hc hs
  have h := ofInt_digits n c hc
  simp only [isSpace, decide_eq_true_eq] at hs
  omega

/-! A content-length line with another value. -/

theorem lengthNeedle_length : lengthNeedle.length = 15 := by decide

theorem startsWith_length (line : List Byte) (h : startsWith lengthNeedle line) : 15 ≤ line.length := by
  have hl := ((startsWith_iff lengthNeedle line).mp h).length_le
  rwa [List.length_map] at hl

theorem take_setValue (value line : List Byte) (h : startsWith lengthNeedle line) :
    (setValue value line).take 15 = line.take 15 := by
  have hl := startsWith_length line h
  rw [setValue, List.take_append_of_le_length (by rw [List.length_take]; omega), List.take_take]
  rfl

theorem drop_setValue (value line : List Byte) (h : startsWith lengthNeedle line) :
    (setValue value line).drop 15 = value := by
  have hl : (line.take 15).length = 15 := by
    have h15 := startsWith_length line h
    rw [List.length_take]
    omega
  have hd : (line.take 15 ++ value).drop (line.take 15).length = value := List.drop_left
  rwa [hl] at hd

theorem startsWith_take (line : List Byte) :
    startsWith lengthNeedle line ↔ startsWith lengthNeedle (line.take 15) := by
  rw [startsWith_iff, startsWith_iff, List.map_take, ← lengthNeedle_length, List.prefix_take_iff]
  exact ⟨fun h => ⟨h, Nat.le_refl _⟩, fun h => h.1⟩

theorem startsWith_setValue (value line : List Byte) (h : startsWith lengthNeedle line) :
    startsWith lengthNeedle (setValue value line) := by
  rw [startsWith_take, take_setValue value line h, ← startsWith_take]
  exact h

theorem setValue_setValue (v w line : List Byte) (h : startsWith lengthNeedle line) :
    setValue w (setValue v line) = setValue w line := by
  rw [setValue, take_setValue v line h, setValue]

theorem zero_setValue (value line : List Byte) (hv : 0#8 ∉ value) (hl : 0#8 ∉ line) :
    0#8 ∉ setValue value line := by
  rw [setValue, List.mem_append, not_or]
  exact ⟨fun h => hl (List.mem_of_mem_take h), hv⟩

/-! The patched lines. -/

theorem zero_patchedLines (value : List Byte) (ls : List (List Byte)) (hv : 0#8 ∉ value)
    (hz : ∀ l ∈ ls, 0#8 ∉ l) : ∀ l ∈ patchedLines value ls, 0#8 ∉ l := by
  intro l hl
  rcases mem_updateFirst _ _ ls l hl with h | ⟨a, ha, -, rfl⟩
  · exact hz l h
  · exact zero_setValue value a hv (hz a ha)

theorem patchedLines_ne_nil (value : List Byte) (ls : List (List Byte)) (h : ls ≠ []) :
    patchedLines value ls ≠ [] := by
  obtain ⟨l, rest, rfl⟩ := List.exists_cons_of_ne_nil h
  rw [patchedLines, updateFirst_cons]
  split_ifs <;> simp

/-- The block written is read back line by line. -/
theorem linesOf_patchedBlock (value block : List Byte) (hv : 0#8 ∉ value) :
    linesOf (patchedBlock value block) = patchedLines value (linesOf block) :=
  linesOf_intercalate _ (patchedLines_ne_nil value _ (linesOf_ne_nil block))
    (zero_patchedLines value _ hv (not_mem_linesOf block))

theorem patchedLines_patchedLines (v w : List Byte) (ls : List (List Byte)) :
    patchedLines w (patchedLines v ls) = patchedLines w ls :=
  updateFirst_updateFirst _ _ _ ls (startsWith_setValue v) (setValue_setValue v w)

/-- Only the last value written counts. -/
theorem patchedBlock_patchedBlock (v w block : List Byte) (hv : 0#8 ∉ v) :
    patchedBlock w (patchedBlock v block) = patchedBlock w block := by
  rw [patchedBlock, linesOf_patchedBlock v block hv, patchedLines_patchedLines]
  rfl

theorem patchedLines_hasLength (value : List Byte) (ls : List (List Byte))
    (h : ∃ l ∈ ls, startsWith lengthNeedle l) :
    ∃ l ∈ patchedLines value ls, startsWith lengthNeedle l := by
  rcases find?_split (startsWith lengthNeedle) ls with hnone | ⟨pre, a, post, rfl, hpre, ha, -⟩
  · obtain ⟨l, hl, hs⟩ := h
    exact absurd hs (hnone l hl)
  · rw [patchedLines, updateFirst_split _ _ pre a post hpre ha]
    exact ⟨_, by simp, startsWith_setValue value a ha⟩

/-- The patched block's size: the first content-length line has its value exchanged. -/
theorem patchedBlock_length (value block : List Byte) (line : List Byte)
    (h : (linesOf block).find? (startsWith lengthNeedle) = some line) :
    (patchedBlock value block).length + line.length = block.length + 15 + value.length := by
  rcases find?_split (startsWith lengthNeedle) (linesOf block) with
    hnone | ⟨pre, a, post, hl, hpre, ha, hf⟩
  · rw [List.find?_eq_none.mpr hnone] at h
    cases h
  · obtain rfl : a = line := Option.some.inj (hf.symm.trans h)
    have h15 := startsWith_length a ha
    have hb := block_split block pre a post hl
    have hp : patchedBlock value block =
        before 0#8 pre ++ (setValue value a ++ after 0#8 post) := by
      rw [patchedBlock, patchedLines, hl, updateFirst_split _ _ pre a post hpre ha, intercalate_split]
    rw [hp, hb]
    simp only [setValue, List.length_append, List.length_take]
    omega

/-- The status line stays the first line. -/
theorem patchedBlock_status (value block : List Byte) (h : httpBytes <+: block) :
    httpBytes <+: patchedBlock value block := by
  obtain ⟨first, rest, hl⟩ := List.exists_cons_of_ne_nil (linesOf_ne_nil block)
  have hb := block_cons block first rest hl
  have hmap : (first ++ after 0#8 rest).map id = block := by rw [List.map_id, hb]
  have hfirst : httpBytes <+: first := by
    have ho := occurs_line 0#8 id httpBytes (by decide) first rest
    rw [hmap, List.map_id] at ho
    exact ho.mp h
  -- it is no content-length line
  have hno : ¬startsWith lengthNeedle first := by
    intro hs
    have hp := (startsWith_iff lengthNeedle first).mp hs
    have h0 := List.prefix_iff_getElem?.mp hp 0 (by decide)
    have h0' := List.prefix_iff_getElem?.mp hfirst 0 (by decide)
    rw [List.getElem?_map, h0'] at h0
    exact absurd h0 (by decide)
  rw [patchedBlock, patchedLines, hl, updateFirst_cons, if_neg hno, intercalate_cons]
  exact hfirst.trans (List.prefix_append _ _)

/-! Reading headers from the patched lines. -/

theorem valueOf_patchedLines (n : Nat) (ls : List (List Byte))
    (h : ∃ l ∈ ls, startsWith lengthNeedle l) :
    valueOf lengthNeedle (patchedLines (digits n) ls) = some (JString.ofInt n) := by
  rcases find?_split (startsWith lengthNeedle) ls with hnone | ⟨pre, a, post, hl, -, ha, hf⟩
  · obtain ⟨l, hl, hs⟩ := h
    exact absurd hs (hnone l hl)
  · rw [valueOf, patchedLines, find?_updateFirst _ _ _ (startsWith_setValue (digits n)), hf,
      Option.map_some, Option.map_some, lengthNeedle_length, drop_setValue _ a ha, latin1_digits,
      trim_digits]

theorem takeWhile_colon (name t : JString) (hc : 0x3a#16 ∉ name) :
    (name ++ ([0x3a#16] ++ t)).takeWhile (· ≠ 0x3a#16) = name := by
  have hall : ∀ c ∈ name, decide (c ≠ 0x3a#16) = true := by
    intro c hm
    exact decide_eq_true fun h => hc (h ▸ hm)
  rw [List.takeWhile_append_of_pos hall]
  simp

/-- A line that starts with a name and a colon starts with no other name and a colon. -/
theorem startsWith_name (name : JString) (line : List Byte) (hc : 0x3a#16 ∉ name)
    (h : startsWith lengthNeedle line) (hn : startsWith (name ++ lit ":") line) :
    name = lit "content-length" := by
  obtain ⟨r, hr⟩ := (startsWith_iff _ _).mp h
  obtain ⟨t, ht⟩ := (startsWith_iff _ _).mp hn
  have hl : lengthNeedle = lit "content-length" ++ [0x3a#16] := by decide
  rw [hl, List.append_assoc] at hr
  have hsplit : lit ":" = [0x3a#16] := by decide
  rw [hsplit, List.append_assoc] at ht
  rw [← takeWhile_colon name t hc, ht, ← hr, takeWhile_colon _ r (by decide)]

/-- The other headers are read as before. -/
theorem valueOf_other (name : JString) (value : List Byte) (ls : List (List Byte))
    (hc : 0x3a#16 ∉ name) (hn : name ≠ lit "content-length") :
    valueOf (name ++ lit ":") (patchedLines value ls) = valueOf (name ++ lit ":") ls := by
  rw [valueOf, valueOf, patchedLines, find?_updateFirst_other]
  intro a ha
  exact ⟨fun h => hn (startsWith_name name a hc ha h),
    fun h => hn (startsWith_name name _ hc (startsWith_setValue value a ha) h)⟩

end SimpleCacheTool.HttpCacheMetadata
