import SimpleCacheTool.Metadata.HttpCacheMetadata

namespace SimpleCacheTool.HttpCacheMetadata

open Fallible Lines JString

/-- The lines of a header block. -/
def linesOf (block : List Byte) : List (List Byte) := block.splitOn 0#8

/-- A line starts with the needle, letter case aside. -/
def startsWith (needle : JString) (line : List Byte) : Bool :=
  needle.isPrefixOf (line.map lowerByte)

theorem startsWith_iff (needle : JString) (line : List Byte) :
    startsWith needle line ↔ needle <+: line.map lowerByte := List.isPrefixOf_iff_prefix

theorem linesOf_ne_nil (block : List Byte) : linesOf block ≠ [] := List.splitOn_ne_nil _ _

theorem intercalate_linesOf (block : List Byte) : [0#8].intercalate (linesOf block) = block :=
  List.intercalate_splitOn _

/-- A block divides at one of its lines. -/
theorem block_split (block : List Byte) (pre : List (List Byte)) (line : List Byte)
    (post : List (List Byte)) (h : linesOf block = pre ++ line :: post) :
    block = before 0#8 pre ++ (line ++ after 0#8 post) := by
  rw [← intercalate_split, ← h, intercalate_linesOf]

theorem block_cons (block line : List Byte) (post : List (List Byte)) (h : linesOf block = line :: post) :
    block = line ++ after 0#8 post := block_split block [] line post h

theorem not_mem_linesOf (block : List Byte) : ∀ line ∈ linesOf block, 0#8 ∉ line := by
  induction block with
  | nil => simp [linesOf]
  | cons b block ih =>
    rw [linesOf, List.splitOn_cons_eq_if_modifyHead]
    by_cases hb : b = 0#8
    · rw [if_pos (by simp [hb])]
      intro line hline
      rcases List.mem_cons.mp hline with rfl | h
      · simp
      · exact ih line h
    · rw [if_neg (by simpa using hb)]
      obtain ⟨first, rest, hl⟩ := List.exists_cons_of_ne_nil (linesOf_ne_nil block)
      rw [← linesOf, hl, List.modifyHead_cons]
      rw [hl] at ih
      intro line hline
      rcases List.mem_cons.mp hline with rfl | h
      · have hf := ih first List.mem_cons_self
        simpa using ⟨fun h => hb h.symm, hf⟩
      · exact ih line (List.mem_cons_of_mem _ h)

theorem linesOf_intercalate (ls : List (List Byte)) (hne : ls ≠ []) (hz : ∀ l ∈ ls, 0#8 ∉ l) :
    linesOf ([0#8].intercalate ls) = ls := List.splitOn_intercalate _ hz hne

theorem charAt_latin1 (l : List Byte) (i : Nat) (h : i < l.length) :
    (latin1 l).charAt i = .ok (l[i].setWidth 16) := by
  rw [charAt, latin1, List.getElem?_map, List.getElem?_eq_getElem h]
  rfl

theorem setWidth_eq_zero (b : Byte) : b.setWidth 16 = 0#16 ↔ b = 0#8 := by
  have hb := b.isLt
  rw [← BitVec.toNat_inj, ← BitVec.toNat_inj, BitVec.toNat_setWidth, BitVec.toNat_ofNat,
    BitVec.toNat_ofNat]
  omega

/-- The needle stands at the start of a line. -/
abbrev Stands (needle : JString) (l : List Byte) (i : Nat) : Prop :=
  StandsAt 0#8 lowerByte needle l i

theorem stands_occurs (needle : JString) (l : List Byte) (i : Nat) (h : Stands needle l i) :
    needle <+: (l.map lowerByte).drop i := by
  rw [← List.map_drop]
  exact h.2

theorem startsLine_pos (l : List Byte) (i : Nat) (hi : 0 < i) (hl : i ≤ l.length) :
    StartsLine 0#8 l i ↔ l[i - 1] = 0#8 := by
  have hb : i - 1 < l.length := by omega
  rw [StartsLine, List.getElem?_eq_getElem hb, Option.some_inj]
  constructor
  · rintro (rfl | ⟨-, h⟩)
    · omega
    · exact h
  · exact fun h => .inr ⟨hi, h⟩

/-- The loop gets to the first line that starts with the needle, whatever it skips. -/
theorem lineStartLoop_spec (l : List Byte) (needle : JString) (hn : needle ≠ []) (rounds start : Nat)
    (hr : l.length + 2 ≤ rounds + start) (hq : ∀ j < start, ¬Stands needle l j) :
    (∃ i, IsLeast {j | Stands needle l j} i ∧ lineStartLoop (latin1 l) (l.map lowerByte) needle
      rounds (JString.indexOf (l.map lowerByte) needle start) = .ok (some i)) ∨
    ((∀ j, ¬Stands needle l j) ∧ lineStartLoop (latin1 l) (l.map lowerByte) needle rounds
      (JString.indexOf (l.map lowerByte) needle start) = .ok none) := by
  have hlen := List.length_pos_of_ne_nil hn
  induction rounds generalizing start with
  | zero =>
    refine .inr ⟨fun j hj => ?_, rfl⟩
    have ho := occurs_length needle _ j hn (stands_occurs needle l j hj)
    rw [List.length_map] at ho
    exact hq j (by omega) hj
  | succ rounds ih =>
    rcases JString.indexOf_cases (l.map lowerByte) needle start hn with
      ⟨i, hi, ho, hindex⟩ | ⟨hnone, hindex⟩
    · have hsi : start ≤ i := hi.1.1
      rw [List.length_map] at ho
      have hocc : needle <+: (l.drop i).map lowerByte := by
        rw [List.map_drop]
        exact hi.1.2
      -- no line with the needle starts before the occurrence
      have hbefore : ∀ j < i, ¬Stands needle l j := fun j hj hs => by
        by_cases hjs : start ≤ j
        · have hle := hi.2 ⟨hjs, stands_occurs needle l j hs⟩
          omega
        · exact hq j (by omega) hs
      rw [hindex, lineStartLoop]
      by_cases h0 : 0 < i
      · rw [if_pos h0, charAt_latin1 l (i - 1) (by omega), ok_bind]
        have hstart := startsLine_pos l i h0 (by omega)
        by_cases hz : l[i - 1] = 0#8
        · rw [if_neg (not_not.mpr ((setWidth_eq_zero _).mpr hz))]
          exact .inl ⟨i, least_of_before _ i ⟨hstart.mpr hz, hocc⟩ hbefore, rfl⟩
        · rw [if_pos (fun hc => hz ((setWidth_eq_zero _).mp hc))]
          apply ih (i + 1) (by omega)
          intro j hj hs
          by_cases hji : j = i
          · subst hji
            exact hz (hstart.mp hs.1)
          · exact hbefore j (by omega) hs
      · rw [if_neg h0]
        obtain rfl : i = 0 := by omega
        exact .inl ⟨0, ⟨⟨.inl rfl, hocc⟩, fun j _ => Nat.zero_le j⟩, rfl⟩
    · rw [hindex, lineStartLoop]
      refine .inr ⟨fun j hj => ?_, rfl⟩
      by_cases hjs : start ≤ j
      · exact hnone j hjs (stands_occurs needle l j hj)
      · exact hq j (by omega) hj

theorem findLine_spec (jdk : Jdk) (l : List Byte) (needle : JString) (hn : needle ≠ []) :
    (∃ i, IsLeast {j | Stands needle l j} i ∧ findLine jdk (latin1 l) needle = .ok (some i)) ∨
    ((∀ j, ¬Stands needle l j) ∧ findLine jdk (latin1 l) needle = .ok none) := by
  have h := lineStartLoop_spec l needle hn (l.length + 2) 0 (by omega) fun j hj => by omega
  rwa [← List.length_map (f := lowerByte), ← latin1_toLowerCase jdk.toLowerCase] at h

theorem lowerByte_zero : lowerByte 0#8 = 0#16 := by decide

/-- Splitting the block at its NULs finds the same line. -/
theorem findLine_first (jdk : Jdk) (block : List Byte) (needle : JString) (hn : needle ≠ [])
    (hz : 0#16 ∉ needle) (pre : List (List Byte)) (line : List Byte) (post : List (List Byte))
    (hl : linesOf block = pre ++ line :: post) (hpre : ∀ l ∈ pre, ¬startsWith needle l)
    (hline : startsWith needle line) :
    findLine jdk (latin1 block) needle = .ok (some (before 0#8 pre).length) := by
  have hleast := least_standsAt 0#8 lowerByte needle (by rwa [lowerByte_zero]) pre line post
    (hl ▸ not_mem_linesOf block) (fun l h => mt (startsWith_iff needle l).mpr (hpre l h))
    ((startsWith_iff needle line).mp hline)
  rw [← hl, intercalate_linesOf] at hleast
  rcases findLine_spec jdk block needle hn with ⟨i, hi, h⟩ | ⟨hnone, -⟩
  · rw [h, hi.unique hleast]
  · exact absurd hleast.1 (hnone _)

theorem findLine_none (jdk : Jdk) (block : List Byte) (needle : JString) (hn : needle ≠ [])
    (hz : 0#16 ∉ needle) (h : ∀ l ∈ linesOf block, ¬startsWith needle l) :
    findLine jdk (latin1 block) needle = .ok none := by
  have hnone := no_standsAt 0#8 lowerByte needle (by rwa [lowerByte_zero]) (linesOf block)
    (linesOf_ne_nil block) (not_mem_linesOf block)
    fun l hl => mt (startsWith_iff needle l).mpr (h l hl)
  rw [intercalate_linesOf] at hnone
  rcases findLine_spec jdk block needle hn with ⟨i, hi, -⟩ | ⟨-, hf⟩
  · exact absurd hi.1 (hnone i)
  · exact hf

theorem occurs_zero (l : List Byte) (j : Nat) :
    [0#16] <+: (latin1 l).drop j ↔ l[j]? = some 0#8 := by
  rw [latin1, ← List.map_drop]
  cases h : l.drop j with
  | nil =>
    rw [List.drop_eq_nil_iff] at h
    rw [List.getElem?_eq_none h]
    simp
  | cons b rest =>
    have hj : l[j]? = some b := by
      have hg : (l.drop j)[0]? = some b := by rw [h]; rfl
      rwa [List.getElem?_drop, Nat.add_zero] at hg
    rw [hj, List.map_cons, List.cons_prefix_cons, Option.some_inj, ← setWidth_eq_zero]
    simp [eq_comm]

theorem lineEnd_bounds (l : List Byte) (start : Nat) (h : start ≤ l.length) :
    start ≤ lineEnd (latin1 l) start ∧ lineEnd (latin1 l) start ≤ l.length := by
  rw [lineEnd, indexOfChar]
  rcases JString.indexOf_cases (latin1 l) [0#16] start (by simp) with
    ⟨i, hi, ho, hindex⟩ | ⟨-, hindex⟩
  · rw [latin1_length, List.length_singleton] at ho
    rw [hindex]
    exact ⟨hi.1.1, Nat.le_of_succ_le ho⟩
  · rw [hindex]
    exact ⟨by rw [latin1_length]; exact h, by rw [latin1_length]⟩

/-- From inside a line, `lineEnd` is where the line ends. -/
theorem lineEnd_line (pre : List (List Byte)) (line : List Byte) (post : List (List Byte)) (k : Nat)
    (hk : k ≤ line.length) (hz : 0#8 ∉ line) :
    lineEnd (latin1 (before 0#8 pre ++ (line ++ after 0#8 post))) ((before 0#8 pre).length + k) =
      (before 0#8 pre).length + line.length := by
  have hin : ∀ j, (before 0#8 pre).length + k ≤ j → j < (before 0#8 pre).length + line.length →
      (before 0#8 pre ++ (line ++ after 0#8 post))[j]? ≠ some 0#8 := fun j hj hlt h => by
    rw [List.getElem?_append_right (by omega), List.getElem?_append_left (by omega)] at h
    exact hz (List.mem_of_getElem? h)
  rw [lineEnd, indexOfChar]
  rcases post with - | ⟨a, post⟩
  · have hnone := JString.indexOf_none (latin1 (before 0#8 pre ++ (line ++ after 0#8 []))) [0#16]
      ((before 0#8 pre).length + k) (by simp) fun j hj ho => by
        rw [occurs_zero] at ho
        have hl := (List.getElem?_eq_some_iff.mp ho).1
        simp only [after_nil, List.append_nil, List.length_append] at hl
        exact hin j hj hl ho
    rw [hnone]
    simp
  · have hleast : IsLeast {j | (before 0#8 pre).length + k ≤ j ∧
        [0#16] <+: (latin1 (before 0#8 pre ++ (line ++ after 0#8 (a :: post)))).drop j}
        ((before 0#8 pre).length + line.length) := by
      refine least_of_before _ _ ⟨by omega, ?_⟩ fun j hlt hj => ?_
      · rw [occurs_zero, List.getElem?_append_right (by omega), Nat.add_sub_cancel_left,
          List.getElem?_append_right (Nat.le_refl _), Nat.sub_self]
        rfl
      · have ho := hj.2
        rw [occurs_zero] at ho
        exact hin j hj.1 hlt ho
    rw [JString.indexOf_least _ [0#16] _ _ (by simp) hleast]

theorem substring_latin1 (l : List Byte) (first last : Nat) (h : first ≤ last ∧ last ≤ l.length) :
    (latin1 l).substring first last = .ok (latin1 ((l.take last).drop first)) := by
  rw [substring, latin1_length, if_pos h, latin1, latin1, List.map_drop, List.map_take]

/-- What follows the needle on the first line that starts with it, trimmed. -/
def valueOf (needle : JString) (ls : List (List Byte)) : Option JString :=
  (ls.find? (startsWith needle)).map fun line => trim (latin1 (line.drop needle.length))

/-- `headerValue` in terms of lines. -/
theorem headerValue_lines (jdk : Jdk) (stream0 : Bytes) (name : JString) (block : List Byte)
    (hb : headerBlock stream0 = .ok (some (latin1 block)))
    (hz : 0#16 ∉ name.toLowerCase jdk.toLowerCase ++ lit ":") :
    headerValue jdk stream0 name =
      .ok (valueOf (name.toLowerCase jdk.toLowerCase ++ lit ":") (linesOf block)) := by
  have hn : name.toLowerCase jdk.toLowerCase ++ lit ":" ≠ [] := by simp [lit]
  rw [headerValue, hb, ok_bind]
  generalize name.toLowerCase jdk.toLowerCase ++ lit ":" = needle at hz hn ⊢
  rcases find?_split (startsWith needle) (linesOf block) with
    hnone | ⟨pre, line, post, hl, hpre, hline, hf⟩
  · simp only [findLine_none jdk block needle hn hz hnone, ok_bind]
    rw [valueOf, List.find?_eq_none.mpr hnone]
    rfl
  · simp only [findLine_first jdk block needle hn hz pre line post hl hpre hline, ok_bind]
    have hlen : needle.length ≤ line.length := by
      have h := ((startsWith_iff needle line).mp hline).length_le
      rwa [List.length_map] at h
    have hzl : 0#8 ∉ line := not_mem_linesOf block line (by rw [hl]; simp)
    have hblock := block_split block pre line post hl
    have hbl : (before 0#8 pre).length + line.length ≤ block.length := by
      rw [hblock]
      simp only [List.length_append]
      omega
    have hend := lineEnd_line pre line post needle.length hlen hzl
    rw [← hblock] at hend
    have htake : block.take ((before 0#8 pre).length + line.length) = before 0#8 pre ++ line := by
      rw [hblock, ← List.append_assoc, ← List.length_append, List.take_left]
    rw [hend, substring_latin1 block _ _ ⟨by omega, hbl⟩, ok_bind, htake, ← List.drop_drop,
      List.drop_left, valueOf, hf]
    rfl

/-! Replacing the content-length. -/

def lengthNeedle : JString := lit "content-length:"

/-- A content-length line with another value. -/
def setValue (value line : List Byte) : List Byte := line.take 15 ++ value

/-- The lines with the first content-length rewritten. -/
def patchedLines (value : List Byte) (ls : List (List Byte)) : List (List Byte) :=
  updateFirst (startsWith lengthNeedle) (setValue value) ls

/-- The block of the patched lines. -/
def patchedBlock (value block : List Byte) : List Byte :=
  [0#8].intercalate (patchedLines value (linesOf block))

theorem replaceContentLength_none (jdk : Jdk) (block : Bytes) (value : JString)
    (h : ∀ l ∈ linesOf block.list, ¬startsWith lengthNeedle l) :
    replaceContentLength jdk block value = .ok none := by
  have hf := findLine_none jdk block.list lengthNeedle (by decide) (by decide) h
  rw [replaceContentLength]
  change (findLine jdk (latin1 block.list) lengthNeedle >>= _) = _
  rw [hf, ok_bind]

/-- The replaced string holds the patched lines. -/
theorem replaceContentLength_string (jdk : Jdk) (block : Bytes) (value : JString)
    (h : ∃ l ∈ linesOf block.list, startsWith lengthNeedle l) :
    ∃ replaced : JString, replaced.getBytes = patchedBlock value.getBytes block.list ∧
      replaceContentLength jdk block value = (bytesOf replaced >>= fun r => .ok (some r)) := by
  rcases find?_split (startsWith lengthNeedle) (linesOf block.list) with
    hnone | ⟨pre, line, post, hl, hpre, hline, -⟩
  · obtain ⟨l, hl, hs⟩ := h
    exact absurd hs (hnone l hl)
  have hf := findLine_first jdk block.list lengthNeedle (by decide) (by decide) pre line post hl hpre
    hline
  have hlen : 15 ≤ line.length := by
    have h := ((startsWith_iff lengthNeedle line).mp hline).length_le
    rw [List.length_map] at h
    exact h
  have hzl : 0#8 ∉ line := not_mem_linesOf block.list line (by rw [hl]; simp)
  have hblock := block_split block.list pre line post hl
  have hbl : (before 0#8 pre).length + line.length ≤ block.list.length := by
    rw [hblock]
    simp only [List.length_append]
    omega
  have hend := lineEnd_line pre line post 14 (by omega) hzl
  rw [← hblock] at hend
  have hfirst : (block.list.take ((before 0#8 pre).length + 14 + 1)).drop 0 =
      before 0#8 pre ++ line.take 15 := by
    rw [List.drop_zero, hblock, Nat.add_assoc, List.take_length_add_append,
      List.take_append_of_le_length hlen]
  have hlast : (block.list.take (latin1 block.list).length).drop
      ((before 0#8 pre).length + line.length) = after 0#8 post := by
    rw [latin1_length, List.take_length, hblock, ← List.drop_drop, List.drop_left, List.drop_left]
  have hpatched : patchedBlock value.getBytes block.list =
      before 0#8 pre ++ (line.take 15 ++ value.getBytes ++ after 0#8 post) := by
    rw [patchedBlock, patchedLines, hl, updateFirst_split _ _ pre line post hpre hline,
      intercalate_split, setValue]
  have hbytes : (latin1 (before 0#8 pre ++ line.take 15) ++ value ++
      latin1 (after 0#8 post)).getBytes = patchedBlock value.getBytes block.list := by
    rw [getBytes_append, getBytes_append, getBytes_latin1, getBytes_latin1, hpatched]
    simp only [List.append_assoc]
  refine ⟨_, hbytes, ?_⟩
  rw [replaceContentLength]
  change (findLine jdk (latin1 block.list) lengthNeedle >>= _) = _
  rw [hf, ok_bind]
  change ((latin1 block.list).substring 0 ((before 0#8 pre).length + 14 + 1) >>= fun first =>
    (latin1 block.list).substring (lineEnd (latin1 block.list) ((before 0#8 pre).length + 14))
      (latin1 block.list).length >>= fun last =>
    bytesOf (first ++ value ++ last) >>= fun replaced => .ok (some replaced)) = _
  rw [substring_latin1 block.list _ _ ⟨Nat.zero_le _, by omega⟩, ok_bind, hend,
    substring_latin1 block.list _ _ ⟨by rw [latin1_length]; exact hbl, by rw [latin1_length]⟩, ok_bind,
    hfirst, hlast]

theorem replaceContentLength_lines (jdk : Jdk) (block : Bytes) (value : JString)
    (h : ∃ l ∈ linesOf block.list, startsWith lengthNeedle l)
    (hfit : (patchedBlock value.getBytes block.list).length < 2 ^ 31) :
    replaceContentLength jdk block value =
      .ok (some ⟨patchedBlock value.getBytes block.list, hfit⟩) := by
  obtain ⟨replaced, hb, hr⟩ := replaceContentLength_string jdk block value h
  rw [hr, bytesOf]
  simp only [hb]
  rw [dif_pos hfit, ok_bind]

theorem replaceContentLength_big (jdk : Jdk) (block : Bytes) (value : JString)
    (h : ∃ l ∈ linesOf block.list, startsWith lengthNeedle l)
    (hbig : ¬(patchedBlock value.getBytes block.list).length < 2 ^ 31) :
    replaceContentLength jdk block value = .error .outOfMemory := by
  obtain ⟨replaced, hb, hr⟩ := replaceContentLength_string jdk block value h
  rw [hr, bytesOf]
  simp only [hb]
  rw [dif_neg hbig, error_bind]

end SimpleCacheTool.HttpCacheMetadata
