import SimpleCacheTool.Metadata.PatchLaws

namespace SimpleCacheTool.HttpCacheMetadata

open Fallible Segments Lines LittleEndian JString SimpleCacheFormat

/-- In a pickle of whole words there is room for the padding. -/
theorem frameAt_of_aligned (s : Bytes) (hs hlen : Nat) (hb : BlockAt s.list hs hlen) (h8 : 8 ≤ hs)
    (ha : hs % 4 = 0) (hl : s.length % 4 = 0) : FrameAt s.list hs hlen := by
  have hin := hb.inside
  have he : s.length = s.list.length := rfl
  refine ⟨hb, h8, ?_⟩
  rw [padding]
  omega

/-- What a patched stream 0 looks like: `m` is the length of its block. -/
structure Resized (s out : List Byte) (hs hlen m : Nat) (ls : List (List Byte)) : Prop where
  aligned : out.length % 4 = 0
  size : (wordAt 32 out 0).toNat = out.length - 4
  before : seg out 4 (hs - 8) = seg s 4 (hs - 8)
  length : (wordAt 32 out (hs - 4)).toNat = m
  inside : hs + m + padding (hs + m) ≤ out.length
  lines : linesOf (seg out hs m) = ls
  pad : seg out (hs + m) (padding (hs + m)) = List.replicate (padding (hs + m)) 0
  rest : out.drop (hs + m + padding (hs + m)) = s.drop (hs + hlen + padding (hs + hlen))

theorem patched_resized (s : List Byte) (hs hlen : Nat) (h : FrameAt s hs hlen) (n : Nat)
    (hl : s.length % 4 = 0) (ha : hs % 4 = 0) (hfit : (patched s hs hlen n).length < 2 ^ 31) :
    Resized s (patched s hs hlen n) hs hlen (newBlock s hs hlen n).length
      (patchedLines (digits n) (linesOf (seg s hs hlen))) := by
  have h8 := h.eight
  have hroom := h.room
  have hp := FrameAt.patched_frame s hs hlen h n
  have hoff := FrameAt.patchedFrame_offset s hs hlen h n
  have hlength := (FrameAt.frame s hs hlen h).withBlock_length (newBlock s hs hlen n)
  have hrest : (FrameAt.frame s hs hlen h).rest.length = s.length - (hs + hlen + padding (hs + hlen)) :=
    List.length_drop
  rw [hrest, FrameAt.frame_offset] at hlength
  change (FrameAt.patchedFrame s hs hlen h n).toList.length = _ at hlength
  have hmod := add_padding_mod (hs + (newBlock s hs hlen n).length)
  have hmod' := add_padding_mod (hs + hlen)
  rw [hp] at hfit ⊢
  refine ⟨by omega, ?_, ?_, ?_, by omega, ?_, ?_, ?_⟩
  · have hsize : wordAt 32 (FrameAt.patchedFrame s hs hlen h n).toList 0 =
        BitVec.ofNat 32 ((FrameAt.patchedFrame s hs hlen h n).toList.length - 4) :=
      (FrameAt.frame s hs hlen h).withBlock_size (newBlock s hs hlen n)
    rw [hsize, BitVec.toNat_ofNat]
    exact Nat.mod_eq_of_lt (by omega)
  · have hbetween : (FrameAt.patchedFrame s hs hlen h n).between = seg s 4 (hs - 8) := rfl
    have hseg := (FrameAt.patchedFrame s hs hlen h n).seg_between
    rw [hbetween, seg_length s 4 (hs - 8) (by omega)] at hseg
    exact hseg
  · have hword := (FrameAt.patchedFrame s hs hlen h n).wordAt_length
    have hblock : (FrameAt.patchedFrame s hs hlen h n).block = newBlock s hs hlen n := rfl
    rw [hoff, hblock] at hword
    rw [hword, BitVec.toNat_ofNat]
    exact Nat.mod_eq_of_lt (by omega)
  · rw [← hp]
    exact FrameAt.linesOf_patched s hs hlen h n
  · have hpad : (FrameAt.patchedFrame s hs hlen h n).pad =
        List.replicate (padding (hs + (newBlock s hs hlen n).length)) 0 := by
      rw [FrameAt.patchedFrame, Framed.withBlock_pad, FrameAt.frame_offset]
    have hseg := (FrameAt.patchedFrame s hs hlen h n).seg_pad
    rw [hoff, hpad, List.length_replicate] at hseg
    exact hseg
  · have hdrop := (FrameAt.patchedFrame s hs hlen h n).drop_rest
    have hpad : (FrameAt.patchedFrame s hs hlen h n).pad.length =
        padding (hs + (newBlock s hs hlen n).length) := by
      rw [(FrameAt.patchedFrame s hs hlen h n).pad_length, ← Framed.offset, hoff]
      rfl
    rw [hoff, hpad] at hdrop
    exact hdrop

theorem find?_of_split (needle : JString) (pre : List (List Byte)) (line : List Byte)
    (post : List (List Byte)) (hpre : ∀ l ∈ pre, ¬startsWith needle l) (hline : startsWith needle line) :
    (pre ++ line :: post).find? (startsWith needle) = some line :=
  List.find?_eq_some_iff_append.mpr ⟨hline, pre, post, rfl, fun l hl => by simpa using hpre l hl⟩

theorem hasLength_of_split (s : List Byte) (hs hlen : Nat) (pre : List (List Byte)) (line : List Byte)
    (post : List (List Byte)) (hsplit : linesOf (seg s hs hlen) = pre ++ line :: post)
    (hline : startsWith lengthNeedle line) : HasLength s hs hlen :=
  ⟨line, by rw [hsplit]; simp, hline⟩

/-- A patch returns when the resized stream fits, and throws when it does not. -/
theorem patch_of_split (jdk : Jdk) (s : Bytes) (n : Int) (hs hlen : Nat) (h : FrameAt s.list hs hlen)
    (pre : List (List Byte)) (line : List Byte) (post : List (List Byte))
    (hsplit : linesOf (seg s.list hs hlen) = pre ++ line :: post)
    (hpre : ∀ l ∈ pre, ¬startsWith lengthNeedle l) (hline : startsWith lengthNeedle line) :
    (patchedSize s.list hs hlen line n < 2 ^ 31 →
      ∃ out, patchContentLength jdk s n = .ok out ∧ out.list = patched s.list hs hlen n) ∧
    (¬patchedSize s.list hs hlen line n < 2 ^ 31 → ∃ x, patchContentLength jdk s n = .error x) := by
  have hfind := find?_of_split lengthNeedle pre line post hpre hline
  rw [← hsplit] at hfind
  have hlen := patched_length s.list hs hlen h.four h.room line n hfind
  have hhas := hasLength_of_split s.list hs _ pre line post hsplit hline
  constructor
  · intro hfit
    exact ⟨_, patchContentLength_fits jdk s n hs _ h.toBlockAt hhas ⟨h.room, hlen ▸ hfit⟩, rfl⟩
  · intro hbig
    exact patchContentLength_throws jdk s n hs _ h.toBlockAt hhas fun hf => hbig (hlen ▸ hf.2)

/-- A patch resizes the header string inside the pickle and disturbs nothing else. -/
theorem patchContentLength_resizes (jdk : Jdk) (s : Bytes) (n hs hlen : Nat)
    (hb : BlockAt s.list hs hlen) (h8 : 8 ≤ hs) (ha : hs % 4 = 0) (hl : s.length % 4 = 0) :
    (¬HasLength s.list hs hlen → patchContentLength jdk s n = .ok s) ∧
    ∀ pre line post, linesOf (seg s.list hs hlen) = pre ++ line :: post →
      (∀ l ∈ pre, ¬startsWith lengthNeedle l) → startsWith lengthNeedle line →
      patchedSize s.list hs hlen line n < 2 ^ 31 →
      ∃ out m, patchContentLength jdk s n = .ok out ∧
        Resized s.list out.list hs hlen m (pre ++ (line.take 15 ++ digits n) :: post) := by
  have h := frameAt_of_aligned s hs hlen hb h8 ha hl
  refine ⟨patchContentLength_noLine jdk s n hs hlen hb, ?_⟩
  intro pre line post hsplit hpre hline hfit
  obtain ⟨out, hout, hlist⟩ :=
    (patch_of_split jdk s n hs hlen h pre line post hsplit hpre hline).1 hfit
  refine ⟨out, (newBlock s.list hs hlen n).length, hout, ?_⟩
  have hr := patched_resized s.list hs hlen h n hl ha (hlist ▸ out.length_lt)
  rw [hsplit, patchedLines, updateFirst_split _ _ pre line post hpre hline, ← hlist] at hr
  exact hr

/-- A pickle with the lines `HTTP/1.` and `content-length:9` at offset 8. -/
def lengthPickle : List Byte :=
  bytes 4 28#32 ++ bytes 4 24#32 ++ (lit "HTTP/1.").getBytes ++ [0#8] ++
    (lit "content-length:9").getBytes

theorem lengthPickle_block : BlockAt lengthPickle 8 24 where
  status := least_of_before _ 8 (by decide) (by decide)
  four := by decide
  length := by decide
  pos := by decide
  inside := by decide

theorem patchContentLength_resizes_pickle :
    (¬HasLength lengthPickle 8 24 → patchContentLength storedJdk ⟨lengthPickle, by decide⟩ 10 =
      .ok ⟨lengthPickle, by decide⟩) ∧
    ∀ pre line post, linesOf (seg lengthPickle 8 24) = pre ++ line :: post →
      (∀ l ∈ pre, ¬startsWith lengthNeedle l) → startsWith lengthNeedle line →
      patchedSize lengthPickle 8 24 line 10 < 2 ^ 31 →
      ∃ out m, patchContentLength storedJdk ⟨lengthPickle, by decide⟩ 10 = .ok out ∧
        Resized lengthPickle out.list 8 24 m (pre ++ (line.take 15 ++ digits 10) :: post) :=
  patchContentLength_resizes storedJdk ⟨lengthPickle, by decide⟩ 10 8 24 lengthPickle_block
    (by decide) (by decide) (by decide)

/-- The pickle as large as an array can be: its lines, and zeros up to 2^31 - 4 bytes. -/
def largestPickle : Bytes :=
  ⟨bytes 4 (BitVec.ofNat 32 (2 ^ 31 - 8)) ++ lengthPickle.drop 4 ++ List.replicate (2 ^ 31 - 36) 0,
    by
      rw [List.length_append, List.length_replicate]
      have h : (bytes 4 (BitVec.ofNat 32 (2 ^ 31 - 8)) ++ lengthPickle.drop 4).length = 32 := by decide
      omega⟩

theorem largestPickle_throws : BlockAt largestPickle.list 8 24 ∧ HasLength largestPickle.list 8 24 ∧
    largestPickle.length % 4 = 0 ∧
    (wordAt 32 largestPickle.list 0).toNat = largestPickle.length - 4 ∧
    ∀ jdk, ∃ x, patchContentLength jdk largestPickle 10 = .error x := by
  have hhead : (bytes 4 (BitVec.ofNat 32 (2 ^ 31 - 8)) ++ lengthPickle.drop 4).length = 32 := by decide
  have hlen : largestPickle.length = 2 ^ 31 - 4 := by
    change (_ ++ _ : List Byte).length = _
    rw [List.length_append, hhead, List.length_replicate]
    omega
  have hmod : largestPickle.length % 4 = 0 := by omega
  have hb : BlockAt largestPickle.list 8 24 := by
    refine blockAt_append _ _ 8 24 ⟨?_, by decide, by decide, by decide, by decide⟩
    exact least_of_before _ 8 (by decide) (by decide)
  have hseg : seg largestPickle.list 8 24 = lengthPickle.drop 8 :=
    (seg_append_left _ _ 8 24 (by rw [hhead])).trans (by decide)
  have hsplit : linesOf (seg largestPickle.list 8 24) =
      [(lit "HTTP/1.").getBytes] ++ (lit "content-length:9").getBytes :: [] := by
    rw [hseg]
    decide
  have hword : (wordAt 32 largestPickle.list 0).toNat = largestPickle.length - 4 := by
    rw [hlen, wordAt]
    change (word 32 (seg (_ ++ _) 0 4)).toNat = _
    rw [seg_append_left _ _ 0 4 (by rw [hhead]; omega)]
    decide
  refine ⟨hb, hasLength_of_split _ 8 24 _ _ _ hsplit (by decide), hmod, hword, ?_⟩
  intro jdk
  have h := frameAt_of_aligned largestPickle 8 24 hb (by decide) (by decide) hmod
  refine (patch_of_split jdk largestPickle 10 8 24 h _ _ _ hsplit (by decide) (by decide)).2 ?_
  have hl : largestPickle.list.length = 2 ^ 31 - 4 := hlen
  have h16 : (lit "content-length:9").getBytes.length = 16 := by decide
  have h2 : (digits 10).length = 2 := by decide
  rw [patchedSize, h16, h2, hl]
  decide

/-! Every content-length line of the patched block. -/

/-- The value of a content-length line. -/
def lengthValue (line : List Byte) : JString := trim (latin1 (line.drop 15))

/-- A patch returns a block whose content-length lines all carry the new length. -/
def LengthsAgree (jdk : Jdk) (s : Bytes) (hs n : Nat) : Prop :=
  ∃ out, patchContentLength jdk s n = .ok out ∧
    ∀ l ∈ linesOf (seg out.list hs (wordAt 32 out.list (hs - 4)).toNat),
      startsWith lengthNeedle l → lengthValue l = JString.ofInt n

/-- The result fits, and the content-length lines behind the first carry the new length already. -/
def LaterLengths (s : List Byte) (hs hlen n : Nat) : Prop :=
  ∀ pre line post, linesOf (seg s hs hlen) = pre ++ line :: post →
    (∀ l ∈ pre, ¬startsWith lengthNeedle l) → startsWith lengthNeedle line →
    patchedSize s hs hlen line n < 2 ^ 31 ∧
      ∀ l ∈ post, startsWith lengthNeedle l → lengthValue l = JString.ofInt n

theorem lengthValue_setValue (line : List Byte) (n : Nat) (h : startsWith lengthNeedle line) :
    lengthValue (setValue (digits n) line) = JString.ofInt n := by
  rw [lengthValue, drop_setValue _ line h, latin1_digits, trim_digits]

theorem lines_of_patch (jdk : Jdk) (s : Bytes) (n hs hlen : Nat) (h : FrameAt s.list hs hlen)
    (ha : hs % 4 = 0) (hl : s.length % 4 = 0)
    (pre : List (List Byte)) (line : List Byte) (post : List (List Byte))
    (hsplit : linesOf (seg s.list hs hlen) = pre ++ line :: post)
    (hpre : ∀ l ∈ pre, ¬startsWith lengthNeedle l) (hline : startsWith lengthNeedle line)
    (hfit : patchedSize s.list hs hlen line n < 2 ^ 31) :
    ∃ out, patchContentLength jdk s n = .ok out ∧
      linesOf (seg out.list hs (wordAt 32 out.list (hs - 4)).toNat) =
        pre ++ setValue (digits n) line :: post := by
  obtain ⟨out, hout, hlist⟩ :=
    (patch_of_split jdk s n hs hlen h pre line post hsplit hpre hline).1 hfit
  have hr := patched_resized s.list hs hlen h n hl ha (hlist ▸ out.length_lt)
  rw [hsplit, patchedLines, updateFirst_split _ _ pre line post hpre hline, ← hlist] at hr
  exact ⟨out, hout, by rw [hr.length, hr.lines]⟩

theorem lengthsAgree_split (jdk : Jdk) (s : Bytes) (n hs hlen : Nat) (h : FrameAt s.list hs hlen)
    (ha : hs % 4 = 0) (hl : s.length % 4 = 0)
    (pre : List (List Byte)) (line : List Byte) (post : List (List Byte))
    (hsplit : linesOf (seg s.list hs hlen) = pre ++ line :: post)
    (hpre : ∀ l ∈ pre, ¬startsWith lengthNeedle l) (hline : startsWith lengthNeedle line) :
    LengthsAgree jdk s hs n ↔ patchedSize s.list hs hlen line n < 2 ^ 31 ∧
      ∀ l ∈ post, startsWith lengthNeedle l → lengthValue l = JString.ofInt n := by
  constructor
  · rintro ⟨out, hout, hall⟩
    have hfit : patchedSize s.list hs hlen line n < 2 ^ 31 := by
      by_contra hbig
      obtain ⟨x, hx⟩ := (patch_of_split jdk s n hs hlen h pre line post hsplit hpre hline).2 hbig
      rw [hx] at hout
      cases hout
    obtain ⟨out', hout', hlines⟩ :=
      lines_of_patch jdk s n hs hlen h ha hl pre line post hsplit hpre hline hfit
    obtain rfl : out' = out := Except.ok.inj (hout'.symm.trans hout)
    refine ⟨hfit, fun l hm hs => hall l ?_ hs⟩
    rw [hlines]
    exact List.mem_append_right _ (List.mem_cons_of_mem _ hm)
  · rintro ⟨hfit, hall⟩
    obtain ⟨out, hout, hlines⟩ :=
      lines_of_patch jdk s n hs hlen h ha hl pre line post hsplit hpre hline hfit
    refine ⟨out, hout, ?_⟩
    intro l hm hs
    rw [hlines, List.mem_append, List.mem_cons] at hm
    rcases hm with hm | rfl | hm
    · exact absurd hs (hpre l hm)
    · exact lengthValue_setValue line n hline
    · exact hall l hm hs

/-- Only the first content-length line is rewritten: the lines agree exactly when the others
happen to be right. -/
theorem lengthsAgree_iff (jdk : Jdk) (s : Bytes) (n hs hlen : Nat) (hb : BlockAt s.list hs hlen)
    (h8 : 8 ≤ hs) (ha : hs % 4 = 0) (hl : s.length % 4 = 0) (hline : HasLength s.list hs hlen) :
    LengthsAgree jdk s hs n ↔ LaterLengths s.list hs hlen n := by
  have h := frameAt_of_aligned s hs hlen hb h8 ha hl
  rcases find?_split (startsWith lengthNeedle) (linesOf (seg s.list hs hlen)) with
    hnone | ⟨pre, line, post, hsplit, hpre, hfirst, -⟩
  · obtain ⟨l, hm, hs⟩ := hline
    exact absurd hs (hnone l hm)
  · constructor
    · intro hagree pre' line' post' hsplit' hpre' hfirst'
      exact (lengthsAgree_split jdk s n hs hlen h ha hl _ _ _ hsplit' hpre' hfirst').mp hagree
    · intro hlater
      exact (lengthsAgree_split jdk s n hs hlen h ha hl _ _ _ hsplit hpre hfirst).mpr
        (hlater _ _ _ hsplit hpre hfirst)

theorem lengthsAgree_iff_pickle :
    LengthsAgree storedJdk ⟨lengthPickle, by decide⟩ 8 10 ↔ LaterLengths lengthPickle 8 24 10 :=
  lengthsAgree_iff storedJdk ⟨lengthPickle, by decide⟩ 10 8 24 lengthPickle_block (by decide)
    (by decide) (by decide) ⟨(lit "content-length:9").getBytes, by decide, by decide⟩

/-- A pickle with the line `content-length:1` twice. -/
def twoLengths : Bytes :=
  ⟨bytes 4 48#32 ++ bytes 4 41#32 ++ (lit "HTTP/1.").getBytes ++ [0#8] ++
    (lit "content-length:1").getBytes ++ [0#8] ++ (lit "content-length:1").getBytes ++
    List.replicate 3 0, by decide⟩

theorem twoLengths_disagree : BlockAt twoLengths.list 8 41 ∧
    twoLengths.length % 4 = 0 ∧ HasLength twoLengths.list 8 41 ∧
      ∀ jdk, ¬LengthsAgree jdk twoLengths 8 2 := by
  have hb : BlockAt twoLengths.list 8 41 := by
    refine ⟨?_, by decide, by decide, by decide, by decide⟩
    exact least_of_before _ 8 (by decide) (by decide)
  have hsplit : linesOf (seg twoLengths.list 8 41) = [(lit "HTTP/1.").getBytes] ++
      (lit "content-length:1").getBytes :: [(lit "content-length:1").getBytes] := by decide
  refine ⟨hb, by decide, hasLength_of_split _ 8 41 _ _ _ hsplit (by decide), ?_⟩
  intro jdk h
  have hframe := frameAt_of_aligned twoLengths 8 41 hb (by decide) (by decide) (by decide)
  have hall := ((lengthsAgree_split jdk twoLengths 2 8 41 hframe (by decide) (by decide) _ _ _ hsplit
    (by decide) (by decide)).mp h).2
  exact absurd (hall _ List.mem_cons_self (by decide)) (by decide)

end SimpleCacheTool.HttpCacheMetadata
