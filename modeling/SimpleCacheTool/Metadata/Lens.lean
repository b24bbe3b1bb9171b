import SimpleCacheTool.Metadata.Resize

namespace SimpleCacheTool.HttpCacheMetadata

open Fallible Segments Lines LittleEndian JString SimpleCacheFormat

def lengthName : JString := lit "content-length"

theorem lengthName_toLowerCase (unicode : JString → JString) :
    lengthName.toLowerCase unicode = lengthName := by
  rw [toLowerCase_latin1 unicode lengthName (by decide)]
  decide

theorem lengthName_needle (unicode : JString → JString) :
    lengthName.toLowerCase unicode ++ lit ":" = lengthNeedle := by
  rw [lengthName_toLowerCase]
  decide

/-- A header is read from the lines of the block. -/
theorem headerValue_block (jdk : Jdk) (s : Bytes) (hs hlen : Nat) (h : BlockAt s.list hs hlen)
    (name : JString) (hz : 0#16 ∉ name.toLowerCase jdk.toLowerCase) :
    headerValue jdk s name = .ok (valueOf (name.toLowerCase jdk.toLowerCase ++ lit ":")
      (linesOf (seg s.list hs hlen))) := by
  apply headerValue_lines jdk s name _ (headerBlock_block s hs hlen h)
  rw [List.mem_append, not_or]
  exact ⟨hz, by decide⟩

theorem headerValue_length (jdk : Jdk) (s : Bytes) (hs hlen : Nat) (h : BlockAt s.list hs hlen) :
    headerValue jdk s lengthName = .ok (valueOf lengthNeedle (linesOf (seg s.list hs hlen))) := by
  have hz : 0#16 ∉ lengthName.toLowerCase jdk.toLowerCase := by
    rw [lengthName_toLowerCase]
    decide
  rw [headerValue_block jdk s hs hlen h lengthName hz, lengthName_needle]

/-- A header other than the content-length, by its name in lower case. -/
structure OtherHeader (name : JString) : Prop where
  no_zero : 0#16 ∉ name
  no_colon : 0x3a#16 ∉ name
  other : name ≠ lengthName

/-- A patch returns the patched stream when it fits. -/
theorem patch_eq_ok (jdk : Jdk) (s out : Bytes) (n hs hlen : Nat) (hb : BlockAt s.list hs hlen)
    (hline : HasLength s.list hs hlen) : patchContentLength jdk s n = .ok out ↔
      PatchFits s.list hs hlen n ∧ out.list = patched s.list hs hlen n := by
  by_cases hfit : PatchFits s.list hs hlen n
  · rw [patchContentLength_fits jdk s n hs hlen hb hline hfit, Except.ok.injEq, Bytes.ext_iff, eq_comm]
    exact ⟨fun h => ⟨hfit, h⟩, fun h => h.2⟩
  · obtain ⟨x, hx⟩ := patchContentLength_throws jdk s n hs hlen hb hline hfit
    rw [hx]
    constructor
    · intro h
      cases h
    · exact fun h => absurd h.1 hfit

section Patched

variable (jdk : Jdk) (s out : Bytes) (n hs hlen : Nat) (h : FrameAt s.list hs hlen)
  (hlist : out.list = patched s.list hs hlen n)
  (hbout : BlockAt out.list hs (newBlock s.list hs hlen n).length)

include h hlist

theorem linesOf_out : linesOf (seg out.list hs (newBlock s.list hs hlen n).length) =
    patchedLines (digits n) (linesOf (seg s.list hs hlen)) := by
  rw [hlist]
  exact FrameAt.linesOf_patched s.list hs hlen h n

include hbout

/-- The other headers are read as before. -/
theorem headerValue_patched (name : JString) (hname : OtherHeader (name.toLowerCase jdk.toLowerCase)) :
    headerValue jdk out name = headerValue jdk s name := by
  rw [headerValue_block jdk out hs _ hbout name hname.no_zero,
    headerValue_block jdk s hs hlen h.toBlockAt name hname.no_zero,
    linesOf_out s out n hs hlen h hlist, valueOf_other _ _ _ hname.no_colon hname.other]

/-- The next patch makes this one undone. -/
theorem patch_patched (hline : HasLength s.list hs hlen) (m : Nat) (out' : Bytes) :
    patchContentLength jdk out m = .ok out' ↔ patchContentLength jdk s m = .ok out' := by
  have hhas : HasLength out.list hs (newBlock s.list hs hlen n).length := by
    rw [HasLength, linesOf_out s out n hs hlen h hlist]
    exact patchedLines_hasLength _ _ hline
  have hpp : patched out.list hs (newBlock s.list hs hlen n).length m = patched s.list hs hlen m := by
    rw [hlist] at hbout ⊢
    exact FrameAt.patched_patched s.list hs hlen h n m hbout
  have hroom := (FrameAt.patched_frameAt s.list hs hlen h n (hlist ▸ hbout)).room
  rw [← hlist] at hroom
  rw [patch_eq_ok jdk out out' m hs _ hbout hhas, patch_eq_ok jdk s out' m hs hlen h.toBlockAt hline,
    PatchFits, PatchFits, hpp, eq_true hroom, eq_true h.room]

end Patched

/-- What a patch writes is read back, what it does not write is read as before, and a second patch
makes the first one undone. -/
theorem patchContentLength_lens (jdk : Jdk) (s out : Bytes) (n hs hlen : Nat)
    (hb : BlockAt s.list hs hlen) (hline : HasLength s.list hs hlen) (h8 : 8 ≤ hs)
    (hq : QuietEnd (s.list.take (hs - 4))) (hout : patchContentLength jdk s n = .ok out)
    (hsmall : out.length < quietSize) :
    headerValue jdk out lengthName = .ok (some (JString.ofInt n)) ∧
    (∀ name : JString, OtherHeader (name.toLowerCase jdk.toLowerCase) →
      headerValue jdk out name = headerValue jdk s name) ∧
    ∀ (m : Nat) (out' : Bytes), patchContentLength jdk s m = .ok out' →
      patchContentLength jdk out m = .ok out' := by
  -- the patch has returned, so there was room for the padding
  obtain ⟨hfit, hlist⟩ := (patch_eq_ok jdk s out n hs hlen hb hline).mp hout
  have h : FrameAt s.list hs hlen := ⟨hb, h8, hfit.1⟩
  have hbout : BlockAt out.list hs (newBlock s.list hs hlen n).length := by
    rw [hlist]
    exact patched_blockAt s.list hs hlen h hline hq n (hlist ▸ hsmall)
  refine ⟨?_, headerValue_patched jdk s out n hs hlen h hlist hbout, fun m out' =>
    (patch_patched jdk s out n hs hlen h hlist hbout hline m out').mpr⟩
  rw [headerValue_length jdk out hs _ hbout, linesOf_out s out n hs hlen h hlist,
    valueOf_patchedLines n _ hline]

theorem lengthPickle_fits : PatchFits lengthPickle 8 24 10 := ⟨by decide, by decide⟩

theorem patchContentLength_lens_pickle :
    headerValue storedJdk ⟨patched lengthPickle 8 24 10, lengthPickle_fits.2⟩ lengthName =
      .ok (some (JString.ofInt 10)) ∧
    (∀ name : JString, OtherHeader (name.toLowerCase storedJdk.toLowerCase) →
      headerValue storedJdk ⟨patched lengthPickle 8 24 10, lengthPickle_fits.2⟩ name =
        headerValue storedJdk ⟨lengthPickle, by decide⟩ name) ∧
    ∀ (m : Nat) (out' : Bytes),
      patchContentLength storedJdk ⟨lengthPickle, by decide⟩ m = .ok out' →
      patchContentLength storedJdk ⟨patched lengthPickle 8 24 10, lengthPickle_fits.2⟩ m = .ok out' :=
  patchContentLength_lens storedJdk ⟨lengthPickle, by decide⟩ _ 10 8 24 lengthPickle_block
    ⟨(lit "content-length:9").getBytes, by decide, by decide⟩ (by decide)
    (fun k h4 h7 => by
      obtain rfl | rfl | rfl : k = 4 ∨ k = 5 ∨ k = 6 := by omega
      all_goals decide)
    (patchContentLength_fits storedJdk _ 10 8 24 lengthPickle_block
      ⟨(lit "content-length:9").getBytes, by decide, by decide⟩ lengthPickle_fits)
    (by decide)

/-- A block at offset 4, whose length field is the first word, and one byte behind it. -/
def frontBlock : Bytes :=
  ⟨bytes 4 24#32 ++ (lit "HTTP/1.").getBytes ++ [0#8] ++ (lit "content-length:1").getBytes ++
    (lit "7").getBytes, by decide⟩

theorem frontBlock_overlap : BlockAt frontBlock.list 4 24 ∧ HasLength frontBlock.list 4 24 ∧
    ∀ jdk, ∃ out, patchContentLength jdk frontBlock 2 = .ok out ∧
      headerValue jdk out lengthName = .ok (some (JString.ofInt 27)) ∧
      JString.ofInt 27 ≠ JString.ofInt 2 := by
  have hb : BlockAt frontBlock.list 4 24 := by
    refine ⟨?_, by decide, by decide, by decide, by decide⟩
    exact least_of_before _ 4 (by decide) (by decide)
  have hline : HasLength frontBlock.list 4 24 :=
    ⟨(lit "content-length:1").getBytes, by decide, by decide⟩
  have hfit : PatchFits frontBlock.list 4 24 2 := ⟨by decide, by decide⟩
  refine ⟨hb, hline, fun jdk => ⟨_, patchContentLength_fits jdk frontBlock 2 4 24 hb hline hfit, ?_⟩⟩
  -- the payload size written last is read as the length of the block
  have hout : BlockAt (patched frontBlock.list 4 24 2) 4 25 := by
    refine ⟨?_, by decide, by decide, by decide, by decide⟩
    exact least_of_before _ 4 (by decide) (by decide)
  have hv : valueOf lengthNeedle (linesOf (seg (patched frontBlock.list 4 24 2) 4 25)) =
      some (JString.ofInt 27) := by decide
  rw [headerValue_length jdk _ 4 25 hout, hv]
  exact ⟨rfl, by decide⟩

end SimpleCacheTool.HttpCacheMetadata
