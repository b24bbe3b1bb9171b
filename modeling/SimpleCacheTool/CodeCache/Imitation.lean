import SimpleCacheTool.CodeCache.Modified
import SimpleCacheTool.Metadata.Silent

namespace SimpleCacheTool

open Fallible Segments Lines LittleEndian SimpleCacheFormat HttpCacheMetadata SimpleCacheLibrary

namespace CodeCache

/-- A stream 0 that is taken for no HTTP metadata, and whose entries are modified in their body
alone. -/
structure Untouched (jdk : Jdk) (s0 : Bytes) : Prop where
  patch : ∀ n : Nat, n < 2 ^ 31 → patchContentLength jdk s0 n = .ok s0
  encoding : contentEncoding jdk s0 = .ok none
  modify : ∀ F e, parseEntry F = .ok e → e.stream0 = s0 → ∀ body auto out,
    modifyEntryBody jdk F body auto = .ok out →
      ∃ p, parseEntry out = .ok p ∧ p.stream0 = s0 ∧ p.stream1 = body

theorem untouched_of_unchanged (jdk : Jdk) (s0 : Bytes) (h : Unchanged jdk s0) : Untouched jdk s0 := by
  obtain ⟨hpatch, hencoding⟩ := h
  refine ⟨hpatch, hencoding, ?_⟩
  rintro F e he rfl body auto out hout
  obtain ⟨f, rfl, rfl⟩ := (SimpleCacheEntry.parse_eq_ok F true e).mp he
  obtain ⟨hs, rfl⟩ := (modify_plain jdk f body f.stream0 auto hencoding
    (hpatch body.length body.length_lt') out).mp hout
  exact ⟨_, parse_rewritten _ _ _ _ _ hs, rfl, rfl⟩

theorem untouched_iff (jdk : Jdk) (s0 : Bytes) (hl : s0.length + 1 < 2 ^ 31) :
    Untouched jdk s0 ↔ Silent s0.list := by
  rw [← unchanged_iff jdk s0 hl]
  exact ⟨fun h => ⟨h.patch, h.encoding⟩, untouched_of_unchanged jdk s0⟩

section Tail

variable (responseTime : BitVec 64) (size : Nat) (tail : List Byte)

theorem drop_header : (headerBytes responseTime size ++ tail).drop 12 = tail := by
  have h : (headerBytes responseTime size ++ tail).drop (headerBytes responseTime size).length = tail :=
    List.drop_left
  rwa [headerBytes_length] at h

/-- A status line has a full stop at its end, so it does not reach into a tail without one. -/
theorem status_in_header (hdot : 0x2e#8 ∉ tail) (hs : Nat)
    (h : httpBytes <+: (headerBytes responseTime size ++ tail).drop hs) : hs + 7 ≤ 12 := by
  by_contra hout
  have hbyte := occurs_getElem httpBytes _ hs 6 (by decide) h
  rw [List.getElem?_append_right (by rw [headerBytes_length]; omega)] at hbyte
  exact hdot (List.mem_of_getElem? hbyte)

theorem statusLineAt_header (hdot : 0x2e#8 ∉ tail) (hs : Nat) :
    StatusLineAt (headerBytes responseTime size ++ tail) hs ↔
      StatusLineAt (headerBytes responseTime size) hs := by
  have hset : {j | httpBytes <+: (headerBytes responseTime size ++ tail).drop j} =
      {j | httpBytes <+: (headerBytes responseTime size).drop j} := by
    ext j
    constructor
    · intro h
      have hin := status_in_header responseTime size tail hdot j h
      rw [← headerBytes_length responseTime size, ← httpBytes_length] at hin
      exact (occurs_append_left httpBytes _ tail j hin).mp h
    · intro h
      have hin := occurs_length httpBytes _ j (by decide) h
      exact (occurs_append_left httpBytes _ tail j hin).mpr h
  rw [StatusLineAt, StatusLineAt, hset]

theorem blockEnds_header (hdot : 0x2e#8 ∉ tail) :
    BlockEnds (headerBytes responseTime size ++ tail) ↔ BlockEnds (headerBytes responseTime size) := by
  apply forall_congr'
  intro hs
  rw [statusLineAt_header responseTime size tail hdot]
  apply imp_congr_right
  intro hat
  have hin := statusLine_length _ hs hat
  have hword : wordAt 32 (headerBytes responseTime size ++ tail) (hs - 4) =
      wordAt 32 (headerBytes responseTime size) (hs - 4) := by
    rw [wordAt, wordAt, seg_append_left _ tail _ _ (by omega)]
  rw [hword]

/-- Behind a header, hex digits are no header lines, so only a length that overflows can do harm. -/
theorem silent_tail (hdot : 0x2e#8 ∉ tail) (hcolon : 0x3a#8 ∉ tail) :
    Silent (headerBytes responseTime size ++ tail) ↔ BlockEnds (headerBytes responseTime size) := by
  rw [← blockEnds_header responseTime size tail hdot]
  refine ⟨fun h => h.block_end, fun h => ⟨h, ?_, ?_⟩⟩
  · rintro hs hlen hb ⟨line, hline, hstart⟩
    have hname : lengthNeedle = lengthName ++ JString.lit ":" := by decide
    rw [hname] at hstart
    exact no_line_starts _ hs hlen hb.four (by rwa [drop_header]) lengthName (by decide) line hline
      hstart
  · intro hs hlen hb line hfind
    have hname : encodingNeedle = encodingName ++ JString.lit ":" := by decide
    rw [hname] at hfind
    exact absurd (List.find?_some hfind) (no_line_starts _ hs hlen hb.four (by rwa [drop_header])
      encodingName (by decide) line (List.mem_of_find?_eq_some hfind))

end Tail

/-- A checksum key has neither a full stop nor a colon. -/
theorem checksum_quiet (data : Bytes) (uppercaseSha : Bool) :
    0x2e#8 ∉ (checksumOf data uppercaseSha).utf8 ∧ 0x3a#8 ∉ (checksumOf data uppercaseSha).utf8 := by
  have hascii := checksumOf_ascii data uppercaseSha
  have hdigits := unhex_isSome _ _ (checksumOf_unhex data uppercaseSha)
  rw [JString.utf8_ascii _ hascii]
  have hno (b : Byte) (hb : hexValue (b.setWidth 16) = none) :
      b ∉ (checksumOf data uppercaseSha).map fun c => c.setWidth 8 := by
    intro hm
    obtain ⟨c, hc, rfl⟩ := List.mem_map.mp hm
    have hwide : (c.setWidth 8).setWidth 16 = c := by
      have hlt := hascii c hc
      apply BitVec.eq_of_toNat_eq
      rw [BitVec.toNat_setWidth, BitVec.toNat_setWidth]
      omega
    have hd := hdigits c hc
    rw [hwide] at hb
    rw [hb] at hd
    cases hd
  exact ⟨hno 0x2e#8 (by decide), hno 0x3a#8 (by decide)⟩

/-- Behind the header of a build's stream 0 stands the payload, or nothing that looks like a header
line. -/
theorem build_tail (url : JString) (data : Bytes) (responseTime : BitVec 64) (uppercaseSha : Bool)
    (b : Built) (hb : build url data responseTime uppercaseSha = .ok b) :
    ∃ tail, b.primary.stream0.list = headerBytes responseTime data.length ++ tail ∧
      if data.length ≤ inlineLimit then tail = data.list
      else tail.length ≤ 64 ∧ 0x2e#8 ∉ tail ∧ 0x3a#8 ∉ tail := by
  obtain ⟨key, hk⟩ := build_key url data responseTime uppercaseSha b hb
  by_cases hinline : data.length ≤ inlineLimit
  · obtain ⟨stream0, hb', l0⟩ := build_inline url data responseTime uppercaseSha key hk hinline
    obtain rfl := Except.ok.inj (hb'.symm.trans hb)
    exact ⟨data.list, l0, by rw [if_pos hinline]⟩
  · simp only [if_neg hinline]
    by_cases hdedicated : data.length ≤ dedicatedLimit
    · obtain ⟨stream0, hb', l0⟩ :=
        build_dedicated url data responseTime uppercaseSha key hk hinline hdedicated
      obtain rfl := Except.ok.inj (hb'.symm.trans hb)
      exact ⟨[], l0.trans (List.append_nil _).symm, by simp⟩
    · obtain ⟨stream0, checksumKey, hb', hck, l0⟩ :=
        build_indirect url data responseTime uppercaseSha key hk hdedicated
      obtain rfl := Except.ok.inj (hb'.symm.trans hb)
      have hl := checksumOf_utf8 data uppercaseSha
      rw [ascii_of_lt _ (by omega)] at hck
      obtain rfl := Except.ok.inj hck
      exact ⟨_, l0, hl.le, checksum_quiet data uppercaseSha⟩

/-- A code-cache entry is mistaken for HTTP metadata exactly when its inline payload imitates a block
with one of the two headers, or its response time a length that overflows. -/
theorem build_untouched_iff (jdk : Jdk) (url : JString) (data : Bytes) (responseTime : BitVec 64)
    (uppercaseSha : Bool) (b : Built) (hb : build url data responseTime uppercaseSha = .ok b) :
    Untouched jdk b.primary.stream0 ↔
      if data.length ≤ inlineLimit then Silent (headerBytes responseTime data.length ++ data.list)
      else BlockEnds (headerBytes responseTime data.length) := by
  obtain ⟨tail, hs0, htail⟩ := build_tail url data responseTime uppercaseSha b hb
  have hl : b.primary.stream0.length = 12 + tail.length := by
    rw [Bytes.length, hs0, List.length_append, headerBytes_length]
  by_cases hinline : data.length ≤ inlineLimit
  · rw [if_pos hinline] at htail
    have hd : tail.length = data.length := congrArg List.length htail
    have hmax : data.length ≤ 4096 := hinline
    rw [if_pos hinline, untouched_iff jdk _ (by omega), hs0, htail]
  · rw [if_neg hinline] at htail
    rw [if_neg hinline, untouched_iff jdk _ (by omega), hs0,
      silent_tail responseTime data.length tail htail.2.1 htail.2.2]

/-- A script's bytes, without a full stop or a colon. -/
def scriptPayload : Bytes := ⟨(JString.lit "alert(1)").getBytes, by decide⟩

theorem build_untouched_iff_script : ∃ b, build (JString.lit "a") scriptPayload 7#64 true = .ok b ∧
    Untouched storedJdk b.primary.stream0 := by
  have hkey : (cacheKey (JString.lit "a")).utf8.length = 7 := by decide
  obtain ⟨b, d, hb, -⟩ := inline_roundTrips (JString.lit "a") scriptPayload 7#64 true false
    (by rw [Fits, hkey]; decide) (by decide)
  refine ⟨b, hb, (build_untouched_iff storedJdk _ scriptPayload 7#64 true b hb).mpr ?_⟩
  rw [if_pos (by decide), silent_tail _ _ _ (by decide) (by decide)]
  intro hs hat
  -- twelve bytes that hold no status line
  have hin := statusLine_length _ hs hat
  rw [headerBytes_length] at hin
  have hno : ∀ j < 6, ¬httpBytes <+: (headerBytes 7#64 scriptPayload.length).drop j := by decide
  exact absurd hat.1 (hno hs (by omega))

/-- A payload that holds a length and a block of this length, with a content-length. -/
def imitation : Bytes :=
  ⟨bytes 4 24#32 ++ (JString.lit "HTTP/1.").getBytes ++ [0#8] ++
    (JString.lit "content-length:1").getBytes, by decide⟩

theorem imitation_patched : ∃ b, build [] imitation 0#64 true = .ok b ∧
    ∀ jdk, (∃ out, patchContentLength jdk b.primary.stream0 2 = .ok out ∧
      out ≠ b.primary.stream0) ∧ ¬Untouched jdk b.primary.stream0 := by
  obtain ⟨key, hk, -⟩ := fits_key [] imitation false (by rw [Fits, emptyUrl_length]; decide)
  obtain ⟨stream0, hb, l0⟩ := build_inline [] imitation 0#64 true key hk (by decide)
  have hs : StatusLineAt (headerBytes 0#64 imitation.length ++ imitation.list) 16 :=
    least_of_before _ 16 (by decide) (by decide)
  have hblock : BlockAt stream0.list 16 24 := by
    rw [l0]
    exact ⟨hs, by decide, by decide, by decide, by decide⟩
  have hline : HasLength stream0.list 16 24 := by
    rw [l0]
    exact ⟨(JString.lit "content-length:1").getBytes, by decide, by decide⟩
  have hfit : PatchFits stream0.list 16 24 2 := by
    rw [l0]
    exact ⟨by decide, by decide⟩
  refine ⟨_, hb, fun jdk => ?_⟩
  have hpatch := patchContentLength_fits jdk stream0 2 16 24 hblock hline hfit
  have hother : patched stream0.list 16 24 2 ≠ stream0.list := by
    rw [l0]
    decide
  have hne : (⟨_, hfit.2⟩ : Bytes) ≠ stream0 := fun h => hother (congrArg Bytes.list h)
  refine ⟨⟨_, hpatch, hne⟩, fun h => hne ?_⟩
  have hsame := h.patch 2 (by decide)
  exact Except.ok.inj (hpatch.symm.trans hsame)

end CodeCache

end SimpleCacheTool
