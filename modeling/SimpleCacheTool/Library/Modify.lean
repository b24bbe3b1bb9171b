import SimpleCacheTool.Library.Restore
import SimpleCacheTool.Metadata.WellFormed

namespace SimpleCacheTool

open Fallible LittleEndian ContentEncoding HttpCacheMetadata SimpleCacheFormat

namespace SimpleCacheLibrary

/-- What a rewritten file is made of. -/
def rewritten (version : BitVec 32) (key stored stream0 : Bytes) : SimpleCacheEntry where
  version := version
  key := some key
  stream1 := stored
  stream0 := stream0

/-- The rewritten file, when it fits an array. -/
def rewrittenFile (version : BitVec 32) (key stored stream0 : Bytes) (w : Bool)
    (hs : (rewritten version key stored stream0).writtenSize key w < 2 ^ 31) : EntryFile :=
  (rewritten version key stored stream0).file key w hs

/-- The parsed entry with its streams replaced. -/
def modified (f : EntryFile) (stored stream0 : Bytes) : SimpleCacheEntry :=
  { f.parsed true with stream1 := stored, stream0 := stream0 }

/-- `serialize` overwrites every other field. -/
theorem serialize_modified (f : EntryFile) (stored stream0 : Bytes) (w : Bool) (out : Bytes) :
    (∃ e', (modified f stored stream0).serialize w = .ok (out, e')) ↔
      ∃ hs, out = (rewrittenFile f.version f.key stored stream0 w hs).toBytes := by
  have hsize := SimpleCacheEntry.written_length (rewritten f.version f.key stored stream0) f.key w
  constructor
  · rintro ⟨e', he⟩
    rw [SimpleCacheEntry.serialize_eq_ok _ f.key out w e' rfl] at he
    have hout : out.list = ((rewritten f.version f.key stored stream0).written f.key w).flatten := he.1
    have hlt := out.length_lt
    rw [hout, hsize] at hlt
    exact ⟨hlt, Bytes.ext hout⟩
  · rintro ⟨hs, rfl⟩
    exact ⟨_, (SimpleCacheEntry.serialize_eq_ok _ f.key _ w _ rfl).mpr ⟨rfl, rfl⟩⟩

/-- The rewritten file depends on the version, the key, stream 0 and the checksum flag of the old one
and on nothing else. -/
theorem modifyEntryBody_eq_ok (jdk : Jdk) (f : EntryFile) (body : Bytes) (auto : Bool) (out : Bytes) :
    modifyEntryBody jdk f.toBytes body auto = .ok out ↔
      ∃ stored stream0, storedBody jdk f.stream0 body auto = .ok stored ∧
        patchContentLength jdk f.stream0 stored.length = .ok stream0 ∧
        ∃ hs, out = (rewrittenFile f.version f.key stored stream0 f.eof0.hasKeySha256 hs).toBytes := by
  rw [modifyEntryBody, parseEntry, f.parse_toBytes true, ok_bind]
  simp only [bind_eq_ok, ← serialize_modified]
  constructor
  · rintro ⟨stored, hstored, stream0, hpatch, ⟨out', e'⟩, hs, hout⟩
    obtain rfl : out' = out := Except.ok.inj hout
    exact ⟨stored, stream0, hstored, hpatch, e', hs⟩
  · rintro ⟨stored, stream0, hstored, hpatch, e', hs⟩
    exact ⟨stored, hstored, stream0, hpatch, ⟨out, e'⟩, hs, rfl⟩

theorem rewritten_size (version : BitVec 32) (key stored stream0 : Bytes) (w : Bool) :
    (rewritten version key stored stream0).writtenSize key w =
      72 + key.length + stored.length + stream0.length + (if w then 32 else 0) := rfl

/-- A rewritten file that does not fit is not written. -/
theorem modify_wrapped (jdk : Jdk) (f : EntryFile) (body : Bytes) (auto : Bool) (stored stream0 : Bytes)
    (hstored : storedBody jdk f.stream0 body auto = .ok stored)
    (hpatch : patchContentLength jdk f.stream0 stored.length = .ok stream0)
    (hl : 2 ^ 31 ≤ (rewritten f.version f.key stored stream0).writtenSize f.key f.eof0.hasKeySha256)
    (hu : (rewritten f.version f.key stored stream0).writtenSize f.key f.eof0.hasKeySha256 < 2 ^ 32) :
    modifyEntryBody jdk f.toBytes body auto = .error .negativeArraySize := by
  rw [modifyEntryBody, parseEntry, f.parse_toBytes true, ok_bind]
  change ((storedBody jdk f.stream0 body auto) >>= _) = _
  rw [hstored, ok_bind]
  change ((patchContentLength jdk f.stream0 stored.length) >>= _) = _
  rw [hpatch, ok_bind]
  have hw := (modified f stored stream0).serialize_wrapped f.key f.eof0.hasKeySha256 rfl hl hu
  change ((modified f stored stream0).serialize f.eof0.hasKeySha256 >>= _) = _
  rw [hw, error_bind]

theorem parse_rewritten (version : BitVec 32) (key stored stream0 : Bytes) (w : Bool) (hs) :
    parseEntry (rewrittenFile version key stored stream0 w hs).toBytes =
      .ok ((rewrittenFile version key stored stream0 w hs).parsed true) :=
  (rewrittenFile version key stored stream0 w hs).parse_toBytes true

theorem storedBody_repatched (jdk : Jdk) (s t body : Bytes) (auto : Bool) (h : Repatched jdk s t) :
    storedBody jdk t body auto = storedBody jdk s body auto := by
  cases auto with
  | false => rfl
  | true => rw [storedBody, storedBody, h.encoding]

/-- Rewriting a rewritten file is rewriting the old one. -/
theorem modify_modify (jdk : Jdk) (f : EntryFile) (hw : WellFormed f.stream0) (a b : Bytes)
    (autoA autoB : Bool) (mid : Bytes) (hmid : modifyEntryBody jdk f.toBytes a autoA = .ok mid)
    (out : Bytes) : modifyEntryBody jdk mid b autoB = .ok out ↔
      modifyEntryBody jdk f.toBytes b autoB = .ok out := by
  obtain ⟨stored, stream0, -, hpatch, hs, rfl⟩ := (modifyEntryBody_eq_ok jdk f a autoA mid).mp hmid
  obtain ⟨t, ht, hre⟩ := wellFormed_patch jdk f.stream0 hw stored.length stored.length_lt'
  obtain rfl : t = stream0 := Except.ok.inj (ht.symm.trans hpatch)
  rw [modifyEntryBody_eq_ok, modifyEntryBody_eq_ok]
  have hflag : (rewrittenFile f.version f.key stored t f.eof0.hasKeySha256 hs).eof0.hasKeySha256 =
      f.eof0.hasKeySha256 := SimpleCacheEntry.newEof0_hasKeySha256 _ _
  rw [hflag]
  change (∃ stored' stream0', storedBody jdk t b autoB = .ok stored' ∧
    patchContentLength jdk t stored'.length = .ok stream0' ∧ ∃ hs', out =
      (rewrittenFile f.version f.key stored' stream0' f.eof0.hasKeySha256 hs').toBytes) ↔ _
  rw [storedBody_repatched jdk f.stream0 t b autoB hre]
  simp only [hre.patch]

/-- The parts of an entry that a rewrite keeps. -/
def SameResource (e e' : SimpleCacheEntry) : Prop :=
  e.version = e'.version ∧ e.key = e'.key ∧ e.stream0 = e'.stream0 ∧
    e.eof0.hasKeySha256 = e'.eof0.hasKeySha256

/-- The last body written wins: nothing of the old body is left, neither of the file's first one nor
of one that was written in between. -/
theorem modifyEntryBody_lastWins (jdk : Jdk) :
    (∀ F F' e e', parseEntry F = .ok e → parseEntry F' = .ok e' → SameResource e e' →
      ∀ body auto out, modifyEntryBody jdk F body auto = .ok out ↔
        modifyEntryBody jdk F' body auto = .ok out) ∧
    ∀ F e, parseEntry F = .ok e → WellFormed e.stream0 →
      ∀ a b autoA autoB mid, modifyEntryBody jdk F a autoA = .ok mid →
        ∀ out, modifyEntryBody jdk mid b autoB = .ok out ↔
          modifyEntryBody jdk F b autoB = .ok out := by
  constructor
  · intro F F' e e' he he' hsame body auto out
    obtain ⟨f, rfl, rfl⟩ := (SimpleCacheEntry.parse_eq_ok F true e).mp he
    obtain ⟨f', rfl, rfl⟩ := (SimpleCacheEntry.parse_eq_ok F' true e').mp he'
    obtain ⟨hversion, hkey, hstream0, hflag⟩ := hsame
    have hversion : f.version = f'.version := hversion
    have hkey : f.key = f'.key := Option.some.inj hkey
    have hstream0 : f.stream0 = f'.stream0 := hstream0
    have hflag : f.eof0.hasKeySha256 = f'.eof0.hasKeySha256 := hflag
    rw [modifyEntryBody_eq_ok, modifyEntryBody_eq_ok, hversion, hkey, hstream0, hflag]
  · intro F e he hw a b autoA autoB mid hmid out
    obtain ⟨f, rfl, rfl⟩ := (SimpleCacheEntry.parse_eq_ok F true e).mp he
    exact modify_modify jdk f hw a b autoA autoB mid hmid out

/-- A body for an entry without an encoding is stored as it is. -/
theorem storedBody_plain (jdk : Jdk) (s body : Bytes) (auto : Bool)
    (h : HttpCacheMetadata.contentEncoding jdk s = .ok none) : storedBody jdk s body auto = .ok body := by
  cases auto with
  | false => rfl
  | true =>
    rw [storedBody, if_pos rfl, h, ok_bind, isCompressed_eq jdk none none rfl, ok_bind]
    rfl

/-- Without an encoding the body is replaced as it is, and stream 0 by its patch. -/
theorem modify_plain (jdk : Jdk) (f : EntryFile) (body stream0 : Bytes) (auto : Bool)
    (hencoding : HttpCacheMetadata.contentEncoding jdk f.stream0 = .ok none)
    (hpatch : patchContentLength jdk f.stream0 body.length = .ok stream0) (out : Bytes) :
    modifyEntryBody jdk f.toBytes body auto = .ok out ↔
      ∃ hs, out = (rewrittenFile f.version f.key body stream0 f.eof0.hasKeySha256 hs).toBytes := by
  have hplain := storedBody_plain jdk f.stream0 body auto hencoding
  rw [modifyEntryBody_eq_ok]
  constructor
  · rintro ⟨stored, patched, hs, hp, hsize, hout⟩
    rw [hplain] at hs
    obtain rfl := Except.ok.inj hs
    rw [hpatch] at hp
    obtain rfl := Except.ok.inj hp
    exact ⟨hsize, hout⟩
  · rintro ⟨hs, hout⟩
    exact ⟨body, _, hplain, hpatch, hs, hout⟩

theorem modify_absent (jdk : Jdk) (f : EntryFile) (h : headerOffset f.stream0 = .ok (-1)) (body : Bytes)
    (auto : Bool) (out : Bytes) : modifyEntryBody jdk f.toBytes body auto = .ok out ↔
      ∃ hs, out = (rewrittenFile f.version f.key body f.stream0 f.eof0.hasKeySha256 hs).toBytes :=
  modify_plain jdk f body _ auto (contentEncoding_none _ _ (headerBlock_absent _ h))
    (patchContentLength_absent jdk f.stream0 body.length h) out

/-- A stream 0 with a content-length. -/
def lengthStream : Bytes := ⟨lengthPickle, by decide⟩

theorem lengthStream_wellFormed : WellFormed lengthStream := by
  have hquiet : ∀ k < 7, 4 ≤ k → ¬httpBytes.take k <:+ lengthPickle.take 4 := by decide
  exact .inr ⟨8, 24, lengthPickle_block, by decide, by decide, by decide, by decide,
    fun k h4 h7 => hquiet k h7 h4⟩

theorem lengthStream_encoding : contentEncoding storedJdk lengthStream = .ok none := by
  rw [contentEncoding_lines storedJdk lengthStream _
    (headerBlock_block lengthStream 8 24 lengthPickle_block)]
  decide

theorem lengthStream_patched (n : Nat) (h : PatchFits lengthPickle 8 24 n) :
    patchContentLength storedJdk lengthStream n = .ok ⟨patched lengthPickle 8 24 n, h.2⟩ :=
  patchContentLength_fits storedJdk lengthStream n 8 24 lengthPickle_block
    ⟨(JString.lit "content-length:9").getBytes, by decide, by decide⟩ h

/-- The key with a stored body of nine bytes, as the content-length says. -/
def lengthFile : EntryFile :=
  rewrittenFile entryVersion SimpleCacheEntry.smallKey ⟨List.replicate 9 0, by decide⟩ lengthStream true
    (by decide)

/-- A body with a length of two digits, so that the pickle grows. -/
def tenBytes : Bytes := ⟨List.replicate 10 0, by decide⟩

theorem lengthFile_modified (body : Bytes) (h : PatchFits lengthPickle 8 24 body.length)
    (hs : (rewritten lengthFile.version lengthFile.key body ⟨_, h.2⟩).writtenSize lengthFile.key
      lengthFile.eof0.hasKeySha256 < 2 ^ 31) (auto : Bool) :
    modifyEntryBody storedJdk lengthFile.toBytes body auto = .ok (rewrittenFile lengthFile.version
      lengthFile.key body ⟨_, h.2⟩ lengthFile.eof0.hasKeySha256 hs).toBytes :=
  (modify_plain storedJdk lengthFile body _ auto lengthStream_encoding (lengthStream_patched _ h)
    _).mpr ⟨hs, rfl⟩

theorem modifyEntryBody_lastWins_length : ∃ mid out,
    modifyEntryBody storedJdk lengthFile.toBytes tenBytes true = .ok mid ∧
    modifyEntryBody storedJdk lengthFile.toBytes SimpleCacheEntry.smallKey false = .ok out ∧
    modifyEntryBody storedJdk mid SimpleCacheEntry.smallKey false = .ok out ∧
    ∀ e, SameResource (lengthFile.parsed true) e → ∀ file, parseEntry file = .ok e →
      modifyEntryBody storedJdk file SimpleCacheEntry.smallKey false = .ok out := by
  have hmid := lengthFile_modified tenBytes ⟨by decide, by decide⟩ (by decide) true
  have hout := lengthFile_modified SimpleCacheEntry.smallKey ⟨by decide, by decide⟩ (by decide) false
  have hparse : parseEntry lengthFile.toBytes = .ok (lengthFile.parsed true) :=
    lengthFile.parse_toBytes true
  refine ⟨_, _, hmid, hout, ?_, ?_⟩
  · exact ((modifyEntryBody_lastWins storedJdk).2 _ _ hparse lengthStream_wellFormed _ _ _ _ _ hmid
      _).mpr hout
  · intro e hsame file hfile
    exact ((modifyEntryBody_lastWins storedJdk).1 _ _ _ _ hparse hfile hsame _ _ _).mp hout

/-- A body that fits an array, but not together with the rest of its file. -/
def hugeBody : Bytes := ⟨List.replicate (2 ^ 31 - 100) 0, by rw [List.length_replicate]; omega⟩

theorem hugeBody_wrapped : modifyEntryBody storedJdk SimpleCacheEntry.smallFile.toBytes hugeBody true =
    .error .negativeArraySize := by
  have hplain := storedBody_plain storedJdk SimpleCacheEntry.smallFile.stream0 hugeBody true
    (contentEncoding_none _ _ (headerBlock_absent _ smallFile_absent))
  have hpatch := patchContentLength_absent storedJdk _ hugeBody.length smallFile_absent
  have hl : hugeBody.length = 2 ^ 31 - 100 := List.length_replicate
  have h1 : SimpleCacheEntry.smallFile.key.length = 1 := rfl
  have h4 : SimpleCacheEntry.smallFile.stream0.length = 4 := rfl
  have hw := modify_wrapped storedJdk SimpleCacheEntry.smallFile hugeBody true hugeBody _ hplain hpatch
  have hflag : SimpleCacheEntry.smallFile.eof0.hasKeySha256 = true := rfl
  rw [rewritten_size, hl, h1, h4, hflag, if_pos rfl] at hw
  exact hw (by omega) (by omega)

theorem hugeBody_throws : WellFormed SimpleCacheEntry.smallFile.stream0 ∧
    (modifyEntryBody storedJdk SimpleCacheEntry.smallFile.toBytes hugeBody true >>= fun mid =>
      modifyEntryBody storedJdk mid .empty true) = .error .negativeArraySize ∧
    ∃ out, modifyEntryBody storedJdk SimpleCacheEntry.smallFile.toBytes .empty true = .ok out := by
  refine ⟨.inl smallFile_absent, ?_, _,
    (modify_absent storedJdk _ smallFile_absent .empty true _).mpr ⟨by decide, rfl⟩⟩
  rw [hugeBody_wrapped, error_bind]

end SimpleCacheLibrary

end SimpleCacheTool
