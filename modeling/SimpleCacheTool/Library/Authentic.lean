import SimpleCacheTool.Library.Restore

namespace SimpleCacheTool

open Fallible LittleEndian ContentEncoding HttpCacheMetadata

namespace SimpleCacheLibrary

/-- What the checks of `verify` say about an entry that carries no warning. -/
structure Verified (e : SimpleCacheEntry) (key : Bytes) : Prop where
  key_hash : SimpleCacheFormat.keyHash key = .ok e.keyHash
  body_crc : e.eof1.hasCrc32 → SimpleCacheFormat.crc32 e.stream1 = e.eof1.crc32
  metadata_crc : e.eof0.hasCrc32 → SimpleCacheFormat.crc32 e.stream0 = e.eof0.crc32
  sha : e.eof0.hasKeySha256 → e.keySha256 = some (SimpleCacheFormat.sha256 key)

theorem verified_parsed (f : EntryFile) (h : (f.parsed true).warnings = []) :
    Verified (f.parsed true) f.key := by
  have hp : f.unverified.problems f.key = [] := h
  rw [SimpleCacheEntry.problems_eq_nil] at hp
  obtain ⟨hash, crc1, crc0, sha⟩ := hp
  refine ⟨?_, crc1, crc0, fun hflag => ?_⟩
  · rw [SimpleCacheFormat.keyHash_eq_superFastHash, hash]
    rfl
  · have hsome : f.keySha256.isSome := f.sha_flag.trans hflag
    obtain ⟨stored, hstored⟩ := Option.isSome_iff_exists.mp hsome
    rw [sha stored hstored hflag]
    exact hstored

/-- A body without a problem is the decoded stream 1 or, without a coder, stream 1 itself. -/
theorem decodeBody_clean (jdk : Jdk) (stream1 body : Bytes) (encoding name : Option JString)
    (hn : normalize jdk encoding = .ok name)
    (h : decodeBody jdk stream1 encoding = .ok (body, [])) :
    if name = some gzipName ∨ name = some deflateName then
      decode jdk stream1 encoding = .ok (some body) else body = stream1 := by
  rw [decodeBody, isCompressed, isSupported, hn, ok_bind, ok_bind] at h
  split_ifs with hname
  · rw [if_pos (by simpa using hname), bind_eq_ok] at h
    obtain ⟨r, hr, hbody⟩ := h
    cases r with
    | none => cases hbody
    | some decoded =>
      cases hbody
      exact hr
  · rw [if_neg (by simpa using hname)] at h
    cases h
    rfl

/-- A restored entry without a warning, against the entry file that it holds. -/
structure Authentic (jdk : Jdk) (provider : EntryProvider) (r : RestoredEntry)
    (e : SimpleCacheEntry) : Prop where
  file : ∃ raw, provider r.hash = some raw ∧ parseEntry raw = .ok e
  verified : ∃ key, r.key = some key ∧ e.key = some key ∧ Verified e key
  streams : r.rawBody = e.stream1 ∧ r.metadata = e.stream0
  encoding : HttpCacheMetadata.contentEncoding jdk r.metadata = .ok r.contentEncoding
  body : ∀ name, normalize jdk r.contentEncoding = .ok name →
    if name = some gzipName ∨ name = some deflateName then
      decode jdk r.rawBody r.contentEncoding = .ok (some r.body) else r.body = r.rawBody

theorem restoreEntry_authentic (jdk : Jdk) (provider : EntryProvider) (hash : BitVec 64)
    (r : RestoredEntry) (e : SimpleCacheEntry) (h : restoreEntry jdk provider hash = .ok r)
    (he : r.entry = some e) (hr : r.hasProblems = false) : Authentic jdk provider r e := by
  cases hp : provider hash with
  | none =>
    rw [restoreEntry_missing jdk provider hash hp] at h
    rw [← Except.ok.inj h] at he
    cases he
  | some raw =>
    obtain ⟨e', encoding, ⟨body, problems⟩, hparse, hencoding, hdecoded, rfl⟩ :=
      (restoreEntry_present jdk provider hash raw r hp).mp h
    obtain rfl : e' = e := Option.some.inj he
    have hw : e'.warnings ++ problems = [] := by
      simpa [RestoredEntry.hasProblems, restoredFrom] using hr
    obtain ⟨hparsed, rfl⟩ := List.append_eq_nil_iff.mp hw
    obtain ⟨f, hf, rfl⟩ := (SimpleCacheEntry.parse_eq_ok raw true e').mp hparse
    exact ⟨⟨raw, hp, hparse⟩, ⟨f.key, rfl, rfl, verified_parsed f hparsed⟩, ⟨rfl, rfl⟩, hencoding,
      fun name hn => decodeBody_clean jdk _ body encoding name hn hdecoded⟩

/-- Whatever the index lists and the provider supplies, an entry restored without a warning is what
its file says. -/
theorem restore_authentic (jdk : Jdk) (d : Bytes) (provider : EntryProvider)
    (rs : List RestoredEntry) (h : restore jdk d provider = .ok rs) (r : RestoredEntry) (hr : r ∈ rs)
    (e : SimpleCacheEntry) (he : r.entry = some e) (hw : r.hasProblems = false) :
    Authentic jdk provider r e := by
  rw [restore, bind_eq_ok] at h
  obtain ⟨index, -, hrs⟩ := h
  have hrounds := (restoreEntries_eq_ok jdk provider index.entries rs).mp hrs
  obtain ⟨i, hi, rfl⟩ := List.getElem_of_mem hr
  have hround := (List.forall₂_iff_get.mp hrounds).2 i (by rwa [hrounds.length_eq]) hi
  exact restoreEntry_authentic jdk provider _ _ e hround he hw

/-- The small entry as restored under a hash. -/
def smallRestored (hash : BitVec 64) : RestoredEntry :=
  restoredFrom hash (SimpleCacheEntry.smallFile.parsed true) none
    (SimpleCacheEntry.smallFile.stream1, [])

theorem restoreEntry_small (provider : EntryProvider) (hash : BitVec 64)
    (h : provider hash = some SimpleCacheEntry.smallFile.toBytes) :
    restoreEntry storedJdk provider hash = .ok (smallRestored hash) := by
  refine (restoreEntry_present storedJdk provider hash _ _ h).mpr
    ⟨_, none, _, SimpleCacheEntry.smallFile.parse_toBytes true, ?_, ?_, rfl⟩
  · exact contentEncoding_none _ _ (headerBlock_absent _ smallFile_absent)
  · rw [decodeBody, isCompressed_eq storedJdk none none rfl]
    rfl

/-- The listing with the small file under both hashes. -/
theorem restore_small : restore storedJdk (listingFile 0#32)
    (fun _ => some SimpleCacheEntry.smallFile.toBytes) =
      .ok [smallRestored smallHash, smallRestored (~~~smallHash)] := by
  rw [restore_eq_ok _ _ _ _ _ (parse_listing _ (by decide))]
  exact .cons (restoreEntry_small _ _ rfl) (.cons (restoreEntry_small _ _ rfl) .nil)

theorem smallRestored_clean (hash : BitVec 64) : (smallRestored hash).hasProblems = false := by
  have hp : (SimpleCacheEntry.smallFile.parsed true).warnings = [] :=
    SimpleCacheEntry.smallEntry.file_problems SimpleCacheEntry.smallKey true (by decide)
  rw [RestoredEntry.hasProblems, smallRestored, restoredFrom, hp]
  rfl

theorem restore_authentic_small : Authentic storedJdk
    (fun _ => some SimpleCacheEntry.smallFile.toBytes) (smallRestored smallHash)
    (SimpleCacheEntry.smallFile.parsed true) :=
  restore_authentic storedJdk (listingFile 0#32) (fun _ => some SimpleCacheEntry.smallFile.toBytes) _
    restore_small (smallRestored smallHash) List.mem_cons_self _ rfl (smallRestored_clean smallHash)

/-- The key of a file is never compared with the hash it is filed under. -/
theorem restore_misfiled : ∃ rs r e key, restore storedJdk (listingFile 0#32)
    (fun _ => some SimpleCacheEntry.smallFile.toBytes) = .ok rs ∧ r ∈ rs ∧ r.entry = some e ∧
    r.hasProblems = false ∧ r.key = some key ∧ entryHash key ≠ .ok r.hash := by
  refine ⟨_, smallRestored (~~~smallHash), _, SimpleCacheEntry.smallKey, restore_small,
    List.mem_cons_of_mem _ List.mem_cons_self, rfl, smallRestored_clean _, rfl, fun h => ?_⟩
  have hs : smallHash = ~~~smallHash := Except.ok.inj ((SimpleCacheFormat.entryHash_eq _).symm.trans h)
  revert hs
  generalize smallHash = x
  intro hs
  bv_omega

end SimpleCacheLibrary

end SimpleCacheTool
