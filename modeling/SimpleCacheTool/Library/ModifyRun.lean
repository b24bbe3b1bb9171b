import SimpleCacheTool.Library.Authentic
import SimpleCacheTool.Library.Modify
import SimpleCacheTool.Library.UpdateFrame

namespace SimpleCacheTool

open Fallible LittleEndian ContentEncoding HttpCacheMetadata SimpleCacheFormat

namespace SimpleCacheLibrary

/-- What is stored for a body is decoded to that body. -/
theorem storedBody_decodes (jdk : Jdk) (hjdk : Lawful jdk) (s body : Bytes)
    (encoding name : Option JString) (hencoding : HttpCacheMetadata.contentEncoding jdk s = .ok encoding)
    (hn : normalize jdk encoding = .ok name) :
    ∃ out, encoded jdk name body.list = some out ∧
      ∀ h : out.length < 2 ^ 31, storedBody jdk s body true = .ok ⟨out, h⟩ ∧
        decodeBody jdk ⟨out, h⟩ encoding = .ok (body, []) := by
  rcases coder_cases jdk hjdk name with ⟨he, hd⟩ | ⟨f, g, he, hd, hlaw⟩
  · refine ⟨body.list, by rw [encoded, he], ?_⟩
    intro h
    rw [storedBody, if_pos rfl, hencoding, ok_bind, decodeBody, isCompressed_eq jdk encoding name hn,
      ok_bind, ok_bind, hd]
    exact ⟨rfl, rfl⟩
  · obtain ⟨out, hf, hg⟩ := hlaw body.list
    refine ⟨out, by rw [encoded, he]; exact hf, ?_⟩
    intro h
    have hencode : encode jdk body encoding = .ok (some ⟨out, h⟩) := by
      rw [encode_eq jdk body encoding name hn, he]
      change ContentEncoding.written (f body.list) = _
      rw [hf, ContentEncoding.written, toByteArray_of_lt out h]
      rfl
    have hdecode : decode jdk ⟨out, h⟩ encoding = .ok (some body) := by
      rw [decode_eq jdk _ encoding name hn, hd]
      change readAll (g out) = _
      rw [hg, readAll, toByteArray_of_lt _ body.length_lt, ok_bind]
      rfl
    rw [storedBody, if_pos rfl, hencoding, ok_bind, decodeBody, isCompressed_eq jdk encoding name hn,
      ok_bind, ok_bind, hd, hencode, hdecode]
    exact ⟨rfl, rfl⟩

/-- The encoded body and the file rewritten with it have fewer than 2^31 bytes. -/
def RewriteFits (jdk : Jdk) (file body : Bytes) : Prop :=
  ∀ e key encoding name out, parseEntry file = .ok e → e.key = some key →
    HttpCacheMetadata.contentEncoding jdk e.stream0 = .ok encoding →
    normalize jdk encoding = .ok name → encoded jdk name body.list = some out →
    out.length < 2 ^ 31 ∧ ∀ stream0, patchContentLength jdk e.stream0 out.length = .ok stream0 →
      72 + key.length + out.length + stream0.length + (if e.eof0.hasKeySha256 then 32 else 0) < 2 ^ 31

/-- A file rewritten with a new body: its name is kept, and the body is restored from it. -/
structure Carries (jdk : Jdk) (f : EntryFile) (body out : Bytes) : Prop where
  modified : modifyEntryBody jdk f.toBytes body true = .ok out
  names : ∀ hash, entryHash f.key = .ok hash → Names out hash
  restored : ∀ provider hash, provider hash = some out → ∃ r, restoreEntry jdk provider hash = .ok r ∧
    r.body = body ∧ r.warnings = [] ∧ r.key = some f.key ∧
    HttpCacheMetadata.contentEncoding jdk f.stream0 = .ok r.contentEncoding

theorem modify_carries (jdk : Jdk) (hjdk : Lawful jdk) (f : EntryFile) (hw : WellFormed f.stream0)
    (body : Bytes) (hfit : RewriteFits jdk f.toBytes body) : ∃ out, Carries jdk f body out := by
  obtain ⟨encoding, hencoding⟩ := wellFormed_encoding jdk f.stream0 hw
  obtain ⟨name, hn⟩ := normalize_ok jdk encoding
  obtain ⟨out, hout, hstored⟩ := storedBody_decodes jdk hjdk f.stream0 body encoding name hencoding hn
  obtain ⟨hlt, hsize⟩ :=
    hfit (f.parsed true) f.key encoding name out (f.parse_toBytes true) rfl hencoding hn hout
  obtain ⟨hstored, hdecode⟩ := hstored hlt
  obtain ⟨stream0, hpatch, hre⟩ := wellFormed_patch jdk f.stream0 hw out.length hlt
  have hs : (rewritten f.version f.key ⟨out, hlt⟩ stream0).writtenSize f.key f.eof0.hasKeySha256 <
      2 ^ 31 := hsize stream0 hpatch
  refine ⟨(rewrittenFile f.version f.key ⟨out, hlt⟩ stream0 f.eof0.hasKeySha256 hs).toBytes, ?_, ?_, ?_⟩
  · exact (modifyEntryBody_eq_ok jdk f body true _).mpr ⟨_, stream0, hstored, hpatch, hs, rfl⟩
  · intro hash hh
    exact ⟨_, f.key, parse_rewritten _ _ _ _ _ hs, rfl, hh⟩
  · intro provider hash hp
    refine ⟨_, (restoreEntry_present jdk provider hash _ _ hp).mpr ⟨_, encoding, (body, []),
      parse_rewritten _ _ _ _ _ hs, hre.encoding.trans hencoding, hdecode, rfl⟩, rfl, ?_, rfl, hencoding⟩
    exact (List.append_nil _).trans ((rewritten _ _ _ _).file_problems f.key _ hs)

/-! Runs of calls. -/

/-- The index file and the entry files by their hashes. -/
structure CacheState where
  index : Bytes
  files : EntryProvider

/-- A call of `modify` on the current file of a hash. -/
structure ModifyCall where
  hash : BitVec 64
  newBody : Bytes
  lastUsedInternal : BitVec 64

/-- One call, with the result's files put in place of the old ones. -/
def modifyCall (jdk : Jdk) (s : CacheState) (c : ModifyCall) : Java CacheState := do
  let file ← deref (s.files c.hash)
  let result ← modify jdk s.index file c.newBody c.lastUsedInternal
  .ok { index := result.indexFile
        files := Function.update s.files result.hash (some result.entryFile) }

theorem modify_eq (jdk : Jdk) (d file body out d' : Bytes) (time hash : BitVec 64)
    (hout : modifyEntryBody jdk file body true = .ok out) (hd : updateIndex d out time = .ok d')
    (hn : Names out hash) :
    modify jdk d file body time = .ok { hash, entryFile := out, indexFile := d' } := by
  obtain ⟨e, key, he, hk, hh⟩ := hn
  rw [modify, hout, ok_bind, hd, ok_bind, he, ok_bind, hk, deref, ok_bind, hh, ok_bind]

/-- The last call on a hash. -/
def lastCall (calls : List ModifyCall) (hash : BitVec 64) : Option ModifyCall :=
  calls.reverse.find? fun c => c.hash = hash

theorem lastCall_append (calls : List ModifyCall) (c : ModifyCall) (hash : BitVec 64) :
    lastCall (calls ++ [c]) hash = if c.hash = hash then some c else lastCall calls hash := by
  rw [lastCall, List.reverse_append, List.reverse_singleton, List.singleton_append, List.find?_cons]
  split_ifs with h
  · simp [h]
  · simp [h, lastCall]

/-- A file found under its hash, with a stream 0 that can be patched. -/
structure Filed (f : EntryFile) (hash : BitVec 64) : Prop where
  hash_eq : entryHash f.key = .ok hash
  wellFormed : WellFormed f.stream0

/-- What the calls so far have left of one hash. -/
def Left (jdk : Jdk) (files0 files : EntryProvider) (done : List ModifyCall) (hash : BitVec 64) : Prop :=
  match lastCall done hash with
  | some c => ∃ f out, files0 hash = some f.toBytes ∧ Filed f hash ∧ files hash = some out ∧
      Carries jdk f c.newBody out
  | none => files hash = files0 hash

/-- What the calls so far have made of the cache. -/
structure Kept (jdk : Jdk) (x0 : SimpleCacheIndex) (files0 : EntryProvider) (done : List ModifyCall)
    (s : CacheState) : Prop where
  parsed : ∃ x, parseIndex s.index = .ok x ∧
    x.entries.map IndexEntry.hash = x0.entries.map IndexEntry.hash
  left : ∀ hash, Left jdk files0 s.files done hash

/-- Rewriting what the calls have left of a file is rewriting the file. -/
theorem left_modify (jdk : Jdk) (files0 files : EntryProvider) (done : List ModifyCall)
    (hash : BitVec 64) (h : Left jdk files0 files done hash) (f : EntryFile)
    (hfile : files0 hash = some f.toBytes) (body : Bytes) :
    ∃ file, files hash = some file ∧ ∀ out, modifyEntryBody jdk file body true = .ok out ↔
      modifyEntryBody jdk f.toBytes body true = .ok out := by
  rw [Left] at h
  cases hlast : lastCall done hash with
  | none =>
    simp only [hlast] at h
    exact ⟨f.toBytes, h.trans hfile, fun out => Iff.rfl⟩
  | some c =>
    simp only [hlast] at h
    obtain ⟨f', out', hfile', hf', hout', hcarries⟩ := h
    refine ⟨out', hout', ?_⟩
    intro out
    have hsame : f'.toBytes = f.toBytes := Option.some.inj (hfile'.symm.trans hfile)
    rw [modify_modify jdk f' hf'.wellFormed _ body true true out' hcarries.modified, hsame]

/-- A call leaves its body in the file of its hash and every other file as it is. -/
theorem kept_step (jdk : Jdk) (hjdk : Lawful jdk) (x0 : SimpleCacheIndex) (files0 : EntryProvider)
    (done : List ModifyCall) (c : ModifyCall) (s : CacheState) (h : Kept jdk x0 files0 done s)
    (hmem : c.hash ∈ x0.entries.map IndexEntry.hash) (f : EntryFile) (hf : Filed f c.hash)
    (hfile : files0 c.hash = some f.toBytes) (hfit : RewriteFits jdk f.toBytes c.newBody) :
    ∃ s', modifyCall jdk s c = .ok s' ∧ Kept jdk x0 files0 (done ++ [c]) s' := by
  obtain ⟨out, hcarries⟩ := modify_carries jdk hjdk f hf.wellFormed c.newBody hfit
  obtain ⟨file, hcur, hmodify⟩ := left_modify jdk files0 s.files done c.hash (h.left c.hash) f hfile
    c.newBody
  obtain ⟨x, hx, hkeys⟩ := h.parsed
  have hnames := hcarries.names c.hash hf.hash_eq
  rw [← hkeys] at hmem
  obtain ⟨d', hd', hx'⟩ := updateIndex_listed s.index out c.lastUsedInternal c.hash x hx hnames hmem
  have hresult := modify_eq jdk s.index file c.newBody out d' c.lastUsedInternal c.hash
    ((hmodify out).mpr hcarries.modified) hd' hnames
  refine ⟨{ index := d', files := Function.update s.files c.hash (some out) }, ?_, ⟨_, hx', ?_⟩, ?_⟩
  · rw [modifyCall, hcur, deref, ok_bind, hresult, ok_bind]
  · have hkept : (refreshed c.hash c.lastUsedInternal out.length).hash ∈
        x.entries.map IndexEntry.hash := hmem
    change (updated x c.hash c.lastUsedInternal out.length).entries.map IndexEntry.hash = _
    rw [updated_entries, KeyedList.upsert_keys, if_pos hkept, hkeys]
  · intro hash
    rw [Left, lastCall_append]
    by_cases hh : c.hash = hash
    · subst hh
      simp only [if_true, Function.update_self]
      exact ⟨f, out, hfile, hf, rfl, hcarries⟩
    · have hother := h.left hash
      rw [Left] at hother
      simp only [if_neg hh, Function.update_of_ne (Ne.symm hh)]
      exact hother

theorem kept_run (jdk : Jdk) (hjdk : Lawful jdk) (x0 : SimpleCacheIndex) (s0 : CacheState)
    (calls : List ModifyCall) (hx0 : parseIndex s0.index = .ok x0)
    (hcalls : ∀ c ∈ calls, c.hash ∈ x0.entries.map IndexEntry.hash ∧ ∃ f, Filed f c.hash ∧
      s0.files c.hash = some f.toBytes ∧ RewriteFits jdk f.toBytes c.newBody) :
    ∃ s, run (modifyCall jdk) s0 calls = .ok s ∧ Kept jdk x0 s0.files calls s := by
  refine run_total (modifyCall jdk) (fun done s => Kept jdk x0 s0.files done s) calls ?_ s0
    ⟨⟨x0, hx0, rfl⟩, fun hash => rfl⟩
  intro pre c post s hsplit h
  obtain ⟨hmem, f, hf, hfile, hfit⟩ := hcalls c (by simp [hsplit])
  exact kept_step jdk hjdk x0 s0.files pre c s h hmem f hf hfile hfit

/-- The body an unmodified file declares as compressed decodes to fewer than 2^31 bytes. -/
def DecodeFits (jdk : Jdk) (file : Bytes) : Prop :=
  ∀ e encoding name g, parseEntry file = .ok e →
    HttpCacheMetadata.contentEncoding jdk e.stream0 = .ok encoding →
    normalize jdk encoding = .ok name → decoder jdk name = some g →
    (g e.stream1.list).1.length < 2 ^ 31

/-- An entry file accepted by `parseEntry` whose key has the hash it is filed under, with a
well-formed stream 0. -/
def WellFiled (file : Bytes) (hash : BitVec 64) : Prop :=
  ∃ e key, parseEntry file = .ok e ∧ e.key = some key ∧ entryHash key = .ok hash ∧
    WellFormed e.stream0

theorem wellFiled_filed (file : Bytes) (hash : BitVec 64) (h : WellFiled file hash) :
    ∃ f : EntryFile, f.toBytes = file ∧ Filed f hash := by
  obtain ⟨e, key, he, hk, hh, hw⟩ := h
  obtain ⟨f, hf, rfl⟩ := (SimpleCacheEntry.parse_eq_ok file true e).mp he
  obtain rfl : f.key = key := Option.some.inj hk
  exact ⟨f, hf, hh, hw⟩

theorem filed_returns (jdk : Jdk) (f : EntryFile) (hw : WellFormed f.stream0)
    (hfit : DecodeFits jdk f.toBytes) (provider : EntryProvider) (hash : BitVec 64)
    (hp : provider hash = some f.toBytes) : ∃ r, restoreEntry jdk provider hash = .ok r := by
  obtain ⟨encoding, hencoding⟩ := wellFormed_encoding jdk f.stream0 hw
  obtain ⟨name, hn⟩ := normalize_ok jdk encoding
  have hparse := f.parse_toBytes true
  obtain ⟨decoded, hd⟩ := (decodeBody_ok_iff jdk f.stream1 encoding name hn).mpr
    fun g => hfit (f.parsed true) encoding name g hparse hencoding hn
  exact ⟨_, (restoreEntry_present jdk provider hash _ _ hp).mpr
    ⟨_, encoding, decoded, hparse, hencoding, hd, rfl⟩⟩

/-- What `restore` returns for a hash behind a run of calls: the last new body with the file's key and
encoding, or what it returned before the run. -/
def RestoredAfter (jdk : Jdk) (files0 : EntryProvider) (calls : List ModifyCall) (hash : BitVec 64)
    (r : RestoredEntry) : Prop :=
  match lastCall calls hash with
  | some c => ∃ file e, files0 hash = some file ∧ parseEntry file = .ok e ∧ r.body = c.newBody ∧
      r.warnings = [] ∧ r.key = e.key ∧
      HttpCacheMetadata.contentEncoding jdk e.stream0 = .ok r.contentEncoding
  | none => restoreEntry jdk files0 hash = .ok r

theorem left_restores (jdk : Jdk) (files0 files : EntryProvider) (calls : List ModifyCall)
    (hash : BitVec 64) (h : Left jdk files0 files calls hash)
    (hfile : ∀ file, files0 hash = some file → WellFiled file hash)
    (hrest : lastCall calls hash = none → ∀ file, files0 hash = some file → DecodeFits jdk file) :
    ∃ r, restoreEntry jdk files hash = .ok r ∧ RestoredAfter jdk files0 calls hash r := by
  rw [Left] at h
  cases hlast : lastCall calls hash with
  | some c =>
    simp only [hlast] at h
    obtain ⟨f, out, hfile, -, hout, hcarries⟩ := h
    obtain ⟨r, hr, hbody, hw, hkey, hencoding⟩ := hcarries.restored files hash hout
    refine ⟨r, hr, ?_⟩
    rw [RestoredAfter, hlast]
    exact ⟨_, f.parsed true, hfile, f.parse_toBytes true, hbody, hw, hkey, hencoding⟩
  | none =>
    simp only [hlast] at h
    have hsame : restoreEntry jdk files hash = restoreEntry jdk files0 hash := by
      rw [restoreEntry_local, h, ← restoreEntry_local]
    rw [hsame]
    have hr : ∃ r, restoreEntry jdk files0 hash = .ok r := by
      cases hp : files0 hash with
      | none => exact ⟨_, restoreEntry_missing jdk files0 hash hp⟩
      | some file =>
        obtain ⟨f, rfl, hf⟩ := wellFiled_filed file hash (hfile file hp)
        exact filed_returns jdk f hf.wellFormed (hrest hlast _ hp) files0 hash hp
    obtain ⟨r, hr⟩ := hr
    refine ⟨r, hr, ?_⟩
    rw [RestoredAfter, hlast]
    exact hr

/-- After any run of calls, `restore` returns for each hash of the index the last body written, and
for the others what it did before. -/
theorem modify_run_restores (jdk : Jdk) (hjdk : Lawful jdk) (s0 : CacheState) (x0 : SimpleCacheIndex)
    (calls : List ModifyCall) (hx0 : parseIndex s0.index = .ok x0)
    (hfiles : ∀ hash ∈ x0.entries.map IndexEntry.hash, ∀ file, s0.files hash = some file →
      WellFiled file hash)
    (hcalls : ∀ c ∈ calls, c.hash ∈ x0.entries.map IndexEntry.hash ∧
      ∃ file, s0.files c.hash = some file ∧ RewriteFits jdk file c.newBody)
    (hrest : ∀ hash ∈ x0.entries.map IndexEntry.hash, (∀ c ∈ calls, c.hash ≠ hash) →
      ∀ file, s0.files hash = some file → DecodeFits jdk file) :
    ∃ s rs, run (modifyCall jdk) s0 calls = .ok s ∧ restore jdk s.index s.files = .ok rs ∧
      List.Forall₂ (fun e r => r.hash = e.hash ∧ RestoredAfter jdk s0.files calls e.hash r)
        x0.entries rs := by
  obtain ⟨s, hrun, hkept⟩ := kept_run jdk hjdk x0 s0 calls hx0 fun c hc => by
    obtain ⟨hmem, file, hfile, hfit⟩ := hcalls c hc
    obtain ⟨f, rfl, hf⟩ := wellFiled_filed file c.hash (hfiles c.hash hmem file hfile)
    exact ⟨hmem, f, hf, hfile, hfit⟩
  obtain ⟨x, hx, hkeys⟩ := hkept.parsed
  have hround : ∀ hash ∈ x0.entries.map IndexEntry.hash, ∃ r, restoreEntry jdk s.files hash = .ok r ∧
      RestoredAfter jdk s0.files calls hash r := by
    intro hash hmem
    refine left_restores jdk s0.files s.files calls hash (hkept.left hash) (hfiles hash hmem)
      fun hnone => hrest hash hmem fun c hc heq => ?_
    have hn := List.find?_eq_none.mp hnone c (List.mem_reverse.mpr hc)
    simp [heq] at hn
  have hreturns : ∀ e ∈ x.entries, ∃ r, restoreEntry jdk s.files e.hash = .ok r := by
    intro e he
    have hmem : e.hash ∈ x0.entries.map IndexEntry.hash := hkeys ▸ List.mem_map_of_mem he
    obtain ⟨r, hr, -⟩ := hround e.hash hmem
    exact ⟨r, hr⟩
  obtain ⟨rs, hrs⟩ := restoreEntries_returns jdk s.files x.entries hreturns
  have hall := (restoreEntries_eq_ok jdk s.files x.entries rs).mp hrs
  refine ⟨s, rs, hrun, by rw [restore, hx, ok_bind, hrs], ?_⟩
  -- the rounds are those of the first index, whose hashes are the same
  rw [← List.forall₂_map_left_iff (f := IndexEntry.hash)
    (R := fun hash r => restoreEntry jdk s.files hash = .ok r), hkeys] at hall
  have hboth := (List.forall₂_and_left (x0.entries.map IndexEntry.hash) rs).mpr ⟨hround, hall⟩
  rw [List.forall₂_map_left_iff] at hboth
  apply hboth.imp
  intro e r hr
  obtain ⟨⟨r', hr', hafter⟩, hr⟩ := hr
  obtain rfl : r' = r := Except.ok.inj (hr'.symm.trans hr)
  exact ⟨restoreEntry_hash jdk s.files e.hash r' hr', hafter⟩

theorem encoded_stored (name : Option JString) (data : List Byte) :
    encoded storedJdk name data = some data := by
  rw [encoded, encoder]
  split_ifs <;> rfl

theorem smallFile_wellFiled : WellFiled SimpleCacheEntry.smallFile.toBytes smallHash :=
  ⟨_, SimpleCacheEntry.smallKey, SimpleCacheEntry.smallFile.parse_toBytes true, rfl, entryHash_eq _,
    .inl smallFile_absent⟩

theorem smallHash_listed (memory : BitVec 32) :
    smallHash ∈ (listing memory).reread.entries.map IndexEntry.hash := by
  change smallHash ∈ [smallHash, ~~~smallHash]
  exact List.mem_cons_self

/-- What a provider with one file supplies. -/
theorem provided_only (file raw : Bytes) (hash : BitVec 64)
    (h : (if hash = smallHash then some file else none) = some raw) : hash = smallHash ∧ raw = file := by
  rw [Option.ite_none_right_eq_some] at h
  exact ⟨h.1, (Option.some.inj h.2).symm⟩

/-- The listing with the small entry's file, the other file missing. -/
def smallState : CacheState := { index := listingFile 0#32, files := smallProvider }

theorem smallState_file : smallState.files smallHash = some SimpleCacheEntry.smallFile.toBytes := by
  have hfiles : smallState.files = smallProvider := rfl
  rw [hfiles, smallProvider, if_pos rfl]

/-- The file with a content-length under the hash of its key. -/
def lengthProvider : EntryProvider :=
  fun hash => if hash = smallHash then some lengthFile.toBytes else none

def lengthState : CacheState := { index := listingFile 0#32, files := lengthProvider }

theorem lengthState_file : lengthState.files smallHash = some lengthFile.toBytes := by
  have hfiles : lengthState.files = lengthProvider := rfl
  rw [hfiles, lengthProvider, if_pos rfl]

theorem lengthFile_wellFiled : WellFiled lengthFile.toBytes smallHash :=
  ⟨_, SimpleCacheEntry.smallKey, lengthFile.parse_toBytes true, rfl, entryHash_eq _,
    lengthStream_wellFormed⟩

theorem lengthFile_fits (body : Bytes) (h : PatchFits lengthPickle 8 24 body.length)
    (hs : 105 + body.length + (patched lengthPickle 8 24 body.length).length < 2 ^ 31) :
    RewriteFits storedJdk lengthFile.toBytes body := by
  intro e key encoding name out he hk _ _ hout
  rw [parseEntry, lengthFile.parse_toBytes true] at he
  obtain rfl := Except.ok.inj he
  obtain rfl : SimpleCacheEntry.smallKey = key := Option.some.inj hk
  rw [encoded_stored] at hout
  obtain rfl := Option.some.inj hout
  refine ⟨body.length_lt, ?_⟩
  intro stream0 hpatch
  obtain rfl := Except.ok.inj ((lengthStream_patched _ h).symm.trans hpatch)
  have hone : SimpleCacheEntry.smallKey.length = 1 := rfl
  have hflag : (lengthFile.parsed true).eof0.hasKeySha256 = true :=
    SimpleCacheEntry.newEof0_hasKeySha256 _ _
  rw [hone, hflag, if_pos rfl]
  simp only [Bytes.length] at hs ⊢
  omega

/-- Two bodies for one entry, of ten bytes and of one. -/
def twoBodies : List ModifyCall :=
  [⟨smallHash, tenBytes, 7#64⟩, ⟨smallHash, SimpleCacheEntry.smallKey, 8#64⟩]

theorem modify_run_restores_twice : ∃ s rs,
    run (modifyCall storedJdk) lengthState twoBodies = .ok s ∧
    restore storedJdk s.index s.files = .ok rs ∧
    List.Forall₂ (fun e r => r.hash = e.hash ∧ RestoredAfter storedJdk lengthProvider twoBodies e.hash r)
      (listing 0#32).reread.entries rs := by
  refine modify_run_restores storedJdk storedJdk_lawful lengthState (listing 0#32).reread _
    (parse_listing _ (by decide)) ?_ ?_ ?_
  · intro hash _ file hfile
    obtain ⟨rfl, rfl⟩ := provided_only lengthFile.toBytes file hash hfile
    exact lengthFile_wellFiled
  · intro c hc
    have hten := lengthFile_fits tenBytes ⟨by decide, by decide⟩ (by decide)
    have hone := lengthFile_fits SimpleCacheEntry.smallKey ⟨by decide, by decide⟩ (by decide)
    rcases List.mem_pair.mp hc with rfl | rfl
    · exact ⟨smallHash_listed 0#32, _, lengthState_file, hten⟩
    · exact ⟨smallHash_listed 0#32, _, lengthState_file, hone⟩
  · intro hash _ hnone file hfile
    have hne := hnone ⟨smallHash, tenBytes, 7#64⟩ List.mem_cons_self
    exact absurd (provided_only lengthFile.toBytes file hash hfile).1.symm hne

theorem hugeBody_run_throws : parseIndex smallState.index = .ok (listing 0#32).reread ∧
    smallHash ∈ (listing 0#32).reread.entries.map IndexEntry.hash ∧
    (∀ hash file, smallState.files hash = some file → WellFiled file hash) ∧
    (∃ file, smallState.files smallHash = some file) ∧
    run (modifyCall storedJdk) smallState [⟨smallHash, hugeBody, 7#64⟩] =
      .error .negativeArraySize := by
  refine ⟨parse_listing _ (by decide), smallHash_listed 0#32, ?_, ⟨_, smallState_file⟩, ?_⟩
  · intro hash file hfile
    obtain ⟨rfl, rfl⟩ := provided_only SimpleCacheEntry.smallFile.toBytes file hash hfile
    exact smallFile_wellFiled
  · have hcall : modifyCall storedJdk smallState ⟨smallHash, hugeBody, 7#64⟩ =
        .error .negativeArraySize := by
      rw [modifyCall, smallState_file, deref, ok_bind, modify, hugeBody_wrapped,
        error_bind, error_bind]
    rw [run, hcall, error_bind]

end SimpleCacheLibrary

end SimpleCacheTool
