import SimpleCacheTool.CodeCache.Layout
import SimpleCacheTool.Library.Modify

namespace SimpleCacheTool

open Fallible Segments LittleEndian SimpleCacheFormat HttpCacheMetadata SimpleCacheLibrary

namespace CodeCache

/-- The third byte of the size of a dedicated payload. -/
theorem headerBytes_high (responseTime : BitVec 64) (size : Nat) (hsize : size ≤ dedicatedLimit) :
    (headerBytes responseTime size)[10]? = some 0#8 := by
  have hl : (bytes 8 responseTime).length = 8 := bytes_length 8 _
  have hn : (BitVec.ofNat 32 size).toNat = size := by
    rw [BitVec.toNat_ofNat]
    unfold dedicatedLimit at hsize
    omega
  have hbyte : (bytes 4 (BitVec.ofNat 32 size))[2]? = some (BitVec.ofNat 8 (size / 256 / 256)) := by
    rw [bytes, hn]
    rfl
  have hzero : size / 256 / 256 = 0 := by
    unfold dedicatedLimit at hsize
    omega
  rw [headerBytes, List.getElem?_append_right (by omega), hl, hbyte, hzero]

/-- A header alone is no stream 0 with a header block, whatever its bytes imitate: a status line that
has room for a length before it would need a size beyond the limit. -/
theorem headerOffset_header (s : Bytes) (responseTime : BitVec 64) (size : Nat)
    (hsize : size ≤ dedicatedLimit) (h : s.list = headerBytes responseTime size) :
    headerOffset s = .ok (-1) := by
  have hl : s.length = 12 := by rw [Bytes.length, h, headerBytes_length]
  rcases headerOffset_spec s (by omega) with habsent | ⟨hs, hat, h4, -, -⟩
  · exact habsent
  · have hin := statusLine_length s.list hs hat
    have he : s.length = s.list.length := rfl
    have hj : 10 - hs < httpBytes.length := by
      rw [httpBytes_length]
      omega
    have hbyte := Lines.occurs_getElem httpBytes s.list hs (10 - hs) hj hat.1
    rw [Nat.add_sub_cancel' (by omega), h, headerBytes_high responseTime size hsize] at hbyte
    have hge := httpBytes_ge (10 - hs) hj
    rw [← Option.some.inj hbyte] at hge
    exact absurd hge (by decide)

/-- The file of a dedicated build. -/
theorem dedicated_file (url : JString) (data : Bytes) (responseTime : BitVec 64) (uppercaseSha s : Bool)
    (b : Built) (F : Bytes) (e' : SimpleCacheEntry)
    (hb : build url data responseTime uppercaseSha = .ok b) (hF : b.primary.serialize s = .ok (F, e'))
    (hmin : ¬data.length ≤ inlineLimit) (hmax : data.length ≤ dedicatedLimit) :
    ∃ f : EntryFile, f.toBytes = F ∧ f.stream0.list = headerBytes responseTime data.length ∧
      f.stream1 = data ∧ f.eof0.hasKeySha256 = s := by
  obtain ⟨key, hk⟩ := build_key url data responseTime uppercaseSha b hb
  obtain ⟨stream0, hb', l0⟩ := build_dedicated url data responseTime uppercaseSha key hk hmin hmax
  obtain rfl := Except.ok.inj (hb'.symm.trans hb)
  have hout := ((SimpleCacheEntry.serialize_eq_ok _ key F s e' rfl).mp hF).1
  have hlt := F.length_lt
  rw [hout, SimpleCacheEntry.written_length] at hlt
  refine ⟨SimpleCacheEntry.file _ key s hlt, ?_, l0, rfl, SimpleCacheEntry.newEof0_hasKeySha256 _ s⟩
  exact Bytes.ext hout.symm

theorem built_file (url : JString) (data : Bytes) (responseTime : BitVec 64) (uppercaseSha s : Bool)
    (hfit : Fits url data s) (hdata : inlineLimit < data.length ∧ data.length ≤ dedicatedLimit) :
    ∃ b F e', build url data responseTime uppercaseSha = .ok b ∧ b.primary.serialize s = .ok (F, e') := by
  obtain ⟨b, d, hb, ⟨p, ⟨F, e', hF, -⟩, -⟩, -⟩ := dedicated_roundTrips url data responseTime uppercaseSha
    s hfit (Nat.not_le.mpr hdata.1) hdata.2
  exact ⟨b, F, e', hb, hF⟩

/-- A modified entry has the dedicated layout for its new body, the size in its header included. -/
def KeepsLayout (jdk : Jdk) (F newBody : Bytes) (responseTime : BitVec 64) : Prop :=
  ∃ out p d, modifyEntryBody jdk F newBody true = .ok out ∧ parseEntry out = .ok p ∧
    decode (some p.stream0) (some p.stream1) = .ok d ∧ d.kind = .dedicated ∧
    d.payload = some newBody ∧ d.responseTimeInternal = responseTime ∧
    d.dataSize.toInt = newBody.length

/-- The modified file is read with the old size. -/
theorem modified_decode (jdk : Jdk) (f : EntryFile) (data newBody : Bytes) (responseTime : BitVec 64)
    (h0 : f.stream0.list = headerBytes responseTime data.length) (hmax : data.length ≤ dedicatedLimit)
    (out : Bytes) (p : SimpleCacheEntry) (hout : modifyEntryBody jdk f.toBytes newBody true = .ok out)
    (hp : parseEntry out = .ok p) : decode (some p.stream0) (some p.stream1) =
      .ok (decoded responseTime data.length .empty newBody) := by
  have habsent := headerOffset_header f.stream0 responseTime data.length hmax h0
  obtain ⟨hs, rfl⟩ := (modify_absent jdk f habsent newBody true out).mp hout
  rw [parse_rewritten] at hp
  rw [← Except.ok.inj hp]
  exact decode_header f.stream0 newBody .empty responseTime data.length (size_word data)
    (by rw [h0]; exact (List.append_nil _).symm)

theorem keepsLayout_length (jdk : Jdk) (f : EntryFile) (data newBody : Bytes) (responseTime : BitVec 64)
    (h0 : f.stream0.list = headerBytes responseTime data.length) (hmax : data.length ≤ dedicatedLimit)
    (h : KeepsLayout jdk f.toBytes newBody responseTime) : newBody.length = data.length := by
  obtain ⟨out, p, d, hout, hp, hd, -, -, -, hsize⟩ := h
  rw [modified_decode jdk f data newBody responseTime h0 hmax out p hout hp] at hd
  rw [← Except.ok.inj hd, (decoded_header responseTime data.length .empty newBody).2,
    toInt32_ofNat _ data.length_lt'] at hsize
  omega

/-- The header keeps the size of the first payload: the layout is kept for bodies of this size
only. -/
theorem modify_keepsLayout_iff (jdk : Jdk) (url : JString) (data : Bytes) (responseTime : BitVec 64)
    (uppercaseSha s : Bool) (b : Built) (F : Bytes) (e' : SimpleCacheEntry) (newBody : Bytes)
    (hb : build url data responseTime uppercaseSha = .ok b) (hF : b.primary.serialize s = .ok (F, e'))
    (hdata : inlineLimit < data.length ∧ data.length ≤ dedicatedLimit)
    (hnew : inlineLimit < newBody.length ∧ newBody.length ≤ dedicatedLimit) :
    KeepsLayout jdk F newBody responseTime ↔ newBody.length = data.length := by
  obtain ⟨f, rfl, h0, h1, hflag⟩ := dedicated_file url data responseTime uppercaseSha s b F e' hb hF
    (Nat.not_le.mpr hdata.1) hdata.2
  constructor
  · exact keepsLayout_length jdk f data newBody responseTime h0 hdata.2
  · intro hlen
    have hfits := f.fits
    rw [f.shaBytes_length, h1, ← hlen] at hfits
    have habsent := headerOffset_header f.stream0 responseTime data.length hdata.2 h0
    have hout := (modify_absent jdk f habsent newBody true _).mpr ⟨hfits, rfl⟩
    have hparse := parse_rewritten f.version f.key newBody f.stream0 f.eof0.hasKeySha256 hfits
    have hd := modified_decode jdk f data newBody responseTime h0 hdata.2 _ _ hout hparse
    have hpos : 0 < newBody.length := Nat.zero_lt_of_lt hnew.1
    obtain ⟨hkind, hpayload⟩ := decoded_dedicated responseTime data.length .empty newBody hpos
    obtain ⟨htime, hsize⟩ := decoded_header responseTime data.length .empty newBody
    refine ⟨_, _, _, hout, hparse, hd, hkind, hpayload, htime, ?_⟩
    rw [hsize, toInt32_ofNat _ data.length_lt', hlen]

/-- The smallest dedicated payload. -/
def firstCode : Bytes := ⟨List.replicate 4097 0, by rw [List.length_replicate]; omega⟩

def longerCode : Bytes := ⟨List.replicate 4098 0, by rw [List.length_replicate]; omega⟩

theorem firstCode_dedicated : inlineLimit < firstCode.length ∧ firstCode.length ≤ dedicatedLimit := by
  have hl : firstCode.length = 4097 := List.length_replicate
  rw [hl]
  decide

theorem firstCode_file : ∃ b F e', build [] firstCode 0#64 true = .ok b ∧
    b.primary.serialize false = .ok (F, e') := by
  have hl : firstCode.length = 4097 := List.length_replicate
  apply built_file
  · rw [Fits, emptyUrl_length, hl]
    decide
  · exact firstCode_dedicated

theorem modify_keepsLayout_first : ∃ b F e', build [] firstCode 0#64 true = .ok b ∧
    b.primary.serialize false = .ok (F, e') ∧ KeepsLayout storedJdk F firstCode 0#64 := by
  obtain ⟨b, F, e', hb, hF⟩ := firstCode_file
  exact ⟨b, F, e', hb, hF, (modify_keepsLayout_iff storedJdk [] firstCode 0#64 true false b F e'
    firstCode hb hF firstCode_dedicated firstCode_dedicated).mpr rfl⟩

theorem longerCode_stale : ∃ b F e', build [] firstCode 0#64 true = .ok b ∧
    b.primary.serialize false = .ok (F, e') ∧ ¬KeepsLayout storedJdk F longerCode 0#64 := by
  obtain ⟨b, F, e', hb, hF⟩ := firstCode_file
  obtain ⟨f, rfl, h0, -, -⟩ := dedicated_file [] firstCode 0#64 true false b F e' hb hF
    (Nat.not_le.mpr firstCode_dedicated.1) firstCode_dedicated.2
  refine ⟨b, f.toBytes, e', hb, hF, ?_⟩
  intro h
  have hlen := keepsLayout_length storedJdk f firstCode longerCode 0#64 h0 firstCode_dedicated.2 h
  have hl : longerCode.length = 4098 := List.length_replicate
  have hf : firstCode.length = 4097 := List.length_replicate
  omega

end CodeCache

end SimpleCacheTool
