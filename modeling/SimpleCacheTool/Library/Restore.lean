import SimpleCacheTool.Library.UpdateIndex
import SimpleCacheTool.Metadata.HeaderBlock

namespace SimpleCacheTool

open Fallible LittleEndian ContentEncoding HttpCacheMetadata

namespace SimpleCacheLibrary

/-- One round of `restore` asks the provider for its own hash and for nothing else. -/
theorem restoreEntry_local (jdk : Jdk) (provider : EntryProvider) (hash : BitVec 64) :
    restoreEntry jdk provider hash = restoreEntry jdk (fun _ => provider hash) hash := rfl

theorem restoreEntry_missing (jdk : Jdk) (provider : EntryProvider) (hash : BitVec 64)
    (h : provider hash = none) : restoreEntry jdk provider hash =
      .ok { hash, key := some .empty, body := .empty, rawBody := .empty, metadata := .empty,
            contentEncoding := none, entry := none, warnings := ["missing entry file"] } := by
  rw [restoreEntry, h]

/-- What `restore` makes of a file that can be read. -/
def restoredFrom (hash : BitVec 64) (e : SimpleCacheEntry) (encoding : Option JString)
    (decoded : Bytes × List String) : RestoredEntry where
  hash := hash
  key := e.key
  body := decoded.1
  rawBody := e.stream1
  metadata := e.stream0
  contentEncoding := encoding
  entry := some e
  warnings := e.warnings ++ decoded.2

theorem restoreEntry_present (jdk : Jdk) (provider : EntryProvider) (hash : BitVec 64) (raw : Bytes)
    (r : RestoredEntry) (h : provider hash = some raw) : restoreEntry jdk provider hash = .ok r ↔
      ∃ e encoding decoded, parseEntry raw = .ok e ∧
        HttpCacheMetadata.contentEncoding jdk e.stream0 = .ok encoding ∧
        decodeBody jdk e.stream1 encoding = .ok decoded ∧
        r = restoredFrom hash e encoding decoded := by
  rw [restoreEntry, h]
  simp only [bind_eq_ok]
  constructor
  · rintro ⟨e, he, encoding, hencoding, decoded, hdecoded, hr⟩
    exact ⟨e, encoding, decoded, he, hencoding, hdecoded, (Except.ok.inj hr).symm⟩
  · rintro ⟨e, encoding, decoded, he, hencoding, hdecoded, rfl⟩
    exact ⟨e, he, encoding, hencoding, decoded, hdecoded, rfl⟩

theorem restoreEntry_hash (jdk : Jdk) (provider : EntryProvider) (hash : BitVec 64)
    (r : RestoredEntry) (h : restoreEntry jdk provider hash = .ok r) : r.hash = hash := by
  cases hp : provider hash with
  | none =>
    rw [restoreEntry_missing jdk provider hash hp] at h
    exact (congrArg RestoredEntry.hash (Except.ok.inj h)).symm
  | some raw =>
    obtain ⟨e, encoding, decoded, -, -, -, rfl⟩ :=
      (restoreEntry_present jdk provider hash raw r hp).mp h
    rfl

/-- The loop adds one element for each entry, in the order of the index. -/
theorem restoreEntries_eq_ok (jdk : Jdk) (provider : EntryProvider) (es : List IndexEntry)
    (rs : List RestoredEntry) : restoreEntries jdk provider es = .ok rs ↔
      List.Forall₂ (fun e r => restoreEntry jdk provider e.hash = .ok r) es rs := by
  induction es generalizing rs with
  | nil =>
    rw [restoreEntries, List.forall₂_nil_left_iff, Except.ok.injEq, eq_comm]
  | cons e es ih =>
    rw [restoreEntries, List.forall₂_cons_left_iff]
    simp only [bind_eq_ok, ih]
    constructor
    · rintro ⟨r, hr, rs', hrs, he⟩
      exact ⟨r, rs', hr, hrs, (Except.ok.inj he).symm⟩
    · rintro ⟨r, rs', hr, hrs, rfl⟩
      exact ⟨r, hr, rs', hrs, rfl⟩

theorem restore_eq_ok (jdk : Jdk) (d : Bytes) (provider : EntryProvider) (index : SimpleCacheIndex)
    (rs : List RestoredEntry) (h : parseIndex d = .ok index) : restore jdk d provider = .ok rs ↔
      List.Forall₂ (fun e r => restoreEntry jdk provider e.hash = .ok r) index.entries rs := by
  rw [restore, h, ok_bind, restoreEntries_eq_ok]

theorem restore_round (jdk : Jdk) (d : Bytes) (provider : EntryProvider) (index : SimpleCacheIndex)
    (rs : List RestoredEntry) (h : parseIndex d = .ok index) (hrs : restore jdk d provider = .ok rs)
    (e : IndexEntry) (he : e ∈ index.entries) : ∃ r, restoreEntry jdk provider e.hash = .ok r := by
  rw [restore_eq_ok jdk d provider index rs h] at hrs
  obtain ⟨i, hi, rfl⟩ := List.getElem_of_mem he
  exact ⟨_, (List.forall₂_iff_get.mp hrs).2 i hi (by rwa [← hrs.length_eq])⟩

/-- The loop gets through when every round does. -/
theorem restoreEntries_returns (jdk : Jdk) (provider : EntryProvider) (es : List IndexEntry)
    (h : ∀ e ∈ es, ∃ r, restoreEntry jdk provider e.hash = .ok r) :
    ∃ rs, restoreEntries jdk provider es = .ok rs := by
  induction es with
  | nil => exact ⟨[], rfl⟩
  | cons e es ih =>
    obtain ⟨r, hr⟩ := h e List.mem_cons_self
    obtain ⟨rs, hrs⟩ := ih fun x hx => h x (List.mem_cons_of_mem e hx)
    exact ⟨r :: rs, by rw [restoreEntries, hr, ok_bind, hrs, ok_bind]⟩

theorem decodeBody_ok_iff (jdk : Jdk) (stream1 : Bytes) (encoding name : Option JString)
    (hn : normalize jdk encoding = .ok name) : (∃ r, decodeBody jdk stream1 encoding = .ok r) ↔
      ∀ g, decoder jdk name = some g → (g stream1.list).1.length < 2 ^ 31 := by
  rw [decodeBody, isCompressed_eq jdk encoding name hn, ok_bind]
  cases hd : decoder jdk name with
  | none => simp
  | some g =>
    have hg := readAll_ok_iff (g stream1.list)
    have hread : decode jdk stream1 encoding = readAll (g stream1.list) := by
      rw [decode_eq jdk stream1 encoding name hn, hd]
    simp only [Option.isSome_some, if_true, hread, Option.some.injEq, forall_eq', ← hg]
    cases readAll (g stream1.list) with
    | error x => simp
    | ok r => cases r <;> simp

/-- A file from which `restore` can make an element: its header block ends at an int, and the body
it declares as compressed does not decode to more than an array holds. -/
def Restorable (jdk : Jdk) (raw : Bytes) : Prop :=
  ∃ f : EntryFile, f.toBytes = raw ∧ BlockEnds f.stream0.list ∧
    ∀ encoding name, HttpCacheMetadata.contentEncoding jdk f.stream0 = .ok encoding →
      normalize jdk encoding = .ok name →
      ∀ g, decoder jdk name = some g → (g f.stream1.list).1.length < 2 ^ 31

theorem restoreEntry_returns_iff (jdk : Jdk) (provider : EntryProvider) (hash : BitVec 64) :
    (∃ r, restoreEntry jdk provider hash = .ok r) ↔
      ∀ raw, provider hash = some raw → Restorable jdk raw := by
  cases hp : provider hash with
  | none =>
    rw [restoreEntry_missing jdk provider hash hp]
    simp
  | some raw =>
    simp only [restoreEntry_present jdk provider hash raw _ hp, Option.some.injEq, forall_eq']
    constructor
    · rintro ⟨r, e, encoding, decoded, he, hencoding, hdecoded, -⟩
      obtain ⟨f, hf, rfl⟩ := (SimpleCacheEntry.parse_eq_ok raw true e).mp he
      have hfits := f.fits
      have hencoding : HttpCacheMetadata.contentEncoding jdk f.stream0 = .ok encoding := hencoding
      have hends : BlockEnds f.stream0.list := by
        rcases contentEncoding_ends jdk f.stream0 (by omega) with ⟨h, -⟩ | ⟨-, h⟩
        · exact h
        · rw [hencoding] at h
          cases h
      refine ⟨f, hf, hends, ?_⟩
      intro encoding' name h' hn
      rw [hencoding] at h'
      obtain rfl := Except.ok.inj h'
      exact (decodeBody_ok_iff jdk f.stream1 encoding name hn).mp ⟨decoded, hdecoded⟩
    · rintro ⟨f, rfl, hends, hdecode⟩
      have hfits := f.fits
      rcases contentEncoding_ends jdk f.stream0 (by omega) with ⟨-, encoding, h⟩ | ⟨hout, -⟩
      · obtain ⟨name, hn⟩ := normalize_ok jdk encoding
        obtain ⟨decoded, hd⟩ :=
          (decodeBody_ok_iff jdk f.stream1 encoding name hn).mpr (hdecode encoding name h hn)
        exact ⟨_, f.parsed true, encoding, decoded, f.parse_toBytes true, h, hd, rfl⟩
      · exact absurd hends hout

/-- The file can be parsed, its encoding looked up and its body decoded. -/
def Readable (jdk : Jdk) (raw : Bytes) : Prop :=
  ∃ e encoding body, parseEntry raw = .ok e ∧
    HttpCacheMetadata.contentEncoding jdk e.stream0 = .ok encoding ∧
    decodeBody jdk e.stream1 encoding = .ok (body, [])

/-- An element without a warning comes from a readable file. -/
theorem restoreEntry_reports (jdk : Jdk) (provider : EntryProvider) (hash : BitVec 64)
    (r : RestoredEntry) (h : restoreEntry jdk provider hash = .ok r)
    (hr : ¬∃ raw, provider hash = some raw ∧ Readable jdk raw) : r.hasProblems = true := by
  cases hp : provider hash with
  | none =>
    rw [restoreEntry_missing jdk provider hash hp] at h
    rw [← Except.ok.inj h]
    rfl
  | some raw =>
    obtain ⟨e, encoding, ⟨body, problems⟩, he, hencoding, hdecoded, rfl⟩ :=
      (restoreEntry_present jdk provider hash raw r hp).mp h
    cases problems with
    | nil => exact absurd ⟨raw, hp, e, encoding, body, he, hencoding, hdecoded⟩ hr
    | cons p ps => simp [RestoredEntry.hasProblems, restoredFrom]

/-- `restore` returns one element for each entry of the index, in its order and with its hash, made
from that entry's file alone, and reports a missing or damaged file in its own element. -/
def Isolated (jdk : Jdk) (d : Bytes) (provider : EntryProvider) (index : SimpleCacheIndex) : Prop :=
  ∃ rs, restore jdk d provider = .ok rs ∧ List.Forall₂ (fun e r => r.hash = e.hash ∧
    restoreEntry jdk (fun _ => provider e.hash) e.hash = .ok r ∧
    ((¬∃ raw, provider e.hash = some raw ∧ Readable jdk raw) → r.hasProblems = true))
    index.entries rs

/-- A damaged entry is reported on its own, and the others are restored as if they were alone, exactly
when each supplied file is one that its round can be finished on. -/
theorem restore_isolates_iff (jdk : Jdk) (d : Bytes) (provider : EntryProvider)
    (index : SimpleCacheIndex) (h : parseIndex d = .ok index) : Isolated jdk d provider index ↔
      ∀ e ∈ index.entries, ∀ raw, provider e.hash = some raw → Restorable jdk raw := by
  simp only [← restoreEntry_returns_iff]
  constructor
  · rintro ⟨rs, hrs, -⟩ e he
    exact restore_round jdk d provider index rs h hrs e he
  · intro hall
    obtain ⟨rs, hrs⟩ := restoreEntries_returns jdk provider index.entries hall
    have hrounds := (restoreEntries_eq_ok jdk provider index.entries rs).mp hrs
    refine ⟨rs, by rw [restore, h, ok_bind, hrs], hrounds.imp ?_⟩
    intro e r hr
    exact ⟨restoreEntry_hash jdk provider e.hash r hr, restoreEntry_local jdk provider e.hash ▸ hr,
      restoreEntry_reports jdk provider e.hash r hr⟩

/-- The library's stored coders hand a stream back as it is. -/
theorem storedDecoder_length (name : Option JString) (g : List Byte → List Byte × Bool)
    (h : decoder storedJdk name = some g) (data : Bytes) : (g data.list).1.length < 2 ^ 31 := by
  have hg : g = fun l => (l, true) := by
    rw [decoder] at h
    split_ifs at h <;> exact (Option.some.inj h).symm
  rw [hg]
  exact data.length_lt'

theorem smallFile_absent : headerOffset SimpleCacheEntry.smallFile.stream0 = .ok (-1) := by
  rw [headerOffset, if_pos (by decide)]

theorem smallFile_restorable : Restorable storedJdk SimpleCacheEntry.smallFile.toBytes := by
  refine ⟨SimpleCacheEntry.smallFile, rfl, fun hs h => ?_, fun _ name _ _ g hg =>
    storedDecoder_length name g hg _⟩
  have hl := statusLine_length _ hs h
  have h4 : SimpleCacheEntry.smallFile.stream0.list.length = 4 := by decide
  omega

/-- The small entry's file alone is there. -/
def smallProvider : EntryProvider :=
  fun hash => if hash = smallHash then some SimpleCacheEntry.smallFile.toBytes else none

theorem restore_isolates_listing :
    Isolated storedJdk (listingFile 0#32) smallProvider (listing 0#32).reread := by
  refine (restore_isolates_iff storedJdk (listingFile 0#32) smallProvider (listing 0#32).reread
    (parse_listing _ (by decide))).mpr fun e _ raw hraw => ?_
  rw [smallProvider, Option.ite_none_right_eq_some] at hraw
  rw [← Option.some.inj hraw.2]
  exact smallFile_restorable

/-- One empty file, and nothing is restored. -/
theorem emptyFile_notIsolated : parseIndex (listingFile 0#32) = .ok (listing 0#32).reread ∧
    ¬Isolated storedJdk (listingFile 0#32) (fun _ => some .empty) (listing 0#32).reread := by
  refine ⟨parse_listing _ (by decide), ?_⟩
  rintro ⟨rs, hrs, -⟩
  have hround := restore_round storedJdk (listingFile 0#32) (fun _ => some .empty) _ rs
    (parse_listing _ (by decide)) hrs
  obtain ⟨f, hf, -⟩ := (restoreEntry_returns_iff _ _ _).mp (hround _ List.mem_cons_self) .empty rfl
  have hl := congrArg Bytes.length hf
  have h0 : Bytes.empty.length = 0 := rfl
  rw [EntryFile.toBytes_length, h0] at hl
  omega

end SimpleCacheLibrary

end SimpleCacheTool
