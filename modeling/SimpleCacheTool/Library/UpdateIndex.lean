import SimpleCacheTool.Entry.RoundTrip
import SimpleCacheTool.Index.Serialize
import SimpleCacheTool.Library.SimpleCacheLibrary
import SimpleCacheTool.Math.KeyedList

namespace SimpleCacheTool

open Fallible Segments LittleEndian SimpleCacheFormat

namespace SimpleCacheIndex

/-- What an accepted index file holds: valid entries, and no more than its size allows. -/
theorem parse_entries (d : Bytes) (verifyCrc : Bool) (x : SimpleCacheIndex)
    (h : parse d verifyCrc = .ok x) :
    (∀ e ∈ x.entries, e.Valid) ∧ 48 + 24 * x.entries.length ≤ d.length := by
  obtain ⟨hr, rfl⟩ := (parse_eq_ok d verifyCrc x).mp h
  constructor
  · intro e he
    obtain ⟨i, hi, rfl⟩ := List.mem_map.mp he
    exact recordAt_valid _ _ (hr.packed i (List.mem_range.mp hi))
  · have hl : (readout d (warningsOf d verifyCrc)).entries.length = countOf d := by
      simp [readout, recordsAt]
    rw [hl]
    exact hr.room

theorem putInPlace_eq (e : IndexEntry) (es : List IndexEntry) (h : e.hash ∈ es.map IndexEntry.hash) :
    putInPlace e es = KeyedList.upsert IndexEntry.hash e es := by
  induction es with
  | nil => simp at h
  | cons x xs ih =>
    rw [putInPlace, KeyedList.upsert]
    split_ifs with hx
    · rw [hx]
    · rw [List.map_cons, List.mem_cons] at h
      rw [ih (h.resolve_left fun he => hx he.symm)]

/-- `put` treats the list as a map from hashes. -/
theorem put_entries (x : SimpleCacheIndex) (e : IndexEntry) :
    (x.put e).entries = KeyedList.upsert IndexEntry.hash e x.entries := by
  rw [put, find]
  cases hf : x.entries.find? (fun y => decide (y.hash = e.hash)) with
  | some y =>
    have hm := List.mem_of_find?_eq_some hf
    have hy := List.find?_some hf
    exact putInPlace_eq e x.entries (List.mem_map.mpr ⟨y, hm, by simpa using hy⟩)
  | none =>
    rw [KeyedList.upsert_of_not_mem]
    intro hm
    obtain ⟨y, hy, he⟩ := List.mem_map.mp hm
    have h := List.find?_eq_none.mp hf y hy
    simp [he] at h

/-- The exact sum of the entries' sizes. -/
def totalSize (es : List IndexEntry) : Nat := (es.map fun e => e.getEntrySize.toNat).sum

theorem totalSize_le (es : List IndexEntry) (hv : ∀ e ∈ es, e.Valid) :
    totalSize es ≤ es.length * 2 ^ 38 := by
  induction es with
  | nil => simp [totalSize]
  | cons e es ih =>
    have h := ih fun x hx => hv x (List.mem_cons_of_mem _ hx)
    have hc := (hv e List.mem_cons_self).chunks
    have he := e.getEntrySize_toNat hc
    rw [totalSize, List.map_cons, List.sum_cons, ← totalSize, List.length_cons]
    omega

theorem sizeLoop_eq (es : List IndexEntry) (acc : BitVec 64)
    (h : acc.toNat + totalSize es < 2 ^ 64) :
    (es.foldl (fun total e => total + e.getEntrySize) acc).toNat = acc.toNat + totalSize es := by
  induction es generalizing acc with
  | nil => simp [totalSize]
  | cons e es ih =>
    have hs : totalSize (e :: es) = e.getEntrySize.toNat + totalSize es := by
      rw [totalSize, List.map_cons, List.sum_cons, ← totalSize]
    have ha : (acc + e.getEntrySize).toNat = acc.toNat + e.getEntrySize.toNat := by
      rw [BitVec.toNat_add, Nat.mod_eq_of_lt (by omega)]
    rw [List.foldl_cons, ih _ (by omega), ha, hs, Nat.add_assoc]

end SimpleCacheIndex

namespace SimpleCacheLibrary

open SimpleCacheIndex

/-- The entry `updateIndex` puts for a file of this size. -/
def refreshed (hash time : BitVec 64) (size : Nat) : IndexEntry where
  hash := hash
  lastUsedInternal := time
  entrySizeChunks := BitVec.ofNat 32 ((size + 255) / 256)

theorem refreshed_valid (hash time : BitVec 64) (size : Nat) (h : size < 2 ^ 31) :
    (refreshed hash time size).Valid := by
  constructor
  · rw [refreshed, BitVec.toNat_ofNat]
    omega
  · change (0#32).toNat < 4
    decide

theorem new_eq (hash time : BitVec 64) (size : Nat) (h : size < 2 ^ 31) :
    IndexEntry.new hash time (BitVec.ofNat 64 size) = .ok (refreshed hash time size) := by
  have hb : (BitVec.ofNat 64 size + 255#64).toNat = size + 255 := by
    rw [BitVec.toNat_add, BitVec.toNat_ofNat, BitVec.toNat_ofNat]
    omega
  have hm : (BitVec.ofNat 64 size + 255#64).msb = false := by
    rw [BitVec.msb_eq_decide, decide_eq_false_iff_not, hb]
    omega
  have hc : ((BitVec.ofNat 64 size + 255#64).sshiftRight 8).toNat = (size + 255) / 256 := by
    rw [BitVec.sshiftRight_eq_of_msb_false hm, BitVec.toNat_ushiftRight, hb,
      Nat.shiftRight_eq_div_pow]
  have hbig : ¬(BitVec.ofNat 64 size + 255#64).sshiftRight 8 >>> 30 ≠ 0#64 := by
    rw [not_not, ← BitVec.toNat_inj, BitVec.toNat_ushiftRight, hc, Nat.shiftRight_eq_div_pow]
    change (size + 255) / 256 / 2 ^ 30 = 0
    omega
  have hset : ((BitVec.ofNat 64 size + 255#64).sshiftRight 8).setWidth 32 =
      BitVec.ofNat 32 ((size + 255) / 256) := by
    apply BitVec.eq_of_toNat_eq
    rw [BitVec.toNat_setWidth, hc, BitVec.toNat_ofNat]
  rw [IndexEntry.new, IndexEntry.setEntrySize, throwIf_bind_of_not _ _ _ hbig, hset]
  rfl

/-- An entry file together with the hash it is filed under. -/
def Names (file : Bytes) (hash : BitVec 64) : Prop :=
  ∃ e key, parseEntry file = .ok e ∧ e.key = some key ∧ entryHash key = .ok hash

/-- The index `updateIndex` writes. -/
def updated (x : SimpleCacheIndex) (hash time : BitVec 64) (size : Nat) : SimpleCacheIndex :=
  { (x.put (refreshed hash time size)).recomputeCacheSize with
    reason := reasonIdle
    cacheLastModifiedInternal := time }

theorem updated_entries (x : SimpleCacheIndex) (hash time : BitVec 64) (size : Nat) :
    (updated x hash time size).entries =
      KeyedList.upsert IndexEntry.hash (refreshed hash time size) x.entries :=
  x.put_entries _

theorem updateIndex_eq (d file : Bytes) (time hash : BitVec 64) (x : SimpleCacheIndex)
    (hx : parseIndex d = .ok x) (hf : Names file hash) :
    updateIndex d file time = (updated x hash time file.length).serialize := by
  obtain ⟨e, key, he, hk, hh⟩ := hf
  rw [updateIndex, hx, ok_bind, he, ok_bind, hk, deref, ok_bind]
  change (entryHash key >>= _) = _
  rw [hh, ok_bind, new_eq hash time file.length file.length_lt', ok_bind]
  rfl

theorem updated_valid (x : SimpleCacheIndex) (hash time : BitVec 64) (size : Nat)
    (hs : size < 2 ^ 31) (hv : ∀ e ∈ x.entries, e.Valid) :
    ∀ e ∈ (updated x hash time size).entries, e.Valid := by
  intro e he
  rw [updated_entries] at he
  rcases KeyedList.mem_of_mem_upsert _ _ _ _ he with rfl | hm
  · exact refreshed_valid hash time size hs
  · exact hv e hm

/-- One call: the written index is read back as the updated one. -/
theorem updateIndex_step (d file : Bytes) (time hash : BitVec 64) (x : SimpleCacheIndex)
    (hx : parseIndex d = .ok x) (hf : Names file hash)
    (hs : 48 + 24 * (updated x hash time file.length).entries.length < 2 ^ 31) :
    ∃ out, updateIndex d file time = .ok out ∧
      parseIndex out = .ok (updated x hash time file.length).reread := by
  have hv := updated_valid x hash time file.length file.length_lt' (parse_entries d true x hx).1
  exact ⟨_, (updateIndex_eq d file time hash x hx hf).trans (serialize_eq _ hs), parse_image _ hs hv⟩

/-! Runs of calls. -/

/-- One call on the current index. -/
def updateCall (d : Bytes) (c : Bytes × BitVec 64) : Java Bytes := updateIndex d c.1 c.2

/-- The entry a call leaves. -/
def callEntry (hashOf : Bytes → BitVec 64) (c : Bytes × BitVec 64) : IndexEntry :=
  refreshed (hashOf c.1) c.2 c.1.length

/-- What the calls so far have made of the index. -/
structure Tracks (x0 : SimpleCacheIndex) (hashOf : Bytes → BitVec 64)
    (done : List (Bytes × BitVec 64)) (d : Bytes) (x : SimpleCacheIndex) : Prop where
  parsed : parseIndex d = .ok x
  entries : x.entries =
    KeyedList.upserts IndexEntry.hash x0.entries (done.map (callEntry hashOf))
  last : ∀ c, done.getLast? = some c → x.warnings = [] ∧ x.version = indexFileVersion ∧
    x.reason = reasonIdle ∧ x.cacheLastModifiedInternal = c.2 ∧
    x.cacheSize.toNat = totalSize x.entries

/-- A call adds its entry to the map and refreshes the rest. -/
theorem tracks_step (x0 : SimpleCacheIndex) (hashOf : Bytes → BitVec 64)
    (done : List (Bytes × BitVec 64)) (c : Bytes × BitVec 64) (d : Bytes) (x : SimpleCacheIndex)
    (h : Tracks x0 hashOf done d x) (hf : Names c.1 (hashOf c.1))
    (hlen : (KeyedList.upserts IndexEntry.hash x0.entries
      ((done ++ [c]).map (callEntry hashOf))).length ≤ 1000000) :
    ∃ d' x', updateCall d c = .ok d' ∧ Tracks x0 hashOf (done ++ [c]) d' x' := by
  have he : (updated x (hashOf c.1) c.2 c.1.length).entries =
      KeyedList.upserts IndexEntry.hash x0.entries ((done ++ [c]).map (callEntry hashOf)) := by
    rw [updated_entries, h.entries, List.map_append, KeyedList.upserts_append]
    rfl
  have hsize : 48 + 24 * (updated x (hashOf c.1) c.2 c.1.length).entries.length < 2 ^ 31 := by
    rw [he]
    omega
  obtain ⟨out, hout, hparse⟩ := updateIndex_step d c.1 c.2 (hashOf c.1) x h.parsed hf hsize
  refine ⟨out, _, hout, hparse, he, ?_⟩
  intro c' hc'
  rw [List.getLast?_append_of_ne_nil _ (by simp)] at hc'
  obtain rfl : c = c' := by simpa using hc'
  have hv := updated_valid x (hashOf c.1) c.2 c.1.length c.1.length_lt' (parse_entries d true x h.parsed).1
  have htotal := totalSize_le _ hv
  rw [he] at htotal
  refine ⟨rfl, rfl, rfl, rfl, ?_⟩
  have hsum := sizeLoop_eq (updated x (hashOf c.1) c.2 c.1.length).entries 0#64 (by
    rw [he]
    simp only [BitVec.toNat_zero]
    omega)
  rw [BitVec.toNat_zero, Nat.zero_add] at hsum
  exact hsum

theorem tracks_run (d0 : Bytes) (x0 : SimpleCacheIndex) (hashOf : Bytes → BitVec 64)
    (calls : List (Bytes × BitVec 64)) (hx0 : parseIndex d0 = .ok x0)
    (hf : ∀ c ∈ calls, Names c.1 (hashOf c.1))
    (hlen : (KeyedList.upserts IndexEntry.hash x0.entries
      (calls.map (callEntry hashOf))).length ≤ 1000000) :
    ∃ d, run updateCall d0 calls = .ok d ∧ ∃ x, Tracks x0 hashOf calls d x := by
  refine run_total updateCall (fun done d => ∃ x, Tracks x0 hashOf done d x) calls ?_ d0
    ⟨x0, hx0, rfl, fun c hc => by cases hc⟩
  rintro pre c post d hsplit ⟨x, hx⟩
  have hle := KeyedList.upserts_length_le IndexEntry.hash
    (KeyedList.upserts IndexEntry.hash x0.entries ((pre ++ [c]).map (callEntry hashOf)))
    (post.map (callEntry hashOf))
  rw [← KeyedList.upserts_append, ← List.map_append, List.append_assoc, List.singleton_append,
    ← hsplit] at hle
  obtain ⟨d', x', hd', hx'⟩ := tracks_step x0 hashOf pre c d x hx (hf c (by simp [hsplit])) (by omega)
  exact ⟨d', hd', x', hx'⟩

theorem refreshed_size (hash time : BitVec 64) (size : Nat) (h : size < 2 ^ 31) :
    (refreshed hash time size).getEntrySize.toNat = 256 * ((size + 255) / 256) := by
  have hc : (refreshed hash time size).entrySizeChunks.toNat = (size + 255) / 256 := by
    rw [refreshed, BitVec.toNat_ofNat, Nat.mod_eq_of_lt (by omega)]
  rw [IndexEntry.getEntrySize_toNat _ (refreshed_valid hash time size h).chunks, hc]

/-- The entry a hash ends up with: its last call's, or the one it had. -/
theorem tracks_entry (x0 : SimpleCacheIndex) (hashOf : Bytes → BitVec 64)
    (calls : List (Bytes × BitVec 64)) (d : Bytes) (x : SimpleCacheIndex)
    (h : Tracks x0 hashOf calls d x) (hnd : (x0.entries.map IndexEntry.hash).Nodup) (e : IndexEntry)
    (he : e ∈ x.entries) :
    (∃ c, calls.reverse.find? (fun c => hashOf c.1 = e.hash) = some c ∧ e = callEntry hashOf c) ∨
    (e ∈ x0.entries ∧ ∀ c ∈ calls, hashOf c.1 ≠ e.hash) := by
  rw [h.entries, KeyedList.mem_upserts _ _ _ hnd] at he
  rcases he with hlast | ⟨hold, hnew⟩
  · rw [← List.map_reverse, List.find?_map, Option.map_eq_some_iff] at hlast
    obtain ⟨c, hc, rfl⟩ := hlast
    exact .inl ⟨c, hc, rfl⟩
  · refine .inr ⟨hold, fun c hc heq => hnew ?_⟩
    rw [List.map_map]
    exact List.mem_map.mpr ⟨c, hc, heq⟩

theorem toInt_of_small (v : BitVec 64) (h : v.toNat < 2 ^ 63) : v.toInt = v.toNat := by
  rw [BitVec.toInt_eq_toNat_cond, if_pos (by omega)]

theorem totalSize_toInt (es : List IndexEntry) (hv : ∀ e ∈ es, e.Valid) :
    (es.map fun e => e.getEntrySize.toInt).sum = (totalSize es : Int) := by
  induction es with
  | nil => rfl
  | cons e es ih =>
    have hc := (hv e List.mem_cons_self).chunks
    have he := e.getEntrySize_toNat hc
    rw [List.map_cons, List.sum_cons, ih fun x hx => hv x (List.mem_cons_of_mem _ hx),
      toInt_of_small _ (by omega)]
    rfl

/-- A run of calls on an index keeps it a map from hashes to entries: no entry is lost or doubled,
the last call for a hash decides its entry, the others stay, and the sizes add up. -/
theorem updateIndex_run (d0 : Bytes) (x0 : SimpleCacheIndex) (hashOf : Bytes → BitVec 64)
    (calls : List (Bytes × BitVec 64)) (hx0 : parseIndex d0 = .ok x0)
    (hnd : (x0.entries.map IndexEntry.hash).Nodup) (hne : calls ≠ [])
    (hf : ∀ c ∈ calls, ∃ e key, parseEntry c.1 = .ok e ∧ e.key = some key ∧
      entryHash key = .ok (hashOf c.1))
    (hlen : (KeyedList.firstUse (x0.entries.map IndexEntry.hash)
      (calls.map fun c => hashOf c.1)).length ≤ 1000000) :
    ∃ d x, run updateCall d0 calls = .ok d ∧ parseIndex d = .ok x ∧ x.warnings = [] ∧
      x.version = indexFileVersion ∧ (x.entries.map IndexEntry.hash).Nodup ∧
      x.entries.map IndexEntry.hash = KeyedList.firstUse (x0.entries.map IndexEntry.hash)
        (calls.map fun c => hashOf c.1) ∧
      (∀ e ∈ x.entries, ∀ c, calls.reverse.find? (fun c => hashOf c.1 = e.hash) = some c →
        e.lastUsedInternal = c.2 ∧ e.getEntrySize.toInt = 256 * ((c.1.length + 255) / 256)) ∧
      (∀ e ∈ x.entries, (∀ c ∈ calls, hashOf c.1 ≠ e.hash) → e ∈ x0.entries) ∧
      x.cacheSize.toInt = (x.entries.map fun e => e.getEntrySize.toInt).sum ∧
      x.reason = reasonIdle ∧ x.cacheLastModifiedInternal = (calls.getLast hne).2 := by
  have hkeys : (calls.map (callEntry hashOf)).map IndexEntry.hash = calls.map fun c => hashOf c.1 := by
    rw [List.map_map]
    rfl
  have hlen' : (KeyedList.upserts IndexEntry.hash x0.entries
      (calls.map (callEntry hashOf))).length ≤ 1000000 := by
    rw [← List.length_map (f := IndexEntry.hash), KeyedList.upserts_keys, hkeys]
    exact hlen
  obtain ⟨d, hrun, x, hx⟩ := tracks_run d0 x0 hashOf calls hx0 hf hlen'
  obtain ⟨hw, hver, hreason, hlast, hsize⟩ := hx.last _ (List.getLast?_eq_getLast_of_ne_nil hne)
  have hv := (parse_entries d true x hx.parsed).1
  have htotal := totalSize_le x.entries hv
  rw [← hx.entries] at hlen'
  refine ⟨d, x, hrun, hx.parsed, hw, hver, ?_, ?_, ?_, ?_, ?_, hreason, hlast⟩
  · rw [hx.entries]
    exact KeyedList.upserts_nodup _ _ _ hnd
  · rw [hx.entries, KeyedList.upserts_keys, hkeys]
  · intro e he c hc
    rcases tracks_entry x0 hashOf calls d x hx hnd e he with ⟨c', hc', rfl⟩ | ⟨-, hnone⟩
    · obtain rfl : c' = c := Option.some.inj (hc'.symm.trans hc)
      have hs := refreshed_size (hashOf c'.1) c'.2 c'.1.length c'.1.length_lt'
      refine ⟨rfl, ?_⟩
      have hb := c'.1.length_lt'
      rw [callEntry, toInt_of_small _ (by omega), hs]
      push_cast
      rfl
    · have hm := List.mem_of_find?_eq_some hc
      exact absurd (by simpa using List.find?_some hc) (hnone c (List.mem_reverse.mp hm))
  · intro e he hnone
    rcases tracks_entry x0 hashOf calls d x hx hnd e he with ⟨c, hc, -⟩ | ⟨hold, -⟩
    · have hm := List.mem_of_find?_eq_some hc
      exact absurd (by simpa using List.find?_some hc) (hnone c (List.mem_reverse.mp hm))
    · exact hold
  · rw [totalSize_toInt x.entries hv, toInt_of_small _ (by omega), hsize]

/-- The hash the small entry's file goes by. -/
def smallHash : BitVec 64 := wordAt 64 (sha1Of SimpleCacheEntry.smallKey.list) 0

theorem smallFile_names : Names SimpleCacheEntry.smallFile.toBytes smallHash :=
  ⟨_, SimpleCacheEntry.smallKey, SimpleCacheEntry.smallFile.parse_toBytes true, rfl, entryHash_eq _⟩

/-- An index that lists the small entry, with the given in-memory bits, before another. -/
def listing (memory : BitVec 32) : SimpleCacheIndex where
  entries := [{ hash := smallHash, inMemoryData := memory }, { hash := ~~~smallHash }]

theorem listing_length (memory : BitVec 32) : (listing memory).entries.length = 2 := rfl

def listingFile (memory : BitVec 32) : Bytes :=
  (listing memory).image (by rw [listing_length]; decide)

theorem parse_listing (memory : BitVec 32) (h : memory.toNat < 4) :
    parseIndex (listingFile memory) = .ok (listing memory).reread := by
  apply parse_image _ _
  intro e he
  rcases List.mem_pair.mp he with rfl | rfl
  · refine ⟨?_, h⟩
    change (0#32).toNat < 2 ^ 30
    decide
  · constructor <;> decide

theorem listing_nodup (memory : BitVec 32) :
    ((listing memory).reread.entries.map IndexEntry.hash).Nodup := by
  change [smallHash, ~~~smallHash].Nodup
  simp

theorem updateIndex_run_listing : ∃ d x,
    run updateCall (listingFile 3#32)
      [(SimpleCacheEntry.smallFile.toBytes, 9#64), (SimpleCacheEntry.smallFile.toBytes, 8#64)] = .ok d ∧
    parseIndex d = .ok x ∧ x.warnings = [] ∧ x.version = indexFileVersion ∧
    (x.entries.map IndexEntry.hash).Nodup ∧
    x.entries.map IndexEntry.hash = KeyedList.firstUse
      ((listing 3#32).reread.entries.map IndexEntry.hash) [smallHash, smallHash] ∧
    (∀ e ∈ x.entries, ∀ c, [(SimpleCacheEntry.smallFile.toBytes, 9#64),
        (SimpleCacheEntry.smallFile.toBytes, 8#64)].reverse.find? (fun _ => smallHash = e.hash) = some c →
      e.lastUsedInternal = c.2 ∧ e.getEntrySize.toInt = 256 * ((c.1.length + 255) / 256)) ∧
    (∀ e ∈ x.entries, (∀ c ∈ [(SimpleCacheEntry.smallFile.toBytes, 9#64),
        (SimpleCacheEntry.smallFile.toBytes, 8#64)], smallHash ≠ e.hash) →
      e ∈ (listing 3#32).reread.entries) ∧
    x.cacheSize.toInt = (x.entries.map fun e => e.getEntrySize.toInt).sum ∧
    x.reason = reasonIdle ∧ x.cacheLastModifiedInternal = 8#64 := by
  refine updateIndex_run (listingFile 3#32) (listing 3#32).reread (fun _ => smallHash)
    [(SimpleCacheEntry.smallFile.toBytes, 9#64), (SimpleCacheEntry.smallFile.toBytes, 8#64)]
    (parse_listing _ (by decide)) (listing_nodup _) (by simp) ?_ ?_
  · intro c hc
    rcases List.mem_pair.mp hc with rfl | rfl <;> exact smallFile_names
  · change (KeyedList.firstUse [smallHash, ~~~smallHash] [smallHash, smallHash]).length ≤ _
    simp [KeyedList.firstUse]

end SimpleCacheLibrary

end SimpleCacheTool
