import SimpleCacheTool.Library.UpdateIndex

namespace SimpleCacheTool.SimpleCacheLibrary

open Fallible SimpleCacheFormat SimpleCacheIndex

/-- Two indexes that differ in one hash's size and last-used time, and in the fields of the index
that an update recomputes. -/
structure SameBut (hash : BitVec 64) (x y : SimpleCacheIndex) : Prop where
  magic : y.magic = x.magic
  entries : List.Forall₂ (fun a b => b.hash = a.hash ∧ b.inMemoryData = a.inMemoryData ∧
    (a.hash ≠ hash → b = a)) x.entries y.entries

theorem sameBut_iff (x : SimpleCacheIndex) (hash time : BitVec 64) (size : Nat) (e : IndexEntry)
    (hm : x.magic = indexMagic) (hnd : (x.entries.map IndexEntry.hash).Nodup) (he : e ∈ x.entries)
    (hh : e.hash = hash) :
    SameBut hash x (updated x hash time size).reread ↔ e.inMemoryData = 0#32 := by
  have hmem : (refreshed hash time size).hash ∈ x.entries.map IndexEntry.hash :=
    List.mem_map.mpr ⟨e, he, hh⟩
  have hentries : (updated x hash time size).reread.entries =
      x.entries.map fun b => if b.hash = hash then refreshed hash time size else b := by
    change (updated x hash time size).entries = _
    rw [updated_entries, KeyedList.upsert_eq_map _ _ _ hnd hmem]
    rfl
  constructor
  · intro h
    have hall := h.entries
    rw [hentries, List.forall₂_map_right_iff, List.forall₂_same] at hall
    have hmemory := (hall e he).2.1
    rw [if_pos hh] at hmemory
    exact hmemory.symm
  · intro hzero
    refine ⟨hm.symm, ?_⟩
    rw [hentries, List.forall₂_map_right_iff, List.forall₂_same]
    intro a ha
    split_ifs with hah
    · -- one entry per hash: this is the entry of the call
      obtain rfl : a = e := List.inj_on_of_nodup_map hnd ha he (hah.trans hh.symm)
      exact ⟨hah.symm, hzero.symm, fun hne => absurd hah hne⟩
    · exact ⟨rfl, rfl, fun _ => rfl⟩

/-- An update of a listed hash. -/
theorem updateIndex_listed (d file : Bytes) (time hash : BitVec 64) (x : SimpleCacheIndex)
    (hx : parseIndex d = .ok x) (hf : Names file hash) (hmem : hash ∈ x.entries.map IndexEntry.hash) :
    ∃ out, updateIndex d file time = .ok out ∧
      parseIndex out = .ok (updated x hash time file.length).reread := by
  refine updateIndex_step d file time hash x hx hf ?_
  have hd := d.length_lt'
  have hr := (parse_entries d true x hx).2
  have hr' : (refreshed hash time file.length).hash ∈ x.entries.map IndexEntry.hash := hmem
  have hl : (updated x hash time file.length).entries.length = x.entries.length := by
    rw [updated_entries, ← List.length_map (f := IndexEntry.hash), KeyedList.upsert_keys,
      if_pos hr', List.length_map]
  omega

theorem parse_magic (d : Bytes) (verifyCrc : Bool) (x : SimpleCacheIndex)
    (h : SimpleCacheIndex.parse d verifyCrc = .ok x) : x.magic = indexMagic := by
  obtain ⟨hr, rfl⟩ := (parse_eq_ok d verifyCrc x).mp h
  exact hr.magic

/-- `updateIndex` disturbs nothing but what it refreshes exactly when the entry's in-memory bits are
zero: `put` overwrites them with those of a fresh entry. -/
theorem updateIndex_frame (d file : Bytes) (time hash : BitVec 64) (x : SimpleCacheIndex)
    (e : IndexEntry) (hx : parseIndex d = .ok x) (hnd : (x.entries.map IndexEntry.hash).Nodup)
    (hf : ∃ f key, parseEntry file = .ok f ∧ f.key = some key ∧ entryHash key = .ok hash)
    (he : e ∈ x.entries) (hh : e.hash = hash) :
    (∃ out y, updateIndex d file time = .ok out ∧ parseIndex out = .ok y ∧ SameBut hash x y) ↔
      e.inMemoryData = 0#32 := by
  obtain ⟨out, hout, hparse⟩ := updateIndex_listed d file time hash x hx hf
    (List.mem_map.mpr ⟨e, he, hh⟩)
  have hm := parse_magic d true x hx
  constructor
  · rintro ⟨out', y, hout', hy, hs⟩
    rw [hout] at hout'
    obtain rfl := Except.ok.inj hout'
    rw [hparse] at hy
    rw [← Except.ok.inj hy] at hs
    exact (sameBut_iff x hash time file.length e hm hnd he hh).mp hs
  · intro hzero
    exact ⟨out, _, hout, hparse, (sameBut_iff x hash time file.length e hm hnd he hh).mpr hzero⟩

theorem updateIndex_frame_listing :
    (∃ out y, updateIndex (listingFile 0#32) SimpleCacheEntry.smallFile.toBytes 9#64 = .ok out ∧
      parseIndex out = .ok y ∧ SameBut smallHash (listing 0#32).reread y) ↔ (0#32 : BitVec 32) = 0#32 :=
  updateIndex_frame (listingFile 0#32) SimpleCacheEntry.smallFile.toBytes 9#64 smallHash
    (listing 0#32).reread { hash := smallHash, inMemoryData := 0#32 } (parse_listing _ (by decide))
    (listing_nodup _) smallFile_names List.mem_cons_self rfl

/-- An update of an entry whose in-memory bits are set clears them. -/
theorem updateIndex_memory : parseIndex (listingFile 3#32) = .ok (listing 3#32).reread ∧
    ((listing 3#32).reread.entries.map IndexEntry.hash).Nodup ∧
    Names SimpleCacheEntry.smallFile.toBytes smallHash ∧
    ¬∃ out y, updateIndex (listingFile 3#32) SimpleCacheEntry.smallFile.toBytes 9#64 = .ok out ∧
      parseIndex out = .ok y ∧ SameBut smallHash (listing 3#32).reread y := by
  have hx := parse_listing 3#32 (by decide)
  have hnd := listing_nodup 3#32
  refine ⟨hx, hnd, smallFile_names, ?_⟩
  obtain ⟨out, hout, hparse⟩ := updateIndex_listed (listingFile 3#32)
    SimpleCacheEntry.smallFile.toBytes 9#64 smallHash _ hx smallFile_names List.mem_cons_self
  rintro ⟨out', y, hout', hy, hs⟩
  rw [hout] at hout'
  obtain rfl := Except.ok.inj hout'
  rw [hparse] at hy
  rw [← Except.ok.inj hy] at hs
  have hzero := (sameBut_iff _ smallHash 9#64 SimpleCacheEntry.smallFile.toBytes.length _ rfl hnd
    List.mem_cons_self rfl).mp hs
  exact absurd hzero (by decide)

end SimpleCacheTool.SimpleCacheLibrary
