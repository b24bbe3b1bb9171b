import SimpleCacheTool.Chromium.SimpleIndex

namespace SimpleCacheTool.Chromium

/-! The entries as a map. -/

namespace EntrySet

def keys (entries : EntrySet) : List (BitVec 64) := entries.map Prod.fst

/-- The exact sum of the sizes. -/
def totalSize (entries : EntrySet) : Nat := (entries.map fun e => e.2.getEntrySize.toNat).sum

theorem totalSize_append (a b : EntrySet) : totalSize (a ++ b) = totalSize a + totalSize b := by
  rw [totalSize, List.map_append, List.sum_append]
  rfl

theorem totalSize_cons (e : BitVec 64 × EntryMetadata) (b : EntrySet) :
    totalSize (e :: b) = e.2.getEntrySize.toNat + totalSize b := by
  rw [totalSize, List.map_cons, List.sum_cons]
  rfl

theorem sumSizes_eq (entries : EntrySet) : entries.sumSizes = BitVec.ofNat 64 entries.totalSize := by
  suffices h : ∀ (n : Nat), entries.foldl (fun size e => size + e.2.getEntrySize) (BitVec.ofNat 64 n) =
      BitVec.ofNat 64 (n + entries.totalSize) by
    have h0 := h 0
    rwa [Nat.zero_add] at h0
  induction entries with
  | nil =>
    intro n
    rfl
  | cons e es ih =>
    intro n
    have he : BitVec.ofNat 64 n + e.2.getEntrySize =
        BitVec.ofNat 64 (n + e.2.getEntrySize.toNat) := by
      rw [BitVec.ofNat_add, BitVec.ofNat_toNat, BitVec.setWidth_eq]
    rw [List.foldl_cons, he, ih, totalSize_cons, Nat.add_assoc]

theorem find_eq_none (entries : EntrySet) (hash : BitVec 64) :
    entries.find hash = none ↔ hash ∉ entries.keys := by
  rw [find, List.lookup_eq_none_iff, keys, List.mem_map]
  constructor
  · rintro h ⟨e, he, rfl⟩
    simpa using h e he
  · intro h e he
    exact bne_iff_ne.mpr fun hk => h ⟨e, he, hk.symm⟩

/-- An entry that is found, and what stands around it. -/
theorem find_split (entries : EntrySet) (hash : BitVec 64) (m : EntryMetadata)
    (hnd : entries.keys.Nodup) (h : entries.find hash = some m) :
    ∃ a b : EntrySet, entries = a ++ (hash, m) :: b ∧ hash ∉ a.keys ∧ hash ∉ b.keys := by
  obtain ⟨a, b, rfl, ha⟩ := List.lookup_eq_some_iff.mp h
  refine ⟨a, b, rfl, ?_, ?_⟩
  · intro hm
    obtain ⟨e, he, hk⟩ := List.mem_map.mp hm
    have hne : hash ≠ e.1 := by simpa using ha e he
    exact hne hk.symm
  · rw [keys, List.map_append, List.map_cons, List.nodup_append] at hnd
    exact (List.nodup_cons.mp hnd.2.1).1

theorem modify_of_notMem (entries : EntrySet) (hash : BitVec 64) (m : EntryMetadata)
    (h : hash ∉ entries.keys) : entries.modify hash m = entries := by
  have hid : entries.modify hash m = entries.map id := by
    apply List.map_congr_left
    intro e he
    have hne : e.1 ≠ hash := fun hk => h (hk ▸ List.mem_map_of_mem he)
    rw [if_neg hne, id]
  rw [hid, List.map_id]

theorem erase_of_notMem (entries : EntrySet) (hash : BitVec 64) (h : hash ∉ entries.keys) :
    entries.erase hash = entries := by
  apply List.filter_eq_self.mpr
  intro e he
  have hne : e.1 ≠ hash := fun hk => h (hk ▸ List.mem_map_of_mem he)
  simpa using hne

theorem modify_split (a b : EntrySet) (hash : BitVec 64) (m m' : EntryMetadata)
    (ha : hash ∉ a.keys) (hb : hash ∉ b.keys) :
    modify (a ++ (hash, m) :: b) hash m' = a ++ (hash, m') :: b := by
  have h1 := modify_of_notMem a hash m' ha
  have h2 := modify_of_notMem b hash m' hb
  rw [modify] at h1 h2 ⊢
  rw [List.map_append, List.map_cons, h1, h2, if_pos rfl]

theorem erase_split (a b : EntrySet) (hash : BitVec 64) (m : EntryMetadata)
    (ha : hash ∉ a.keys) (hb : hash ∉ b.keys) : erase (a ++ (hash, m) :: b) hash = a ++ b := by
  have h1 := erase_of_notMem a hash ha
  have h2 := erase_of_notMem b hash hb
  rw [erase] at h1 h2 ⊢
  rw [List.filter_append, List.filter_cons_of_neg (by simp), h1, h2]

@[simp] theorem keys_modify (entries : EntrySet) (hash : BitVec 64) (m : EntryMetadata) :
    (entries.modify hash m).keys = entries.keys := by
  rw [keys, modify, List.map_map]
  apply List.map_congr_left
  intro e _
  simp only [Function.comp]
  split_ifs <;> rfl

theorem mem_keys_erase (entries : EntrySet) (hash x : BitVec 64) :
    x ∈ (entries.erase hash).keys ↔ x ∈ entries.keys ∧ x ≠ hash := by
  simp only [keys, erase, List.mem_map, List.mem_filter, decide_eq_true_eq]
  grind

theorem keys_erase_nodup (entries : EntrySet) (hash : BitVec 64) (h : entries.keys.Nodup) :
    (entries.erase hash).keys.Nodup := by
  exact h.sublist (List.filter_sublist.map _)

theorem mem_keys_insert (entries : EntrySet) (hash x : BitVec 64) (m : EntryMetadata) :
    x ∈ keys (insertInEntrySet hash m entries) ↔ x = hash ∨ x ∈ entries.keys := by
  rw [insertInEntrySet]
  split_ifs with h
  · constructor
    · exact .inr
    · rintro (rfl | hx)
      · exact h
      · exact hx
  · simp [keys, or_comm]

end EntrySet

open EntrySet

namespace SimpleIndex

/-- The hashes differ, the size is that of the entries, and what was removed during loading is gone. -/
structure Consistent (s : SimpleIndex) : Prop where
  nodup : s.entriesSet.keys.Nodup
  cacheSize : s.cacheSize = BitVec.ofNat 64 s.entriesSet.totalSize
  removed : ∀ h ∈ s.removedEntries, s.initialized = false ∧ h ∉ s.entriesSet.keys
  watermarks : s.lowWatermark ≤ s.highWatermark
  waiting : s.initialized = true → s.toRunWhenInitialized = []
  written : ∀ w ∈ s.written, w.1.keys.Nodup ∧ w.2 = BitVec.ofNat 64 w.1.totalSize

/-- The size changes by what the entry's size does. -/
theorem updateEntryIteratorSize_some (s : SimpleIndex) (hash size : BitVec 64) (m m' : EntryMetadata)
    (hs : s.Consistent) (hf : s.entriesSet.find hash = some m) (hm : m.setEntrySize size = some m') :
    (s.updateEntryIteratorSize hash m size).1 =
      { s with
        entriesSet := s.entriesSet.modify hash m'
        cacheSize := BitVec.ofNat 64 (s.entriesSet.modify hash m').totalSize } := by
  obtain ⟨a, b, he, ha, hb⟩ := find_split _ hash m hs.nodup hf
  have hsize : s.cacheSize - m.getEntrySize + m'.getEntrySize =
      BitVec.ofNat 64 (s.entriesSet.modify hash m').totalSize := by
    rw [hs.cacheSize, he, modify_split a b hash m m' ha hb]
    simp only [totalSize_append, totalSize_cons]
    have h1 := m.getEntrySize.isLt
    have h2 := m'.getEntrySize.isLt
    apply BitVec.eq_of_toNat_eq
    simp only [BitVec.toNat_add, BitVec.toNat_sub, BitVec.toNat_ofNat]
    omega
  rw [updateEntryIteratorSize]
  simp only [hm, hsize]

/-- Emptying an entry before it is erased takes its size off the total. -/
theorem remove_known (s : SimpleIndex) (hash : BitVec 64) (m : EntryMetadata) (hs : s.Consistent)
    (hf : s.entriesSet.find hash = some m) :
    s.eraseEntry hash m =
      { s with
        entriesSet := s.entriesSet.erase hash
        cacheSize := BitVec.ofNat 64 (s.entriesSet.erase hash).totalSize } := by
  obtain ⟨a, b, he, ha, hb⟩ := find_split _ hash m hs.nodup hf
  have hm : m.setEntrySize 0#64 = some { m with entrySize256bChunks := 0#30 } := rfl
  have hmod := modify_split a b hash m { m with entrySize256bChunks := 0#30 } ha hb
  rw [← he] at hmod
  have h1 := erase_split a b hash m ha hb
  rw [← he] at h1
  have h2 := erase_split a b hash { m with entrySize256bChunks := 0#30 } ha hb
  rw [← hmod] at h2
  have htotal : (s.entriesSet.modify hash { m with entrySize256bChunks := 0#30 }).totalSize =
      (s.entriesSet.erase hash).totalSize := by
    rw [hmod, h1, totalSize_append, totalSize_append, totalSize_cons]
    change _ + (0 + _) = _
    rw [Nat.zero_add]
  simp only [eraseEntry, updateEntryIteratorSize_some s hash 0#64 m _ hs hf hm, htotal, h2, h1]

theorem postpone_eq (s : SimpleIndex) : s.postponeWritingToDisk =
    { s with writePending := s.writePending || s.initialized } := by
  rw [postponeWritingToDisk]
  split_ifs with hi
  · rw [hi, Bool.or_true]
  · have h : (s.writePending || s.initialized) = s.writePending := by
      rw [Bool.eq_false_iff.mpr hi, Bool.or_false]
    rw [h]

/-- What removing a hash comes to, known or not. -/
theorem remove_eq (s : SimpleIndex) (hash : BitVec 64) (hs : s.Consistent) : s.remove hash =
    { s with
      entriesSet := s.entriesSet.erase hash
      cacheSize := BitVec.ofNat 64 (s.entriesSet.erase hash).totalSize
      removedEntries := if s.initialized then s.removedEntries else hash :: s.removedEntries
      writePending := s.writePending || (s.initialized && (s.entriesSet.find hash).isSome) } := by
  rw [remove]
  cases hf : s.entriesSet.find hash with
  | none =>
    have he := erase_of_notMem _ hash ((find_eq_none _ hash).mp hf)
    rw [noteRemoved, he, ← hs.cacheSize, Option.isSome_none, Bool.and_false, Bool.or_false]
  | some m =>
    simp only [remove_known s hash m hs hf, noteRemoved, postpone_eq, Option.isSome_some, Bool.and_true]

theorem remove_consistent (s : SimpleIndex) (hash : BitVec 64) (hs : s.Consistent) :
    (s.remove hash).Consistent := by
  rw [remove_eq s hash hs]
  refine ⟨keys_erase_nodup _ hash hs.nodup, rfl, ?_, hs.watermarks, hs.waiting, hs.written⟩
  intro h hm
  simp only [mem_keys_erase, not_and_or]
  split_ifs at hm with hi
  · obtain ⟨hi', -⟩ := hs.removed h hm
    rw [hi] at hi'
    cases hi'
  · refine ⟨Bool.eq_false_iff.mpr hi, ?_⟩
    rcases List.mem_cons.mp hm with rfl | hm
    · exact .inr (not_not.mpr rfl)
    · exact .inl (hs.removed h hm).2

theorem newMetadata_size (c : IndexConfig) (now : BitVec 64) :
    (newMetadata c now).getEntrySize = 0#64 := by
  rw [newMetadata]
  split_ifs <;> rfl

theorem insert_eq (c : IndexConfig) (s : SimpleIndex) (hash now : BitVec 64) : s.insert c hash now =
    { s with
      entriesSet := insertInEntrySet hash (newMetadata c now) s.entriesSet
      removedEntries :=
        if s.initialized then s.removedEntries else s.removedEntries.filter (· ≠ hash)
      writePending :=
        s.writePending || (s.initialized && (s.entriesSet.find hash).isNone) } := by
  simp only [insert, postpone_eq]
  cases s.entriesSet.find hash with
  | none => simp
  | some m => simp

theorem totalSize_insert (c : IndexConfig) (entries : EntrySet) (hash now : BitVec 64) :
    totalSize (insertInEntrySet hash (newMetadata c now) entries) = entries.totalSize := by
  rw [insertInEntrySet]
  split_ifs
  · rfl
  · rw [totalSize_append, totalSize_cons, newMetadata_size]
    rfl

theorem keys_insert_nodup (entries : EntrySet) (hash : BitVec 64) (m : EntryMetadata)
    (h : entries.keys.Nodup) : (keys (insertInEntrySet hash m entries)).Nodup := by
  rw [insertInEntrySet]
  split_ifs with hm
  · exact h
  · rw [keys, List.map_append]
    exact h.append (List.nodup_singleton _) (by simpa [keys] using hm)

theorem insert_consistent (c : IndexConfig) (s : SimpleIndex) (hash now : BitVec 64)
    (hs : s.Consistent) : (s.insert c hash now).Consistent := by
  rw [insert_eq]
  refine ⟨keys_insert_nodup _ hash _ hs.nodup, ?_, ?_, hs.watermarks, hs.waiting, hs.written⟩
  · change s.cacheSize = _
    rw [totalSize_insert, hs.cacheSize]
  · intro h hm
    split_ifs at hm with hi
    · obtain ⟨hi', -⟩ := hs.removed h hm
      rw [hi] at hi'
      cases hi'
    · rw [List.mem_filter, decide_eq_true_eq] at hm
      refine ⟨(hs.removed h hm.1).1, ?_⟩
      rw [mem_keys_insert, not_or]
      exact ⟨hm.2, (hs.removed h hm.1).2⟩

/-- Changing what does not count keeps everything. -/
theorem modify_consistent (s : SimpleIndex) (hash : BitVec 64) (m m' : EntryMetadata) (hs : s.Consistent)
    (hf : s.entriesSet.find hash = some m) (hm : m'.getEntrySize = m.getEntrySize) :
    ({ s with entriesSet := s.entriesSet.modify hash m' } : SimpleIndex).Consistent := by
  obtain ⟨a, b, he, ha, hb⟩ := find_split _ hash m hs.nodup hf
  have htotal : (s.entriesSet.modify hash m').totalSize = s.entriesSet.totalSize := by
    rw [he, modify_split a b hash m m' ha hb]
    simp only [totalSize_append, totalSize_cons, hm]
  refine ⟨?_, ?_, ?_, hs.watermarks, hs.waiting, hs.written⟩
  · rw [keys_modify]
    exact hs.nodup
  · change s.cacheSize = _
    rw [htotal, hs.cacheSize]
  · intro h hr
    rw [keys_modify]
    exact hs.removed h hr

theorem postpone_consistent (s : SimpleIndex) (hs : s.Consistent) :
    s.postponeWritingToDisk.Consistent := by
  rw [postpone_eq]
  exact ⟨hs.nodup, hs.cacheSize, hs.removed, hs.watermarks, hs.waiting, hs.written⟩

theorem writeToDisk_consistent (s : SimpleIndex) (hs : s.Consistent) : s.writeToDisk.Consistent := by
  rw [writeToDisk]
  split_ifs
  · refine ⟨hs.nodup, hs.cacheSize, hs.removed, hs.watermarks, hs.waiting, ?_⟩
    intro w hw
    rcases List.mem_append.mp hw with hw | hw
    · exact hs.written w hw
    · rw [List.mem_singleton.mp hw]
      exact ⟨hs.nodup, hs.cacheSize⟩
  · exact hs

theorem doomEntries_consistent (s : SimpleIndex) (hashes : List (BitVec 64)) (hs : s.Consistent) :
    (s.doomEntries hashes).Consistent := by
  have h : (hashes.foldl remove s).Consistent := by
    induction hashes generalizing s with
    | nil => exact hs
    | cons hash hashes ih => exact ih _ (remove_consistent s hash hs)
  exact ⟨h.nodup, h.cacheSize, h.removed, h.watermarks, h.waiting, h.written⟩

theorem startEviction_consistent (c : IndexConfig) (s : SimpleIndex) (now : BitVec 64)
    (address : Addresses) (hs : s.Consistent) :
    (s.startEvictionIfNeeded c now address).Consistent := by
  rw [startEvictionIfNeeded]
  split_ifs
  · exact hs
  · exact doomEntries_consistent _ _
      ⟨hs.nodup, hs.cacheSize, hs.removed, hs.watermarks, hs.waiting, hs.written⟩

theorem watermarks_le (maxBytes : BitVec 64) : maxBytes - 2#64 * (maxBytes / kEvictionMarginDivisor) ≤
    maxBytes - maxBytes / kEvictionMarginDivisor := by
  have h := maxBytes.isLt
  have hq : (maxBytes / kEvictionMarginDivisor).toNat = maxBytes.toNat / 20 := BitVec.toNat_udiv
  generalize maxBytes / kEvictionMarginDivisor = q at hq ⊢
  have h2 : (2#64 * q).toNat = 2 * q.toNat := by
    rw [BitVec.toNat_mul]
    exact Nat.mod_eq_of_lt (by rw [BitVec.toNat_ofNat]; omega)
  have hs (x : BitVec 64) (hx : x.toNat ≤ maxBytes.toNat) :
      (maxBytes - x).toNat = maxBytes.toNat - x.toNat := BitVec.toNat_sub_of_le hx
  rw [BitVec.le_def, hs _ (by omega), hs _ (by omega)]
  omega

theorem setMaxSize_consistent (c : IndexConfig) (s : SimpleIndex) (maxBytes now : BitVec 64)
    (address : Addresses) (hs : s.Consistent) : (s.setMaxSize c maxBytes now address).Consistent := by
  rw [setMaxSize]
  have h : ({ s with
      maxSize := maxBytes
      highWatermark := maxBytes - maxBytes / kEvictionMarginDivisor
      lowWatermark := maxBytes - 2#64 * (maxBytes / kEvictionMarginDivisor) } : SimpleIndex).Consistent :=
    ⟨hs.nodup, hs.cacheSize, hs.removed, watermarks_le maxBytes, hs.waiting, hs.written⟩
  split_ifs
  · exact startEviction_consistent c _ now address h
  · exact h

theorem updateEntryIteratorSize_consistent (s : SimpleIndex) (hash size : BitVec 64) (m : EntryMetadata)
    (hs : s.Consistent) (hf : s.entriesSet.find hash = some m) :
    (s.updateEntryIteratorSize hash m size).1.Consistent := by
  cases hm : m.setEntrySize size with
  | none =>
    rw [updateEntryIteratorSize, hm]
    exact hs
  | some m' =>
    rw [updateEntryIteratorSize_some s hash size m m' hs hf hm]
    refine ⟨?_, rfl, ?_, hs.watermarks, hs.waiting, hs.written⟩
    · rw [keys_modify]
      exact hs.nodup
    · intro h hr
      rw [keys_modify]
      exact hs.removed h hr

theorem mergeInitializingSet_consistent (s : SimpleIndex) (entries : EntrySet) (flush : Bool)
    (hs : s.Consistent) (he : entries.keys.Nodup) : (s.mergeInitializingSet entries flush).Consistent := by
  have hmerged : (s.mergedEntries entries).keys.Nodup :=
    KeyedList.upserts_nodup Prod.fst _ _ (he.sublist (List.filter_sublist.map _))
  have hw : ∀ w ∈ s.written ++ [(s.mergedEntries entries, (s.mergedEntries entries).sumSizes)],
      w.1.keys.Nodup ∧ w.2 = BitVec.ofNat 64 w.1.totalSize := by
    intro w hw
    rcases List.mem_append.mp hw with hw | hw
    · exact hs.written w hw
    · rw [List.mem_singleton.mp hw]
      exact ⟨hmerged, sumSizes_eq _⟩
  rw [mergeInitializingSet]
  cases flush
  · exact ⟨hmerged, sumSizes_eq _, fun h hr => absurd hr List.not_mem_nil, hs.watermarks, fun _ => rfl,
      hs.written⟩
  · exact ⟨hmerged, sumSizes_eq _, fun h hr => absurd hr List.not_mem_nil, hs.watermarks, fun _ => rfl, hw⟩

end SimpleIndex

/-- A load result is a map. -/
def IndexEvent.Sound : IndexEvent → Prop
  | .mergeInitializingSet entries _ => entries.keys.Nodup
  | _ => True

namespace SimpleIndex

theorem step_consistent (c : IndexConfig) (s : SimpleIndex) (e : IndexEvent) (he : e.Sound)
    (hs : s.Consistent) : (s.step c e).Consistent := by
  cases e with
  | insert hash now => exact insert_consistent c s hash now hs
  | remove hash => exact remove_consistent s hash hs
  | useIfExists hash now =>
    rw [step, useIfExists]
    cases hf : s.entriesSet.find hash with
    | none => exact hs
    | some m =>
      by_cases hc : c.cacheType = .appCache
      · simp only [if_pos hc]
        exact hs
      · simp only [if_neg hc]
        exact postpone_consistent _ (modify_consistent s hash m _ hs hf rfl)
  | setEntryInMemoryData hash value =>
    rw [step, setEntryInMemoryData]
    cases hf : s.entriesSet.find hash with
    | none => exact hs
    | some m => exact modify_consistent s hash m _ hs hf rfl
  | setTrailerPrefetchSize hash size =>
    rw [step, setTrailerPrefetchSize]
    cases hf : s.entriesSet.find hash with
    | none => exact hs
    | some m =>
      have hsize : (m.setTrailerPrefetch size).getEntrySize = m.getEntrySize := by
        rw [EntryMetadata.setTrailerPrefetch]
        split_ifs <;> rfl
      have h := modify_consistent s hash m _ hs hf hsize
      simp only
      split_ifs
      · exact postpone_consistent _ h
      · exact h
  | updateEntrySize hash size now address =>
    rw [step, updateEntrySize]
    cases hf : s.entriesSet.find hash with
    | none => exact hs
    | some m =>
      have h := updateEntryIteratorSize_consistent s hash size m hs hf
      simp only
      split_ifs
      · exact startEviction_consistent c _ now address (postpone_consistent _ h)
      · exact h
  | setMaxSize maxBytes now address => exact setMaxSize_consistent c s maxBytes now address hs
  | evictionDone => exact ⟨hs.nodup, hs.cacheSize, hs.removed, hs.watermarks, hs.waiting, hs.written⟩
  | executeWhenReady task =>
    rw [step, executeWhenReady]
    split_ifs with hi
    · exact ⟨hs.nodup, hs.cacheSize, hs.removed, hs.watermarks, hs.waiting, hs.written⟩
    · exact ⟨hs.nodup, hs.cacheSize, hs.removed, hs.watermarks, fun h => absurd h hi, hs.written⟩
  | mergeInitializingSet entries flush => exact mergeInitializingSet_consistent s entries flush hs he
  | writeToDisk => exact writeToDisk_consistent s hs

/-- An index that has been through these events since it was constructed. -/
def after (c : IndexConfig) (events : List IndexEvent) : SimpleIndex := events.foldl (step c) {}

theorem run_consistent (c : IndexConfig) (events : List IndexEvent) (he : ∀ e ∈ events, e.Sound)
    (s : SimpleIndex) (hs : s.Consistent) : (events.foldl (step c) s).Consistent := by
  induction events generalizing s with
  | nil => exact hs
  | cons e events ih =>
    exact ih (fun x hx => he x (by simp [hx])) _ (step_consistent c s e (he e (by simp)) hs)

theorem new_consistent : ({} : SimpleIndex).Consistent :=
  ⟨List.nodup_nil, rfl, fun h hr => absurd hr List.not_mem_nil, by decide, fun _ => rfl,
    fun w hw => absurd hw List.not_mem_nil⟩

end SimpleIndex

end SimpleCacheTool.Chromium
