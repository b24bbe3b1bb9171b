import SimpleCacheTool.Chromium.IndexHistory
import SimpleCacheTool.Math.Greedy

namespace SimpleCacheTool.Chromium

open EntrySet

/-- One entry's part of the total. -/
def entrySize (e : BitVec 64 × EntryMetadata) : Nat := e.2.getEntrySize.toNat

namespace SimpleIndex

/-- Entries are taken in order until their sizes come to the amount. -/
theorem chooseEntries_eq (amountToEvict soFar : BitVec 64) (entries : EntrySet)
    (h : soFar.toNat + entries.totalSize < 2 ^ 64) :
    chooseEntries amountToEvict soFar entries =
      keys (Greedy.takeUntil entrySize (amountToEvict.toNat - soFar.toNat) entries) := by
  induction entries generalizing soFar with
  | nil => simp [chooseEntries, Greedy.takeUntil, keys]
  | cons e entries ih =>
    rw [totalSize_cons] at h
    have hsum : (soFar + e.2.getEntrySize).toNat = soFar.toNat + e.2.getEntrySize.toNat := by
      rw [BitVec.toNat_add, Nat.mod_eq_of_lt (by omega)]
    rw [chooseEntries]
    by_cases hle : soFar ≥ amountToEvict
    · have hle' : amountToEvict.toNat ≤ soFar.toNat := hle
      rw [if_pos hle, Nat.sub_eq_zero_of_le hle', Greedy.takeUntil_zero]
      rfl
    · have hlt : soFar.toNat < amountToEvict.toNat := not_le.mp hle
      have hrest : amountToEvict.toNat - (soFar + e.2.getEntrySize).toNat =
          amountToEvict.toNat - soFar.toNat - entrySize e := by
        rw [hsum, entrySize]
        omega
      rw [if_neg hle, ih _ (by rw [hsum]; omega), hrest,
        Greedy.takeUntil_cons entrySize _ e entries (by omega)]
      rfl

/-- Scores and addresses order the entries one after another. -/
theorem evictedBefore_pairwise (c : IndexConfig) (now : BitVec 32) (address : Addresses)
    (entries : EntrySet) : (entries.mergeSort (evictedBefore c now address)).Pairwise
      fun a b => evictedBefore c now address a b = true := by
  apply List.pairwise_mergeSort
  · intro a b d hab hbd
    simp only [evictedBefore, decide_eq_true_eq, BitVec.lt_def, ← BitVec.toNat_inj] at hab hbd ⊢
    omega
  · intro a b
    simp only [evictedBefore, Bool.or_eq_true, decide_eq_true_eq, BitVec.lt_def, ← BitVec.toNat_inj]
    omega

theorem totalSize_perm {a b : EntrySet} (h : a.Perm b) : a.totalSize = b.totalSize :=
  (h.map _).sum_nat

/-- Removing hashes one after another. -/
theorem removes_eq (hashes : List (BitVec 64)) (s : SimpleIndex) (hs : s.Consistent) :
    (hashes.foldl remove s).entriesSet = s.entriesSet.filter (fun e => e.1 ∉ hashes) ∧
      (hashes.foldl remove s).cacheSize =
        BitVec.ofNat 64 (totalSize (s.entriesSet.filter fun e => e.1 ∉ hashes)) ∧
      (hashes.foldl remove s).lowWatermark = s.lowWatermark ∧
      (hashes.foldl remove s).highWatermark = s.highWatermark ∧
      (hashes.foldl remove s).evictionInProgress = s.evictionInProgress := by
  induction hashes generalizing s with
  | nil =>
    have hall : s.entriesSet.filter (fun e => e.1 ∉ ([] : List (BitVec 64))) = s.entriesSet := by
      simp
    rw [hall]
    exact ⟨rfl, hs.cacheSize, rfl, rfl, rfl⟩
  | cons hash hashes ih =>
    obtain ⟨h1, h2, h3, h4, h5⟩ := ih _ (remove_consistent s hash hs)
    have hfilter : (s.remove hash).entriesSet.filter (fun e => e.1 ∉ hashes) =
        s.entriesSet.filter (fun e => e.1 ∉ hash :: hashes) := by
      rw [remove_eq s hash hs]
      simp only [EntrySet.erase, List.filter_filter]
      congr 1
      funext e
      simp [Bool.and_comm]
    rw [List.foldl_cons, h1, h2, h3, h4, h5, hfilter, remove_eq s hash hs]
    exact ⟨rfl, rfl, rfl, rfl, rfl⟩

/-- What evicting does to an index over its high watermark: the entries that sort first go, as many as
it takes to come down to the low watermark and no more. -/
structure Evicts (c : IndexConfig) (now : BitVec 64) (address : Addresses) (s s' : SimpleIndex)
    (evicted kept : EntrySet) : Prop where
  full : s.highWatermark < s.cacheSize
  going : s'.evictionInProgress = true
  all : (evicted ++ kept).Perm s.entriesSet
  sorted : (evicted ++ kept).Pairwise fun a b =>
    evictedBefore c (BitVec.ofInt 32 (c.base.inSeconds now)) address a b = true
  doomed : s'.doomed = s.doomed ++ evicted.keys
  left : s'.entriesSet.Perm kept
  size : s'.cacheSize.toNat = kept.totalSize
  limits : s'.lowWatermark = s.lowWatermark ∧ s'.highWatermark = s.highWatermark
  down : s'.cacheSize ≤ s.lowWatermark
  needed : ∀ before last, evicted = before ++ [last] →
    s.lowWatermark.toNat < s'.cacheSize.toNat + entrySize last

/-- The hashes chosen are those of the first entries in order, as many as it takes. -/
theorem entryHashes_split (c : IndexConfig) (s : SimpleIndex) (now : BitVec 64) (address : Addresses)
    (hs : s.Consistent) (hsum : s.entriesSet.totalSize < 2 ^ 64)
    (hover : s.highWatermark < s.cacheSize) :
    ∃ evicted kept : EntrySet, s.entryHashes c now address = evicted.keys ∧
      (evicted ++ kept).Perm s.entriesSet ∧
      ((evicted ++ kept).Pairwise fun a b =>
        evictedBefore c (BitVec.ofInt 32 (c.base.inSeconds now)) address a b = true) ∧
      kept.totalSize ≤ s.lowWatermark.toNat ∧
      ∀ before last, evicted = before ++ [last] →
        s.lowWatermark.toNat < kept.totalSize + entrySize last := by
  have hperm := List.mergeSort_perm s.entriesSet
    (evictedBefore c (BitVec.ofInt 32 (c.base.inSeconds now)) address)
  have hpair := evictedBefore_pairwise c (BitVec.ofInt 32 (c.base.inSeconds now)) address s.entriesSet
  have htotal : s.cacheSize.toNat = s.entriesSet.totalSize := by
    rw [hs.cacheSize, BitVec.toNat_ofNat, Nat.mod_eq_of_lt hsum]
  have hlow : s.lowWatermark.toNat ≤ s.cacheSize.toNat := by
    have hw : s.lowWatermark.toNat ≤ s.highWatermark.toNat := hs.watermarks
    have hh : s.highWatermark.toNat < s.cacheSize.toNat := hover
    omega
  have hamount : (s.cacheSize - s.lowWatermark).toNat = s.cacheSize.toNat - s.lowWatermark.toNat :=
    BitVec.toNat_sub_of_le hlow
  have hhashes : s.entryHashes c now address = keys (Greedy.takeUntil entrySize
      (s.cacheSize.toNat - s.lowWatermark.toNat) (s.entriesSet.mergeSort
        (evictedBefore c (BitVec.ofInt 32 (c.base.inSeconds now)) address))) := by
    rw [entryHashes, chooseEntries_eq _ _ _ (by
      rw [totalSize_perm hperm]
      simpa using hsum), hamount]
    rfl
  generalize s.entriesSet.mergeSort
    (evictedBefore c (BitVec.ofInt 32 (c.base.inSeconds now)) address) = sorted at hperm hpair hhashes
  have hsorted : (sorted.map entrySize).sum = s.cacheSize.toNat := by
    rw [htotal]
    exact totalSize_perm hperm
  have henough := Greedy.takeUntil_enough entrySize (s.cacheSize.toNat - s.lowWatermark.toNat) sorted
    (by omega)
  have hminimal := Greedy.takeUntil_minimal entrySize (s.cacheSize.toNat - s.lowWatermark.toNat) sorted
  obtain ⟨kept, hkept⟩ := Greedy.takeUntil_prefix entrySize
    (s.cacheSize.toNat - s.lowWatermark.toNat) sorted
  generalize Greedy.takeUntil entrySize (s.cacheSize.toNat - s.lowWatermark.toNat) sorted = evicted
    at hhashes hkept henough hminimal
  have hsize : (evicted.map entrySize).sum + totalSize kept = s.cacheSize.toNat := by
    rw [← hsorted, ← hkept, List.map_append, List.sum_append]
    rfl
  refine ⟨evicted, kept, hhashes, hkept ▸ hperm, hkept ▸ hpair, by omega, ?_⟩
  intro before last hlast
  have hm := hminimal before last hlast
  rw [hlast, List.map_append, List.sum_append, List.map_singleton, List.sum_singleton] at hsize
  omega

/-- The hashes differ, so taking some out leaves the others. -/
theorem filter_perm_kept (entries evicted kept : EntrySet) (hnd : entries.keys.Nodup)
    (hall : (evicted ++ kept).Perm entries) :
    (entries.filter fun e => e.1 ∉ evicted.keys).Perm kept := by
  have hk : (evicted.keys ++ kept.keys).Nodup := by
    have h := (hall.map Prod.fst).nodup_iff.mpr hnd
    rwa [List.map_append] at h
  have h1 : evicted.filter (fun e => decide (e.1 ∉ evicted.keys)) = [] := by
    rw [List.filter_eq_nil_iff]
    intro e he
    have hm : e.1 ∈ evicted.keys := List.mem_map_of_mem he
    simpa using hm
  have h2 : kept.filter (fun e => decide (e.1 ∉ evicted.keys)) = kept := by
    rw [List.filter_eq_self]
    intro e he
    have hn := (List.nodup_append.mp hk).2.2
    rw [decide_eq_true_eq]
    exact fun hm => hn _ hm _ (List.mem_map_of_mem he) rfl
  have hp := (hall.filter fun e => decide (e.1 ∉ evicted.keys)).symm
  rwa [List.filter_append, h1, h2, List.nil_append] at hp

theorem startEviction_evicts (c : IndexConfig) (s : SimpleIndex) (now : BitVec 64) (address : Addresses)
    (hs : s.Consistent) (hsum : s.entriesSet.totalSize < 2 ^ 64) (h0 : s.evictionInProgress = false)
    (hover : s.highWatermark < s.cacheSize) :
    ∃ evicted kept, Evicts c now address s (s.startEvictionIfNeeded c now address) evicted kept := by
  obtain ⟨evicted, kept, hhashes, hall, hpair, hlow, hneeded⟩ :=
    entryHashes_split c s now address hs hsum hover
  obtain ⟨r1, r2, r3, r4, r5⟩ :=
    removes_eq (s.entryHashes c now address) { s with evictionInProgress := true }
      ⟨hs.nodup, hs.cacheSize, hs.removed, hs.watermarks, hs.waiting, hs.written⟩
  have hrun : s.startEvictionIfNeeded c now address =
      { s with evictionInProgress := true }.doomEntries (s.entryHashes c now address) := by
    rw [startEvictionIfNeeded, h0, if_neg (by
      rw [not_or]
      exact ⟨Bool.false_ne_true, BitVec.not_le.mpr hover⟩)]
  have hleft := filter_perm_kept s.entriesSet evicted kept hs.nodup hall
  rw [hhashes] at r1 r2 r3 r4 r5 hrun
  have hw := s.lowWatermark.isLt
  have hsize : (s.startEvictionIfNeeded c now address).cacheSize.toNat = kept.totalSize := by
    rw [hrun]
    change (List.foldl remove { s with evictionInProgress := true } evicted.keys).cacheSize.toNat = _
    rw [r2, totalSize_perm hleft, BitVec.toNat_ofNat, Nat.mod_eq_of_lt (by omega)]
  refine ⟨evicted, kept, hover, ?_, hall, hpair, by rw [hrun]; rfl, ?_, hsize, ?_, ?_, ?_⟩
  · rw [hrun]
    exact r5
  · rw [hrun]
    change (List.foldl remove { s with evictionInProgress := true } evicted.keys).entriesSet.Perm kept
    rw [r1]
    exact hleft
  · rw [hrun]
    exact ⟨r3, r4⟩
  · rw [BitVec.le_def, hsize]
    exact hlow
  · intro before last hlast
    rw [hsize]
    exact hneeded before last hlast

theorem totalSize_lt (entries : EntrySet) (h : entries.length < 2 ^ 26) :
    entries.totalSize < 2 ^ 64 := by
  have hle (entries : EntrySet) : entries.totalSize ≤ entries.length * 2 ^ 38 := by
    induction entries with
    | nil => simp [totalSize]
    | cons e entries ih =>
      have he : e.2.getEntrySize.toNat < 2 ^ 38 := by
        have hc := e.2.entrySize256bChunks.isLt
        rw [EntryMetadata.getEntrySize, BitVec.toNat_shiftLeft, BitVec.toNat_setWidth,
          Nat.shiftLeft_eq]
        omega
      rw [totalSize_cons, List.length_cons]
      omega
  have := hle entries
  omega

end SimpleIndex

/-- What a call looks at when it looks at the size of the cache: the index with the entry's new size,
or with the new limits, and the time and addresses of the call. -/
def IndexEvent.looksAt (s : SimpleIndex) :
    IndexEvent → Option (SimpleIndex × BitVec 64 × SimpleIndex.Addresses)
  | .updateEntrySize hash entrySize now address => do
    let m ← s.entriesSet.find hash
    let m' ← m.setEntrySize entrySize
    if m.getEntrySize = m'.getEntrySize then none
    else some (
      { s with
        entriesSet := s.entriesSet.modify hash m'
        cacheSize := s.cacheSize - m.getEntrySize + m'.getEntrySize
        writePending := s.writePending || s.initialized }, now, address)
  | .setMaxSize maxBytes now address =>
    if maxBytes < s.maxSize then some (
      { s with
        maxSize := maxBytes
        highWatermark := maxBytes - maxBytes / kEvictionMarginDivisor
        lowWatermark := maxBytes - 2#64 * (maxBytes / kEvictionMarginDivisor) }, now, address)
    else none
  | _ => none

namespace SimpleIndex

/-- A call that looks at the size ends with the eviction check on what it looks at. -/
theorem step_looks (c : IndexConfig) (s t : SimpleIndex) (e : IndexEvent) (now : BitVec 64)
    (address : Addresses) (hs : s.Consistent) (he : e.looksAt s = some (t, now, address)) :
    s.step c e = t.startEvictionIfNeeded c now address ∧ t.Consistent ∧
      t.entriesSet.keys = s.entriesSet.keys ∧ t.evictionInProgress = s.evictionInProgress := by
  cases e with
  | updateEntrySize hash size now' address' =>
    rw [IndexEvent.looksAt] at he
    cases hf : s.entriesSet.find hash with
    | none => simp [hf] at he
    | some m =>
      cases hm : m.setEntrySize size with
      | none => simp [hf, hm] at he
      | some m' =>
        by_cases hch : m.getEntrySize = m'.getEntrySize
        · simp [hf, hm, hch] at he
        · have hu : s.updateEntryIteratorSize hash m size =
              ({ s with
                entriesSet := s.entriesSet.modify hash m'
                cacheSize := s.cacheSize - m.getEntrySize + m'.getEntrySize }, true) := by
            rw [updateEntryIteratorSize, hm]
            exact Prod.ext rfl (decide_eq_true hch)
          have hc := postpone_consistent _ (updateEntryIteratorSize_consistent s hash size m hs hf)
          rw [hu, postpone_eq] at hc
          simp only [hf, hm, hch, Option.bind_eq_bind, Option.bind_some, if_false, Option.some.injEq,
            Prod.mk.injEq] at he
          obtain ⟨rfl, rfl, rfl⟩ := he
          refine ⟨?_, hc, keys_modify _ _ _, rfl⟩
          rw [step, updateEntrySize, hf]
          simp only [hu, if_true, postpone_eq]
  | setMaxSize maxBytes now' address' =>
    rw [IndexEvent.looksAt] at he
    split_ifs at he with hlt
    simp only [Option.some.injEq, Prod.mk.injEq] at he
    obtain ⟨rfl, rfl, rfl⟩ := he
    refine ⟨?_, ⟨hs.nodup, hs.cacheSize, hs.removed, watermarks_le maxBytes, hs.waiting, hs.written⟩,
      rfl, rfl⟩
    rw [step, setMaxSize]
    exact if_pos hlt
  | _ => simp [IndexEvent.looksAt] at he

/-- No other call starts an eviction. -/
theorem step_idle (c : IndexConfig) (s : SimpleIndex) (e : IndexEvent) (hs : s.Consistent)
    (he : e.looksAt s = none) (h0 : s.evictionInProgress = false) :
    (s.step c e).evictionInProgress = false ∧ (s.step c e).doomed = s.doomed := by
  cases e with
  | insert hash now =>
    rw [step, insert_eq]
    exact ⟨h0, rfl⟩
  | remove hash =>
    rw [step, remove_eq s hash hs]
    exact ⟨h0, rfl⟩
  | useIfExists hash now =>
    rw [step, useIfExists]
    cases s.entriesSet.find hash with
    | none => exact ⟨h0, rfl⟩
    | some m =>
      simp only
      split_ifs
      · exact ⟨h0, rfl⟩
      · rw [postpone_eq]
        exact ⟨h0, rfl⟩
  | setEntryInMemoryData hash value =>
    rw [step, setEntryInMemoryData]
    cases s.entriesSet.find hash <;> exact ⟨h0, rfl⟩
  | setTrailerPrefetchSize hash size =>
    rw [step, setTrailerPrefetchSize]
    cases s.entriesSet.find hash with
    | none => exact ⟨h0, rfl⟩
    | some m =>
      simp only
      split_ifs
      · rw [postpone_eq]
        exact ⟨h0, rfl⟩
      · exact ⟨h0, rfl⟩
  | updateEntrySize hash size now address =>
    rw [step, updateEntrySize]
    rw [IndexEvent.looksAt] at he
    cases hf : s.entriesSet.find hash with
    | none => exact ⟨h0, rfl⟩
    | some m =>
      cases hm : m.setEntrySize size with
      | none =>
        simp only [updateEntryIteratorSize, hm, Bool.false_eq_true, if_false]
        exact ⟨h0, trivial⟩
      | some m' =>
        have hch : m.getEntrySize = m'.getEntrySize := by
          by_contra hne
          simp [hf, hm, hne] at he
        simp only [updateEntryIteratorSize, hm, hch, ne_eq, not_true, decide_false, Bool.false_eq_true,
          if_false]
        exact ⟨h0, trivial⟩
  | setMaxSize maxBytes now address =>
    rw [IndexEvent.looksAt] at he
    have hle : ¬maxBytes < s.maxSize := by
      intro hlt
      simp [hlt] at he
    rw [step, setMaxSize, if_neg hle]
    exact ⟨h0, rfl⟩
  | evictionDone => exact ⟨rfl, rfl⟩
  | executeWhenReady task =>
    rw [step, executeWhenReady]
    split_ifs <;> exact ⟨h0, rfl⟩
  | mergeInitializingSet entries flush => cases flush <;> exact ⟨h0, rfl⟩
  | writeToDisk =>
    rw [step, writeToDisk]
    split_ifs <;> exact ⟨h0, rfl⟩

/-- In every run, while no eviction is going on: a call that looks at the size leaves the cache within
the high watermark. If what it looks at is within it, this is all the call leaves; or else the entries
that sort first at that time go, down to the low watermark and with no entry too many. No other call
evicts anything. -/
theorem eviction_run (c : IndexConfig) (events : List IndexEvent) (he : ∀ e ∈ events, e.Sound)
    (e : IndexEvent) (hfew : (after c events).entriesSet.length < 2 ^ 26)
    (h0 : (after c events).evictionInProgress = false) :
    match e.looksAt (after c events) with
    | none =>
      ((after c events).step c e).evictionInProgress = false ∧
        ((after c events).step c e).doomed = (after c events).doomed
    | some (t, now, address) =>
      ((after c events).step c e).cacheSize ≤ ((after c events).step c e).highWatermark ∧
        (t.cacheSize ≤ t.highWatermark → (after c events).step c e = t) ∧
        (t.highWatermark < t.cacheSize →
          ∃ evicted kept, Evicts c now address t ((after c events).step c e) evicted kept) := by
  have hs : (after c events).Consistent := run_consistent c events he {} new_consistent
  cases hlook : e.looksAt (after c events) with
  | none => exact step_idle c _ e hs hlook h0
  | some look =>
    obtain ⟨t, now, address⟩ := look
    obtain ⟨hstep, ht, hkeys, hprogress⟩ := step_looks c _ t e now address hs hlook
    have hlen : t.entriesSet.length = (after c events).entriesSet.length := by
      have hl := congrArg List.length hkeys
      rwa [keys, keys, List.length_map, List.length_map] at hl
    have hsame (hle : t.cacheSize ≤ t.highWatermark) : t.startEvictionIfNeeded c now address = t := by
      rw [startEvictionIfNeeded, if_pos (.inr hle)]
    have hevicts (hover : t.highWatermark < t.cacheSize) :
        ∃ evicted kept, Evicts c now address t (t.startEvictionIfNeeded c now address) evicted kept :=
      startEviction_evicts c t now address ht (totalSize_lt _ (hlen ▸ hfew)) (hprogress.trans h0) hover
    simp only [hstep]
    refine ⟨?_, hsame, hevicts⟩
    by_cases hover : t.highWatermark < t.cacheSize
    · obtain ⟨evicted, kept, hev⟩ := hevicts hover
      rw [hev.limits.2]
      exact BitVec.le_trans hev.down ht.watermarks
    · rw [hsame (BitVec.not_lt.mp hover)]
      exact BitVec.not_lt.mp hover

/-- Two entries in a cache of ten chunks. -/
def crowded : List IndexEvent :=
  [.mergeInitializingSet [] false, .setMaxSize 2560#64 0#64 BitVec.toNat,
    .insert 7#64 13400000000000000#64,
    .updateEntrySize 7#64 1024#64 13400000000000000#64 BitVec.toNat, .insert 8#64 13400000001000000#64]

/-- The second one grows, and the two no longer fit. -/
def crowding : IndexEvent :=
  .updateEntrySize 8#64 2000#64 13400000002000000#64 BitVec.toNat

/-- The index as this call looks at it. -/
def crowdedIndex : SimpleIndex :=
  { after smallConfig crowded with
    entriesSet := (after smallConfig crowded).entriesSet.modify 8#64
      ⟨(newMetadata smallConfig 13400000001000000#64).lastUsedTimeOrTrailerPrefetchSize, 8#30, 0#2⟩
    cacheSize := 3072#64 }

theorem eviction_run_crowded :
    ((after smallConfig crowded).step smallConfig crowding).cacheSize ≤
        ((after smallConfig crowded).step smallConfig crowding).highWatermark ∧
      ∃ evicted kept, Evicts smallConfig 13400000002000000#64 BitVec.toNat crowdedIndex
        ((after smallConfig crowded).step smallConfig crowding) evicted kept := by
  obtain ⟨hsize, -, hevicts⟩ := eviction_run smallConfig crowded
    (by simp [crowded, IndexEvent.Sound, keys]) crowding (by decide) rfl
  exact ⟨hsize, hevicts (by decide)⟩

end SimpleIndex

end SimpleCacheTool.Chromium
