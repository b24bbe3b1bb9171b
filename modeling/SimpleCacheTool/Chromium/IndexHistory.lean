import SimpleCacheTool.Chromium.IndexRun
import SimpleCacheTool.Chromium.LoadIndex

namespace SimpleCacheTool.Chromium

open EntrySet

/-- What the index file keeps of an entry that changing is worth a write: all but the in-memory bits. -/
def EntrySet.lasting (entries : EntrySet) : List (BitVec 64 × BitVec 32 × BitVec 30) :=
  entries.map fun e => (e.1, e.2.lastUsedTimeOrTrailerPrefetchSize, e.2.entrySize256bChunks)

namespace SimpleIndex

/-- What a call other than loading and writing can do: hashes come and go, and unless a write is
pending, what is to be written stays. -/
structure Moves (s s' : SimpleIndex) (added gone dooms : List (BitVec 64)) : Prop where
  initialized : s'.initialized = s.initialized
  posted : s'.posted = s.posted
  waiting : s'.toRunWhenInitialized = s.toRunWhenInitialized
  written : s'.written = s.written
  doomed : s'.doomed = s.doomed ++ dooms
  keys : ∀ h, h ∈ s'.entriesSet.keys ↔ (h ∈ added ∨ h ∈ s.entriesSet.keys) ∧ h ∉ gone
  removed : s.initialized = false →
    ∀ h, h ∈ s'.removedEntries ↔ (h ∉ added ∧ h ∈ s.removedEntries) ∨ h ∈ gone
  saved : s.initialized = true → s'.writePending = true ∨
    (s'.writePending = s.writePending ∧ s'.entriesSet.lasting = s.entriesSet.lasting)

/-- Nothing happens, or only to what is neither written nor looked up by hash. -/
theorem moves_of_lasting (s s' : SimpleIndex) (h1 : s'.initialized = s.initialized)
    (h2 : s'.posted = s.posted) (h3 : s'.toRunWhenInitialized = s.toRunWhenInitialized)
    (h4 : s'.written = s.written) (h5 : s'.doomed = s.doomed)
    (h6 : s'.entriesSet.lasting = s.entriesSet.lasting) (h7 : s'.removedEntries = s.removedEntries)
    (h8 : s'.writePending = s.writePending) : Moves s s' [] [] [] := by
  have hkeys (x : EntrySet) : x.keys = x.lasting.map Prod.fst := by
    rw [EntrySet.keys, lasting, List.map_map]
    rfl
  refine ⟨h1, h2, h3, h4, by rw [h5, List.append_nil], ?_, ?_, fun _ => .inr ⟨h8, h6⟩⟩
  · intro h
    rw [hkeys, h6, ← hkeys]
    simp
  · intro _ h
    rw [h7]
    simp

theorem Moves.trans {s t u : SimpleIndex} {added gone dooms dooms' : List (BitVec 64)}
    (h1 : Moves s t added [] dooms) (h2 : Moves t u [] gone dooms') :
    Moves s u added gone (dooms ++ dooms') := by
  refine ⟨h2.initialized.trans h1.initialized, h2.posted.trans h1.posted,
    h2.waiting.trans h1.waiting, h2.written.trans h1.written, ?_, ?_, ?_, ?_⟩
  · rw [h2.doomed, h1.doomed, List.append_assoc]
  · intro h
    rw [h2.keys, h1.keys]
    simp
  · intro hi h
    rw [h2.removed (h1.initialized.trans hi), h1.removed hi]
    simp
  · intro hi
    rcases h2.saved (h1.initialized.trans hi) with hp | ⟨hp, hl⟩
    · exact .inl hp
    · rcases h1.saved hi with hp1 | ⟨hp1, hl1⟩
      · exact .inl (hp.trans hp1)
      · exact .inr ⟨hp.trans hp1, hl.trans hl1⟩

theorem remove_moves (s : SimpleIndex) (hash : BitVec 64) (hs : s.Consistent) :
    Moves s (s.remove hash) [] [hash] [] := by
  rw [remove_eq s hash hs]
  refine ⟨rfl, rfl, rfl, rfl, (List.append_nil _).symm, ?_, ?_, ?_⟩
  · intro h
    simp only [mem_keys_erase, List.mem_singleton, List.not_mem_nil, false_or, ne_eq]
  · intro hi h
    simp [hi, or_comm]
  · intro hi
    cases hf : s.entriesSet.find hash with
    | none =>
      refine .inr ⟨by simp, ?_⟩
      simp only [erase_of_notMem _ hash ((find_eq_none _ hash).mp hf)]
    | some m => exact .inl (by simp [hi])

theorem removes_moves (hashes : List (BitVec 64)) (s : SimpleIndex) (hs : s.Consistent) :
    Moves s (hashes.foldl remove s) [] hashes [] := by
  induction hashes generalizing s with
  | nil => exact moves_of_lasting s s rfl rfl rfl rfl rfl rfl rfl rfl
  | cons hash hashes ih =>
    have h1 := remove_moves s hash hs
    have h2 := ih _ (remove_consistent s hash hs)
    refine ⟨h2.initialized.trans h1.initialized, h2.posted.trans h1.posted,
      h2.waiting.trans h1.waiting, h2.written.trans h1.written, h2.doomed.trans ?_, ?_, ?_, ?_⟩
    · rw [h1.doomed, List.append_nil]
    · intro h
      rw [List.foldl_cons, h2.keys, h1.keys]
      simp [and_assoc]
    · intro hi h
      rw [List.foldl_cons, h2.removed (h1.initialized.trans hi), h1.removed hi]
      simp [or_assoc]
    · intro hi
      rcases h2.saved (h1.initialized.trans hi) with hp | ⟨hp, hl⟩
      · exact .inl hp
      · rcases h1.saved hi with hp1 | ⟨hp1, hl1⟩
        · exact .inl (hp.trans hp1)
        · exact .inr ⟨hp.trans hp1, hl.trans hl1⟩

theorem doomEntries_moves (s : SimpleIndex) (hashes : List (BitVec 64)) (hs : s.Consistent) :
    Moves s (s.doomEntries hashes) [] hashes hashes := by
  have h := removes_moves hashes s hs
  exact ⟨h.initialized, h.posted, h.waiting, h.written, rfl, h.keys, h.removed, h.saved⟩

theorem startEviction_moves (c : IndexConfig) (s : SimpleIndex) (now : BitVec 64)
    (address : Addresses) (hs : s.Consistent) :
    ∃ dooms, Moves s (s.startEvictionIfNeeded c now address) [] dooms dooms := by
  rw [startEvictionIfNeeded]
  split_ifs
  · exact ⟨[], moves_of_lasting s s rfl rfl rfl rfl rfl rfl rfl rfl⟩
  · have h := doomEntries_moves { s with evictionInProgress := true } (s.entryHashes c now address)
      ⟨hs.nodup, hs.cacheSize, hs.removed, hs.watermarks, hs.waiting, hs.written⟩
    exact ⟨_, h.initialized, h.posted, h.waiting, h.written, h.doomed, h.keys, h.removed, h.saved⟩

/-- Whatever changes an entry in place schedules a write. -/
theorem moves_of_pending (s s' : SimpleIndex) (h1 : s'.initialized = s.initialized)
    (h2 : s'.posted = s.posted) (h3 : s'.toRunWhenInitialized = s.toRunWhenInitialized)
    (h4 : s'.written = s.written) (h5 : s'.doomed = s.doomed)
    (h6 : s'.entriesSet.keys = s.entriesSet.keys) (h7 : s'.removedEntries = s.removedEntries)
    (h8 : s.initialized = true → s'.writePending = true) : Moves s s' [] [] [] := by
  refine ⟨h1, h2, h3, h4, by rw [h5, List.append_nil], ?_, ?_, fun hi => .inl (h8 hi)⟩
  · intro h
    rw [h6]
    simp
  · intro _ h
    rw [h7]
    simp

theorem modify_postpone_moves (s : SimpleIndex) (hash : BitVec 64) (m : EntryMetadata) (n : BitVec 64) :
    Moves s ({ s with entriesSet := s.entriesSet.modify hash m, cacheSize := n } :
      SimpleIndex).postponeWritingToDisk [] [] [] := by
  rw [postpone_eq]
  refine moves_of_pending _ _ rfl rfl rfl rfl rfl (keys_modify _ _ _) rfl fun hi => ?_
  simp only [hi, Bool.or_true]

/-- What is written of an entry does not tell the old metadata from the new. -/
theorem lasting_modify (entries : EntrySet) (hash : BitVec 64) (m m' : EntryMetadata)
    (hnd : entries.keys.Nodup) (hf : entries.find hash = some m)
    (h1 : m'.lastUsedTimeOrTrailerPrefetchSize = m.lastUsedTimeOrTrailerPrefetchSize)
    (h2 : m'.entrySize256bChunks = m.entrySize256bChunks) :
    (entries.modify hash m').lasting = entries.lasting := by
  obtain ⟨a, b, he, ha, hb⟩ := find_split _ hash m hnd hf
  rw [he, modify_split a b hash m m' ha hb]
  simp only [lasting, List.map_append, List.map_cons, h1, h2]

theorem insert_moves (c : IndexConfig) (s : SimpleIndex) (hash now : BitVec 64) :
    Moves s (s.insert c hash now) [hash] [] [] := by
  rw [insert_eq]
  refine ⟨rfl, rfl, rfl, rfl, (List.append_nil _).symm, ?_, ?_, ?_⟩
  · intro h
    simp only [mem_keys_insert, List.mem_singleton, List.not_mem_nil, not_false_eq_true, and_true]
  · intro hi h
    simp [hi, and_comm]
  · intro hi
    cases hf : s.entriesSet.find hash with
    | none => exact .inl (by simp [hi])
    | some m =>
      have hm : hash ∈ s.entriesSet.map Prod.fst := by
        by_contra hn
        rw [(find_eq_none _ hash).mpr hn] at hf
        cases hf
      refine .inr ⟨by simp, ?_⟩
      simp only [insertInEntrySet, if_pos hm]

theorem getEntrySize_inj (m m' : EntryMetadata) (h : m.getEntrySize = m'.getEntrySize) :
    m.entrySize256bChunks = m'.entrySize256bChunks := by
  have hn (x : EntryMetadata) : x.getEntrySize.toNat = x.entrySize256bChunks.toNat * 256 := by
    have hx := x.entrySize256bChunks.isLt
    rw [EntryMetadata.getEntrySize, BitVec.toNat_shiftLeft, BitVec.toNat_setWidth,
      Nat.shiftLeft_eq]
    omega
  apply BitVec.eq_of_toNat_eq
  have he := congrArg BitVec.toNat h
  rw [hn, hn] at he
  omega

end SimpleIndex

/-- The hash a call brings in, and the one it takes out. -/
def IndexEvent.added : IndexEvent → List (BitVec 64)
  | .insert hash _ => [hash]
  | _ => []

def IndexEvent.gone : IndexEvent → List (BitVec 64)
  | .remove hash => [hash]
  | _ => []

def IndexEvent.isMerge : IndexEvent → Bool
  | .mergeInitializingSet _ _ => true
  | _ => false

def IndexEvent.task : IndexEvent → List Nat
  | .executeWhenReady task => [task]
  | _ => []

/-- Neither loading nor writing nor waiting. -/
def IndexEvent.IsCall : IndexEvent → Prop
  | .mergeInitializingSet _ _ => False
  | .writeToDisk => False
  | .executeWhenReady _ => False
  | _ => True

namespace SimpleIndex

theorem updateEntrySize_moves (c : IndexConfig) (s : SimpleIndex) (hash size now : BitVec 64)
    (address : Addresses) (hs : s.Consistent) :
    ∃ dooms, Moves s (s.updateEntrySize c hash size now address).1 [] dooms dooms := by
  rw [updateEntrySize]
  cases hf : s.entriesSet.find hash with
  | none => exact ⟨[], moves_of_lasting s s rfl rfl rfl rfl rfl rfl rfl rfl⟩
  | some m =>
    have hc := updateEntryIteratorSize_consistent s hash size m hs hf
    cases hm : m.setEntrySize size with
    | none =>
      refine ⟨[], ?_⟩
      simp only [updateEntryIteratorSize, hm]
      exact moves_of_lasting s s rfl rfl rfl rfl rfl rfl rfl rfl
    | some m' =>
      have h1 := updateEntryIteratorSize_some s hash size m m' hs hf hm
      by_cases hch : m.getEntrySize ≠ m'.getEntrySize
      · have h2 : (s.updateEntryIteratorSize hash m size).2 = true := by
          rw [updateEntryIteratorSize]
          simp only [hm, decide_eq_true_eq]
          exact hch
        obtain ⟨dooms, hd⟩ := startEviction_moves c _ now address (postpone_consistent _ hc)
        refine ⟨dooms, ?_⟩
        simp only [h2, if_true]
        rw [h1] at hd ⊢
        exact (modify_postpone_moves s hash m' _).trans hd
      · have h2 : (s.updateEntryIteratorSize hash m size).2 = false := by
          rw [updateEntryIteratorSize]
          simp only [hm, decide_eq_false_iff_not]
          exact hch
        refine ⟨[], ?_⟩
        simp only [h2, Bool.false_eq_true, if_false]
        rw [h1]
        have htime : m'.lastUsedTimeOrTrailerPrefetchSize = m.lastUsedTimeOrTrailerPrefetchSize := by
          rw [EntryMetadata.setEntrySize] at hm
          split_ifs at hm
          rw [← Option.some.inj hm]
        exact moves_of_lasting _ _ rfl rfl rfl rfl rfl
          (lasting_modify _ hash m m' hs.nodup hf htime
            (getEntrySize_inj m m' (not_not.mp hch)).symm) rfl rfl

/-- What any call does. -/
theorem step_moves (c : IndexConfig) (s : SimpleIndex) (e : IndexEvent) (he : e.IsCall)
    (hs : s.Consistent) : ∃ dooms, Moves s (s.step c e) e.added (e.gone ++ dooms) dooms := by
  have hsame := moves_of_lasting s s rfl rfl rfl rfl rfl rfl rfl rfl
  cases e with
  | insert hash now => exact ⟨[], insert_moves c s hash now⟩
  | remove hash => exact ⟨[], remove_moves s hash hs⟩
  | useIfExists hash now =>
    refine ⟨[], ?_⟩
    rw [step, useIfExists]
    cases hf : s.entriesSet.find hash with
    | none => exact hsame
    | some m =>
      by_cases hc : c.cacheType = .appCache
      · simp only [if_pos hc]
        exact hsame
      · simp only [if_neg hc]
        exact modify_postpone_moves s hash _ s.cacheSize
  | setEntryInMemoryData hash value =>
    refine ⟨[], ?_⟩
    rw [step, setEntryInMemoryData]
    cases hf : s.entriesSet.find hash with
    | none => exact hsame
    | some m =>
      exact moves_of_lasting _ _ rfl rfl rfl rfl rfl
        (lasting_modify _ hash m _ hs.nodup hf rfl rfl) rfl rfl
  | setTrailerPrefetchSize hash size =>
    refine ⟨[], ?_⟩
    rw [step, setTrailerPrefetchSize]
    cases hf : s.entriesSet.find hash with
    | none => exact hsame
    | some m =>
      simp only
      split_ifs with hne
      · exact modify_postpone_moves s hash _ s.cacheSize
      · have hsize : (m.setTrailerPrefetch size).entrySize256bChunks = m.entrySize256bChunks := by
          rw [EntryMetadata.setTrailerPrefetch]
          split_ifs <;> rfl
        exact moves_of_lasting _ _ rfl rfl rfl rfl rfl
          (lasting_modify _ hash m _ hs.nodup hf (not_not.mp hne).symm hsize) rfl rfl
  | updateEntrySize hash size now address => exact updateEntrySize_moves c s hash size now address hs
  | setMaxSize maxBytes now address =>
    rw [step, setMaxSize]
    have h : ({ s with
        maxSize := maxBytes
        highWatermark := maxBytes - maxBytes / kEvictionMarginDivisor
        lowWatermark := maxBytes - 2#64 * (maxBytes / kEvictionMarginDivisor) } :
          SimpleIndex).Consistent :=
      ⟨hs.nodup, hs.cacheSize, hs.removed, watermarks_le maxBytes, hs.waiting, hs.written⟩
    split_ifs
    · obtain ⟨dooms, hd⟩ := startEviction_moves c _ now address h
      exact ⟨dooms, hd.initialized, hd.posted, hd.waiting, hd.written, hd.doomed, hd.keys, hd.removed,
        hd.saved⟩
    · exact ⟨[], moves_of_lasting _ _ rfl rfl rfl rfl rfl rfl rfl rfl⟩
  | evictionDone => exact ⟨[], moves_of_lasting _ _ rfl rfl rfl rfl rfl rfl rfl rfl⟩
  | executeWhenReady task => exact he.elim
  | mergeInitializingSet entries flush => exact he.elim
  | writeToDisk => exact he.elim

/-! The set of hashes, loaded or still to be loaded. -/

/-- The hashes an index stands for: while it loads, those of the file count that were not removed. -/
def view (fileHashes : Set (BitVec 64)) (s : SimpleIndex) : Set (BitVec 64) :=
  {h | h ∈ s.entriesSet.keys ∨ (s.initialized = false ∧ h ∈ fileHashes ∧ h ∉ s.removedEntries)}

theorem Moves.view {s s' : SimpleIndex} {added gone dooms : List (BitVec 64)}
    (hm : Moves s s' added gone dooms) (fileHashes : Set (BitVec 64)) (h : BitVec 64) :
    h ∈ s'.view fileHashes ↔ (h ∈ added ∨ h ∈ s.view fileHashes) ∧ h ∉ gone := by
  simp only [SimpleIndex.view, Set.mem_ofPred_eq, hm.keys, hm.initialized]
  cases hi : s.initialized with
  | true => simp
  | false =>
    simp only [hm.removed hi]
    tauto

theorem mem_mergedEntries (s : SimpleIndex) (entries : EntrySet) (h : BitVec 64) :
    h ∈ (s.mergedEntries entries).keys ↔
      h ∈ s.entriesSet.keys ∨ (h ∈ entries.keys ∧ h ∉ s.removedEntries) := by
  have hk := KeyedList.upserts_keys Prod.fst
    (entries.filter fun e => !s.removedEntries.contains e.1) s.entriesSet
  rw [EntrySet.keys, mergedEntries, hk, KeyedList.firstUse]
  simp only [List.mem_append, List.mem_eraseDups, List.mem_filter, List.mem_map, decide_eq_true_eq,
    EntrySet.keys, Bool.not_eq_true']
  grind

/-- What one event does to the set, given the hashes it evicts. -/
def applyEvent (hashes : Set (BitVec 64)) (e : IndexEvent × List (BitVec 64)) : Set (BitVec 64) :=
  {h | (h ∈ e.1.added ∨ h ∈ hashes) ∧ h ∉ e.1.gone ∧ h ∉ e.2}

end SimpleIndex

/-- Runs in which the file's entries are merged at most once, and not before a flag says so. -/
def LoadsOnce (fileHashes : Set (BitVec 64)) : Bool → List IndexEvent → Prop
  | _, [] => True
  | loaded, .mergeInitializingSet entries _ :: es =>
    loaded = false ∧ entries.keys.Nodup ∧ (∀ h, h ∈ entries.keys ↔ h ∈ fileHashes) ∧
      LoadsOnce fileHashes true es
  | loaded, _ :: es => LoadsOnce fileHashes loaded es

namespace SimpleIndex

theorem writeToDisk_view (s : SimpleIndex) (fileHashes : Set (BitVec 64)) :
    s.writeToDisk.view fileHashes = s.view fileHashes ∧ s.writeToDisk.doomed = s.doomed ∧
      s.writeToDisk.initialized = s.initialized := by
  rw [writeToDisk]
  split_ifs <;> exact ⟨rfl, rfl, rfl⟩

theorem merge_view (s : SimpleIndex) (entries : EntrySet) (flush : Bool) (fileHashes : Set (BitVec 64))
    (hi : s.initialized = false) (hl : ∀ h, h ∈ entries.keys ↔ h ∈ fileHashes) :
    (s.mergeInitializingSet entries flush).view fileHashes = s.view fileHashes ∧
      (s.mergeInitializingSet entries flush).doomed = s.doomed ∧
      (s.mergeInitializingSet entries flush).initialized = true := by
  have hset : ((s.mergeInitializingSet entries flush).entriesSet = s.mergedEntries entries) ∧
      (s.mergeInitializingSet entries flush).doomed = s.doomed ∧
      (s.mergeInitializingSet entries flush).initialized = true := by
    cases flush <;> exact ⟨rfl, rfl, rfl⟩
  refine ⟨?_, hset.2⟩
  ext h
  simp only [view, Set.mem_ofPred_eq, hset.1, hset.2.2, mem_mergedEntries, hl, hi]
  simp

/-- Every step acts on the set as its event says, whether the index is loaded or not. -/
theorem step_view (c : IndexConfig) (s : SimpleIndex) (e : IndexEvent) (fileHashes : Set (BitVec 64))
    (hs : s.Consistent) (es : List IndexEvent) (he : LoadsOnce fileHashes s.initialized (e :: es)) :
    LoadsOnce fileHashes (s.step c e).initialized es ∧ (s.step c e).Consistent ∧
      ∃ dooms, (s.step c e).doomed = s.doomed ++ dooms ∧
        (s.step c e).view fileHashes = applyEvent (s.view fileHashes) (e, dooms) := by
  have hid (x : Set (BitVec 64)) (e : IndexEvent) (ha : e.added = []) (hg : e.gone = []) :
      applyEvent x (e, []) = x := by
    ext h
    simp [applyEvent, ha, hg]
  have hcall (hc : e.IsCall) (hes : LoadsOnce fileHashes s.initialized es) :
      LoadsOnce fileHashes (s.step c e).initialized es ∧
      ∃ dooms, (s.step c e).doomed = s.doomed ++ dooms ∧
        (s.step c e).view fileHashes = applyEvent (s.view fileHashes) (e, dooms) := by
    obtain ⟨dooms, hm⟩ := step_moves c s e hc hs
    refine ⟨hm.initialized ▸ hes, dooms, hm.doomed, ?_⟩
    ext h
    rw [hm.view, applyEvent]
    simp [not_or]
  have hsound : e.Sound := by
    cases e with
    | mergeInitializingSet entries flush => exact he.2.1
    | _ => trivial
  have hcons := step_consistent c s e hsound hs
  cases e with
  | mergeInitializingSet entries flush =>
    obtain ⟨hi, -, hl, hes⟩ := he
    obtain ⟨hv, hd, hinit⟩ := merge_view s entries flush fileHashes hi hl
    exact ⟨by rw [step, hinit]; exact hes, hcons, [], by rw [step, hd, List.append_nil],
      by rw [step, hv, hid _ _ rfl rfl]⟩
  | writeToDisk =>
    obtain ⟨hv, hd, hinit⟩ := writeToDisk_view s fileHashes
    exact ⟨by rw [step, hinit]; exact he, hcons, [], by rw [step, hd, List.append_nil],
      by rw [step, hv, hid _ _ rfl rfl]⟩
  | executeWhenReady task =>
    have hr : (s.executeWhenReady task).view fileHashes = s.view fileHashes ∧
        (s.executeWhenReady task).doomed = s.doomed ∧
        (s.executeWhenReady task).initialized = s.initialized := by
      rw [executeWhenReady]
      split_ifs <;> exact ⟨rfl, rfl, rfl⟩
    exact ⟨by rw [step, hr.2.2]; exact he, hcons, [], by rw [step, hr.2.1, List.append_nil],
      by rw [step, hr.1, hid _ _ rfl rfl]⟩
  | _ =>
    obtain ⟨h1, h2⟩ := hcall trivial he
    exact ⟨h1, hcons, h2⟩

/-- A whole run: the set is what the events and the evictions, in their order, make of it. -/
theorem run_view (c : IndexConfig) (fileHashes : Set (BitVec 64)) (events : List IndexEvent)
    (s : SimpleIndex) (hs : s.Consistent) (he : LoadsOnce fileHashes s.initialized events) :
    ∃ dooms : List (List (BitVec 64)), dooms.length = events.length ∧
      (events.foldl (step c) s).doomed = s.doomed ++ dooms.flatten ∧
      (events.foldl (step c) s).view fileHashes =
        (events.zip dooms).foldl applyEvent (s.view fileHashes) := by
  induction events generalizing s with
  | nil => exact ⟨[], rfl, (List.append_nil _).symm, rfl⟩
  | cons e events ih =>
    obtain ⟨hes, hc, d, hd, hv⟩ := step_view c s e fileHashes hs events he
    obtain ⟨ds, hlen, hds, hvs⟩ := ih _ hc hes
    refine ⟨d :: ds, by simp [hlen], ?_, ?_⟩
    · rw [List.foldl_cons, hds, hd, List.flatten_cons, List.append_assoc]
    · rw [List.foldl_cons, hvs, hv, List.zip_cons_cons, List.foldl_cons]

/-- What a step does to the flags and to the waiting tasks. -/
theorem step_ready (c : IndexConfig) (s : SimpleIndex) (e : IndexEvent) (hs : s.Consistent) :
    (s.step c e).initialized = (s.initialized || e.isMerge) ∧
      (s.step c e).posted ++ (s.step c e).toRunWhenInitialized =
        s.posted ++ s.toRunWhenInitialized ++ e.task := by
  have hcall (hc : e.IsCall) : (s.step c e).initialized = s.initialized ∧
      (s.step c e).posted ++ (s.step c e).toRunWhenInitialized =
        s.posted ++ s.toRunWhenInitialized := by
    obtain ⟨dooms, hm⟩ := step_moves c s e hc hs
    exact ⟨hm.initialized, by rw [hm.posted, hm.waiting]⟩
  cases e with
  | mergeInitializingSet entries flush =>
    simp only [IndexEvent.isMerge, Bool.or_true, IndexEvent.task, List.append_nil]
    cases flush <;> exact ⟨rfl, List.append_nil _⟩
  | writeToDisk =>
    simp only [step, writeToDisk, IndexEvent.isMerge, Bool.or_false, IndexEvent.task, List.append_nil]
    split_ifs <;> exact ⟨rfl, rfl⟩
  | executeWhenReady task =>
    simp only [step, executeWhenReady, IndexEvent.isMerge, Bool.or_false, IndexEvent.task]
    split_ifs with hi
    · refine ⟨rfl, ?_⟩
      simp only [hs.waiting hi, List.append_nil]
    · exact ⟨rfl, (List.append_assoc _ _ _).symm⟩
  | _ =>
    simp only [IndexEvent.isMerge, Bool.or_false, IndexEvent.task, List.append_nil]
    exact hcall trivial

theorem run_ready (c : IndexConfig) (events : List IndexEvent) (he : ∀ e ∈ events, e.Sound)
    (s : SimpleIndex) (hs : s.Consistent) :
    (events.foldl (step c) s).initialized = (s.initialized || events.any IndexEvent.isMerge) ∧
      (events.foldl (step c) s).posted ++ (events.foldl (step c) s).toRunWhenInitialized =
        s.posted ++ s.toRunWhenInitialized ++ events.flatMap IndexEvent.task := by
  induction events generalizing s with
  | nil => simp
  | cons e events ih =>
    obtain ⟨h1, h2⟩ := step_ready c s e hs
    obtain ⟨h3, h4⟩ := ih (fun x hx => he x (by simp [hx])) _
      (step_consistent c s e (he e (by simp)) hs)
    rw [List.foldl_cons, h3, h4, h1, h2, List.any_cons, Bool.or_assoc, List.flatMap_cons,
      List.append_assoc]
    exact ⟨rfl, rfl⟩

/-- In every run the index is consistent, and so is everything it has written; and the tasks that wait
for it are posted once each, in order, as soon as it is loaded. -/
theorem after_consistent (c : IndexConfig) (events : List IndexEvent) (he : ∀ e ∈ events, e.Sound) :
    (after c events).Consistent ∧
      (after c events).posted ++ (after c events).toRunWhenInitialized =
        events.flatMap IndexEvent.task ∧
      (events.any IndexEvent.isMerge → (after c events).posted = events.flatMap IndexEvent.task) := by
  have hc : (after c events).Consistent := run_consistent c events he {} new_consistent
  obtain ⟨h1, h2⟩ := run_ready c events he {} new_consistent
  refine ⟨hc, h2, ?_⟩
  intro hm
  have hi : (after c events).initialized = true := by
    rw [after, h1, hm, Bool.or_true]
  have h3 : (after c events).posted ++ (after c events).toRunWhenInitialized =
      events.flatMap IndexEvent.task := h2
  rwa [hc.waiting hi, List.append_nil] at h3

/-- An index of an HTTP cache. -/
def smallConfig : IndexConfig where
  base := SimpleCacheLibrary.alignedBase
  cacheType := .other
  prioritizedCachingEnabled := true
  cachingPrioritizationFactor := 10#64
  cachingPrioritizationPeriodInSeconds := 86400#64
  hintHighPriority := 2#2

/-- An entry of the file removed and another one added while the file is read. -/
def earlyCalls : List IndexEvent :=
  [.executeWhenReady 1, .remove 5#64, .insert 7#64 13400000000000000#64, .executeWhenReady 2]

def fileEntries : EntrySet :=
  [(5#64, ⟨1755526400#32, 1#30, 2#2⟩), (6#64, ⟨1755526500#32, 3#30, 1#2⟩)]

theorem after_consistent_early :
    (after smallConfig (earlyCalls ++ [.mergeInitializingSet fileEntries false])).Consistent ∧
      (after smallConfig (earlyCalls ++ [.mergeInitializingSet fileEntries false])).posted = [1, 2] := by
  obtain ⟨h1, -, h3⟩ := after_consistent smallConfig
    (earlyCalls ++ [.mergeInitializingSet fileEntries false]) (by
      simp [earlyCalls, fileEntries, IndexEvent.Sound, EntrySet.keys])
  exact ⟨h1, h3 rfl⟩

theorem loadsOnce_sound (fileHashes : Set (BitVec 64)) (loaded : Bool) (events : List IndexEvent)
    (h : LoadsOnce fileHashes loaded events) : ∀ e ∈ events, e.Sound := by
  induction events generalizing loaded with
  | nil => simp
  | cons e events ih =>
    intro x hx
    cases e with
    | mergeInitializingSet entries flush =>
      rcases List.mem_cons.mp hx with rfl | hx
      · exact h.2.1
      · exact ih true h.2.2.2 x hx
    | _ =>
      rcases List.mem_cons.mp hx with rfl | hx
      · trivial
      · exact ih loaded h x hx

/-- Without evictions the events alone decide the set. -/
theorem after_view (c : IndexConfig) (fileHashes : Set (BitVec 64)) (events : List IndexEvent)
    (he : LoadsOnce fileHashes false events) (hd : (after c events).doomed = []) :
    (after c events).view fileHashes =
      events.foldl (fun hashes e => applyEvent hashes (e, [])) fileHashes := by
  obtain ⟨dooms, hlen, hdooms, hv⟩ := run_view c fileHashes events {} new_consistent he
  have hflat : dooms.flatten = [] := by
    have h : (after c events).doomed = dooms.flatten := hdooms
    rw [← h, hd]
  have hzip : ∀ (es : List IndexEvent) (ds : List (List (BitVec 64))) (x : Set (BitVec 64)),
      ds.length = es.length → ds.flatten = [] →
      (es.zip ds).foldl applyEvent x = es.foldl (fun hashes e => applyEvent hashes (e, [])) x := by
    intro es
    induction es with
    | nil => simp
    | cons e es ih =>
      intro ds x hl hf
      cases ds with
      | nil => simp at hl
      | cons d ds =>
        rw [List.flatten_cons, List.append_eq_nil_iff] at hf
        rw [List.zip_cons_cons, List.foldl_cons, List.foldl_cons, hf.1]
        exact ih ds _ (by simpa using hl) hf.2
  have hnew : ({} : SimpleIndex).view fileHashes = fileHashes := by
    ext h
    simp [view, EntrySet.keys]
  rw [after, hv, hzip events dooms _ hlen hflat, hnew]

/-- A loaded index knows the hashes of the set it stands for. -/
theorem has_iff_view (c : IndexConfig) (fileHashes : Set (BitVec 64)) (events : List IndexEvent)
    (he : LoadsOnce fileHashes false events) (hm : events.any IndexEvent.isMerge = true) (h : BitVec 64) :
    (after c events).has h = true ↔ h ∈ (after c events).view fileHashes := by
  obtain ⟨hi, -⟩ := run_ready c events (loadsOnce_sound _ _ _ he) {} new_consistent
  rw [hm, Bool.or_true] at hi
  have hi' : (after c events).initialized = true := hi
  rw [has, hi', Bool.not_true, Bool.false_or, Option.isSome_iff_ne_none, ne_eq, find_eq_none,
    not_not, view]
  simp [hi']

/-- Events that load once may as well begin with the load. -/
theorem loadsOnce_front (fileHashes : Set (BitVec 64)) (entries : EntrySet) (flush : Bool)
    (pre post : List IndexEvent)
    (h : LoadsOnce fileHashes false (pre ++ .mergeInitializingSet entries flush :: post)) :
    LoadsOnce fileHashes false (.mergeInitializingSet entries flush :: (pre ++ post)) := by
  -- once loaded, no load can follow
  have hloaded (es : List IndexEvent) :
      ¬LoadsOnce fileHashes true (es ++ .mergeInitializingSet entries flush :: post) := by
    induction es with
    | nil => exact fun hl => Bool.noConfusion hl.1
    | cons e es ih =>
      cases e with
      | mergeInitializingSet _ _ => exact fun hl => Bool.noConfusion hl.1
      | _ => exact ih
  induction pre with
  | nil => exact h
  | cons e pre ih =>
    cases e with
    | mergeInitializingSet _ _ => exact absurd h.2.2.2 (hloaded pre)
    | _ => exact ih h

/-- When the file's entries arrive makes no difference to which entries the index knows. -/
theorem load_order (c : IndexConfig) (fileHashes : Set (BitVec 64)) (pre post : List IndexEvent)
    (entries : EntrySet) (flush : Bool)
    (h1 : LoadsOnce fileHashes false (pre ++ .mergeInitializingSet entries flush :: post))
    (d1 : (after c (pre ++ .mergeInitializingSet entries flush :: post)).doomed = [])
    (d2 : (after c (.mergeInitializingSet entries flush :: (pre ++ post))).doomed = []) (h : BitVec 64) :
    (after c (pre ++ .mergeInitializingSet entries flush :: post)).has h =
      (after c (.mergeInitializingSet entries flush :: (pre ++ post))).has h := by
  have h2 := loadsOnce_front fileHashes entries flush pre post h1
  have hmerge (x : Set (BitVec 64)) :
      applyEvent x (.mergeInitializingSet entries flush, []) = x := by
    ext y
    simp [applyEvent, IndexEvent.added, IndexEvent.gone]
  rw [Bool.eq_iff_iff, has_iff_view c fileHashes _ h1 (by simp [IndexEvent.isMerge]),
    has_iff_view c fileHashes _ h2 (by simp [IndexEvent.isMerge]), after_view c fileHashes _ h1 d1,
    after_view c fileHashes _ h2 d2]
  simp only [List.foldl_append, List.foldl_cons, hmerge]

theorem load_order_early :
    (after smallConfig (earlyCalls ++ [.mergeInitializingSet fileEntries false])).has 5#64 =
      (after smallConfig (.mergeInitializingSet fileEntries false :: (earlyCalls ++ []))).has 5#64 :=
  load_order smallConfig {5#64, 6#64} earlyCalls [] fileEntries false
    (by simp [earlyCalls, fileEntries, LoadsOnce, EntrySet.keys]) rfl rfl 5#64

/-! What has still to be written. -/

/-- What is in memory is what was written last, or what was there at first, or is about to be written. -/
def Saved (first : List (BitVec 64 × BitVec 32 × BitVec 30)) (writes : List (EntrySet × BitVec 64))
    (s : SimpleIndex) : Prop :=
  s.writePending = true ∨ s.entriesSet.lasting = (writes.getLast?.map fun w => w.1.lasting).getD first

theorem step_saved (c : IndexConfig) (s : SimpleIndex) (e : IndexEvent) (hs : s.Consistent)
    (hi : s.initialized = true) (he : e.isMerge = false) :
    (s.step c e).initialized = true ∧
      ∃ w, (s.step c e).written = s.written ++ w ∧
        ∀ first writes, s.Saved first writes → (s.step c e).Saved first (writes ++ w) := by
  have hcall (hc : e.IsCall) : (s.step c e).initialized = true ∧
      ∃ w, (s.step c e).written = s.written ++ w ∧
        ∀ first writes, s.Saved first writes → (s.step c e).Saved first (writes ++ w) := by
    obtain ⟨dooms, hm⟩ := step_moves c s e hc hs
    refine ⟨hm.initialized.trans hi, [], by rw [hm.written, List.append_nil], ?_⟩
    intro first writes hsaved
    rw [List.append_nil]
    rcases hm.saved hi with hp | ⟨hp, hl⟩
    · exact .inl hp
    · rwa [Saved, hp, hl]
  cases e with
  | mergeInitializingSet entries flush => exact Bool.noConfusion he
  | writeToDisk =>
    simp only [step, writeToDisk, hi, if_true]
    refine ⟨trivial, _, rfl, ?_⟩
    intro first writes _
    right
    simp
  | executeWhenReady task =>
    simp only [step, executeWhenReady, hi, if_true]
    refine ⟨trivial, [], (List.append_nil _).symm, ?_⟩
    intro first writes hsaved
    rw [List.append_nil]
    exact hsaved
  | _ => exact hcall trivial

theorem run_saved (c : IndexConfig) (events : List IndexEvent)
    (he : ∀ e ∈ events, e.isMerge = false) (s : SimpleIndex) (hs : s.Consistent)
    (hi : s.initialized = true) :
    ∃ w, (events.foldl (step c) s).written = s.written ++ w ∧
      ∀ first writes, s.Saved first writes → (events.foldl (step c) s).Saved first (writes ++ w) := by
  induction events generalizing s with
  | nil => exact ⟨[], (List.append_nil _).symm, fun first writes h => by rwa [List.append_nil]⟩
  | cons e events ih =>
    have hm := he e (by simp)
    obtain ⟨hi', w, hw, hsaved⟩ := step_saved c s e hs hi hm
    have hsound : e.Sound := by
      cases e with
      | mergeInitializingSet entries flush => exact Bool.noConfusion hm
      | _ => trivial
    obtain ⟨w', hw', hsaved'⟩ :=
      ih (fun x hx => he x (by simp [hx])) _ (step_consistent c s e hsound hs) hi'
    refine ⟨w ++ w', by rw [List.foldl_cons, hw', hw, List.append_assoc], ?_⟩
    intro first writes h
    rw [← List.append_assoc]
    exact hsaved' _ _ (hsaved _ _ h)

/-- Once an index is loaded, a change that the last write does not have is always about to be written,
but for the in-memory bits. -/
theorem write_due (c : IndexConfig) (pre post : List IndexEvent) (hpre : ∀ e ∈ pre, e.Sound)
    (hloaded : pre.any IndexEvent.isMerge = true) (hpost : ∀ e ∈ post, e.isMerge = false) :
    ∃ writes, (after c (pre ++ post)).written = (after c pre).written ++ writes ∧
      ((after c (pre ++ post)).writePending = false →
        (after c (pre ++ post)).entriesSet.lasting =
          match writes.getLast? with
          | some w => w.1.lasting
          | none => (after c pre).entriesSet.lasting) := by
  have hc := run_consistent c pre hpre {} new_consistent
  obtain ⟨hi, -⟩ := run_ready c pre hpre {} new_consistent
  rw [hloaded, Bool.or_true] at hi
  obtain ⟨w, hw, hsaved⟩ := run_saved c post hpost _ hc hi
  refine ⟨w, by rw [after, List.foldl_append, hw, after], ?_⟩
  intro hp
  rcases hsaved (after c pre).entriesSet.lasting [] (.inr rfl) with h | h
  · rw [after, List.foldl_append, h] at hp
    exact Bool.noConfusion hp
  · rw [after, List.foldl_append, h, List.nil_append]
    cases w.getLast? <;> rfl

theorem write_due_early :
    ∃ writes, (after smallConfig ([.mergeInitializingSet fileEntries true] ++
        [.remove 5#64, .writeToDisk, .setEntryInMemoryData 6#64 1#2])).written =
        (after smallConfig [.mergeInitializingSet fileEntries true]).written ++ writes ∧
      ((after smallConfig ([.mergeInitializingSet fileEntries true] ++
          [.remove 5#64, .writeToDisk, .setEntryInMemoryData 6#64 1#2])).writePending = false →
        (after smallConfig ([.mergeInitializingSet fileEntries true] ++
          [.remove 5#64, .writeToDisk, .setEntryInMemoryData 6#64 1#2])).entriesSet.lasting =
          match writes.getLast? with
          | some w => w.1.lasting
          | none => (after smallConfig [.mergeInitializingSet fileEntries true]).entriesSet.lasting) :=
  write_due smallConfig [.mergeInitializingSet fileEntries true]
    [.remove 5#64, .writeToDisk, .setEntryInMemoryData 6#64 1#2]
    (by simp [fileEntries, IndexEvent.Sound, EntrySet.keys]) rfl (by simp [IndexEvent.isMerge])

end SimpleIndex

end SimpleCacheTool.Chromium
