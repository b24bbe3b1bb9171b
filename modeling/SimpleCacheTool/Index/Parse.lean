import SimpleCacheTool.Index.SimpleCacheIndex

namespace SimpleCacheTool

open Fallible Segments LittleEndian SimpleCacheFormat

namespace SimpleCacheIndex

/-- The third word of the record at a byte offset. -/
def packedAt (l : List Byte) (off : Nat) : BitVec 64 := wordAt 64 l (off + 16)

/-- The record at a byte offset. -/
def recordAt (l : List Byte) (off : Nat) : IndexEntry where
  hash := wordAt 64 l off
  lastUsedInternal := wordAt 64 l (off + 8)
  entrySizeChunks := (packedAt l off >>> 8).setWidth 32
  inMemoryData := (packedAt l off &&& 3#64).setWidth 32

/-- `n` records one after another. -/
def recordsAt (l : List Byte) (off n : Nat) : List IndexEntry :=
  (List.range n).map fun i => recordAt l (off + 24 * i)

theorem recordsAt_succ (l : List Byte) (off n : Nat) :
    recordsAt l off (n + 1) = recordAt l off :: recordsAt l (off + 24) n := by
  simp only [recordsAt, List.range_succ_eq_map, List.map_cons, List.map_map, Nat.mul_zero,
    Nat.add_zero]
  congr 1
  apply List.map_congr_left
  intro i _
  have h : off + 24 * (i + 1) = off + 24 + 24 * i := by omega
  simp only [Function.comp_apply, Nat.succ_eq_add_one, h]

theorem ushiftRight_ne_zero (v : BitVec 64) : v >>> 38 ≠ 0#64 ↔ 2 ^ 38 ≤ v.toNat := by
  rw [ne_eq, ← BitVec.toNat_inj, BitVec.toNat_ushiftRight, Nat.shiftRight_eq_div_pow]
  change ¬v.toNat / 2 ^ 38 = 0 ↔ _
  rw [Nat.div_eq_zero_iff_lt (by omega), Nat.not_lt]

private theorem recordOffsets (o n : Nat) (h : o + 8 ≤ n) (hn : n < 2 ^ 31) :
    i32 ((o : Int) + 8) = ((o + 8 : Nat) : Int) ∧
    (o + 16 ≤ n → i32 (i32 ((o : Int) + 8) + 8) = ((o + 16 : Nat) : Int)) ∧
    (o + 24 ≤ n → i32 (i32 (i32 ((o : Int) + 8) + 8) + 8) = ((o + 24 : Nat) : Int)) := by
  simp only [i32_add]
  refine ⟨i32_nat _ _ ?_ ?_, fun _ => i32_nat _ _ ?_ ?_, fun _ => i32_nat _ _ ?_ ?_⟩ <;> omega

/-- A record inside the file is read, unless its packed word has a bit above the 38 in use. -/
theorem parseRecord_in (d : Bytes) (o : Nat) (h : o + 24 ≤ d.length) :
    parseRecord d o = if 2 ^ 38 ≤ (packedAt d.list o).toNat then
      .error (.illegalArgument "bad entry metadata")
    else .ok (recordAt d.list o, ((o + 24 : Nat) : Int)) := by
  have hd := d.length_lt'
  obtain ⟨h8, h16, h24⟩ := recordOffsets o d.length (by omega) hd
  have hp := ushiftRight_ne_zero (packedAt d.list o)
  rw [parseRecord, u64_in d o (by omega), ok_bind, i64, u64_at d _ (o + 8) h8 (by omega), ok_bind,
    u64_at d _ (o + 16) (h16 (by omega)) (by omega), ok_bind, h24 (by omega)]
  change (throwIf (packedAt d.list o >>> 38 ≠ 0#64) _ >>= _) = _
  by_cases hc : 2 ^ 38 ≤ (packedAt d.list o).toNat
  · rw [throwIf_bind_of _ _ _ (hp.mpr hc), if_pos hc]
  · rw [throwIf_bind_of_not _ _ _ (fun h => hc (hp.mp h)), if_neg hc]
    rfl

theorem parseRecord_out (d : Bytes) (o : Nat) (hin : o ≤ d.length) (h : d.length < o + 24) :
    parseRecord d o = .error .arrayIndexOutOfBounds := by
  have hd := d.length_lt'
  rw [parseRecord]
  by_cases h0 : o + 8 ≤ d.length
  · obtain ⟨h8, h16, -⟩ := recordOffsets o d.length h0 hd
    rw [u64_in d o h0, ok_bind, i64]
    by_cases h1 : o + 16 ≤ d.length
    · rw [u64_at d _ (o + 8) h8 (by omega), ok_bind, u64_out d _ (by rw [h16 h1]; omega), error_bind]
    · rw [u64_out d _ (by rw [h8]; omega), error_bind]
  · rw [u64_out d o (by omega), error_bind]

/-- The record loop over a stretch of the file that holds all the records. -/
theorem parseRecords_in (d : Bytes) (n o : Nat) (acc : List IndexEntry) (h : o + 24 * n ≤ d.length)
    (hg : ∀ i < n, (packedAt d.list (o + 24 * i)).toNat < 2 ^ 38) :
    parseRecords d n o acc = .ok (acc ++ recordsAt d.list o n, ((o + 24 * n : Nat) : Int)) := by
  have hd := d.length_lt'
  induction n generalizing o acc with
  | zero => simp [parseRecords, recordsAt]
  | succ n ih =>
    have h0 : ¬2 ^ 38 ≤ (packedAt d.list o).toNat := Nat.not_le.mpr (hg 0 (by omega))
    have hrest := ih (o + 24) (acc ++ [recordAt d.list o]) (by omega) fun i hi => by
      have h := hg (i + 1) (by omega)
      rwa [show o + 24 * (i + 1) = o + 24 + 24 * i by omega] at h
    rw [parseRecords, parseRecord_in d o (by omega), if_neg h0, ok_bind]
    change parseRecords d n ((o + 24 : Nat) : Int) (acc ++ [recordAt d.list o]) = _
    rw [hrest, recordsAt_succ, List.append_assoc, List.singleton_append]
    congr 3
    omega

/-- The first bad record inside the file decides. -/
theorem parseRecords_bad (d : Bytes) (n o : Nat) (acc : List IndexEntry)
    (h : ∃ i < n, o + 24 * i + 24 ≤ d.length ∧ 2 ^ 38 ≤ (packedAt d.list (o + 24 * i)).toNat) :
    parseRecords d n o acc = .error (.illegalArgument "bad entry metadata") := by
  have hd := d.length_lt'
  induction n generalizing o acc with
  | zero => obtain ⟨i, hi, _⟩ := h; omega
  | succ n ih =>
    obtain ⟨i, hi, hin, hbad⟩ := h
    rw [parseRecords, parseRecord_in d o (by omega)]
    split_ifs with h0
    · rw [error_bind]
    · have ho : i32 (((o + 16 : Nat) : Int) + 8) = ((o + 24 : Nat) : Int) :=
        i32_nat _ _ (by omega) (by omega)
      rw [ok_bind]
      -- the bad record is not this one
      obtain ⟨j, rfl⟩ : ∃ j, i = j + 1 := by
        cases i with
        | zero => exact absurd hbad h0
        | succ j => exact ⟨j, rfl⟩
      have hj : o + 24 * (j + 1) = o + 24 + 24 * j := by omega
      rw [hj] at hin hbad
      exact ih (o + 24) _ ⟨j, by omega, hin, hbad⟩

/-- Records that run past the end of the file, with no bad one before. -/
theorem parseRecords_out (d : Bytes) (n o : Nat) (acc : List IndexEntry) (ho : o ≤ d.length)
    (h : d.length < o + 24 * n)
    (hg : ∀ i < n, o + 24 * i + 24 ≤ d.length → (packedAt d.list (o + 24 * i)).toNat < 2 ^ 38) :
    parseRecords d n o acc = .error .arrayIndexOutOfBounds := by
  have hd := d.length_lt'
  induction n generalizing o acc with
  | zero => omega
  | succ n ih =>
    by_cases hin : o + 24 ≤ d.length
    · have h0 : ¬2 ^ 38 ≤ (packedAt d.list o).toNat := Nat.not_le.mpr (hg 0 (by omega) hin)
      rw [parseRecords, parseRecord_in d o hin, if_neg h0, ok_bind]
      apply ih (o + 24) _ hin (by omega)
      intro i hi hi'
      have hj : o + 24 * (i + 1) = o + 24 + 24 * i := by omega
      have hb := hg (i + 1) (by omega)
      rw [hj] at hb
      exact hb hi'
    · rw [parseRecords, parseRecord_out d o ho (by omega), error_bind]

/-! The fields before the records. -/

/-- The number of rounds the record loop makes: the count, read as signed. -/
def countOf (d : Bytes) : Nat := (wordAt 64 d.list 20).toInt.toNat

def VersionOk (d : Bytes) : Prop :=
  (wordAt 32 d.list 16) = minIndexFileVersion ∨ wordAt 32 d.list 16 = indexFileVersion

instance (d : Bytes) : Decidable (VersionOk d) := inferInstanceAs (Decidable (_ ∨ _))

theorem versionOk_iff (d : Bytes) : VersionOk d ↔
    ¬((wordAt 32 d.list 16).toInt < minIndexFileVersion.toInt ∨
      (wordAt 32 d.list 16).toInt > indexFileVersion.toInt) := by
  have h8 : minIndexFileVersion.toInt = 8 := by decide
  have h9 : indexFileVersion.toInt = 9 := by decide
  rw [VersionOk, ← BitVec.toInt_inj, ← BitVec.toInt_inj, h8, h9]
  omega

/-- The index the payload spells. -/
def readout (d : Bytes) (warnings : List String) : SimpleCacheIndex where
  magic := wordAt 64 d.list 8
  version := wordAt 32 d.list 16
  reason := wordAt 32 d.list 36
  cacheSize := wordAt 64 d.list 28
  cacheLastModifiedInternal := wordAt 64 d.list (40 + 24 * countOf d)
  entries := recordsAt d.list 40 (countOf d)
  warnings := warnings

theorem parsePayload_magic (d : Bytes) (w : List String) (h : 16 ≤ d.length)
    (hm : wordAt 64 d.list 8 ≠ indexMagic) :
    parsePayload d w =
      .error (.illegalArgument ("bad index magic 0x" ++ (wordAt 64 d.list 8).toHex)) := by
  rw [parsePayload, u64_at d 8 8 rfl (by omega), ok_bind, throwIf_bind_of _ _ _ hm]

theorem parsePayload_version (d : Bytes) (w : List String) (h : 20 ≤ d.length)
    (hm : wordAt 64 d.list 8 = indexMagic) (hv : ¬VersionOk d) :
    parsePayload d w = .error (.illegalArgument
      ("unsupported index version " ++ toString (wordAt 32 d.list 16).toInt)) := by
  have hv' := not_not.mp (mt (versionOk_iff d).mpr hv)
  rw [parsePayload, u64_at d 8 8 rfl (by omega), ok_bind, throwIf_bind_of_not _ _ _ (not_not.mpr hm),
    u32_at d 16 16 rfl (by omega), ok_bind, throwIf_bind_of _ _ _ hv']

/-- Past the version check only the records and the last word are left. -/
theorem parsePayload_fields (d : Bytes) (w : List String) (h : 40 ≤ d.length)
    (hm : wordAt 64 d.list 8 = indexMagic) (hv : VersionOk d) :
    parsePayload d w = parseRecords d (countOf d) 40 [] >>= fun r => i64 d r.2 >>= fun t =>
      .ok { magic := wordAt 64 d.list 8
            version := wordAt 32 d.list 16
            reason := wordAt 32 d.list 36
            cacheSize := wordAt 64 d.list 28
            cacheLastModifiedInternal := t
            entries := r.1
            warnings := w } := by
  rw [parsePayload, u64_at d 8 8 rfl (by omega), ok_bind, throwIf_bind_of_not _ _ _ (not_not.mpr hm),
    u32_at d 16 16 rfl (by omega), ok_bind, throwIf_bind_of_not _ _ _ ((versionOk_iff d).mp hv),
    u64_at d 20 20 rfl (by omega), ok_bind, u64_at d 28 28 rfl (by omega), ok_bind,
    u32_at d 36 36 rfl (by omega), ok_bind]
  rfl

/-- A file that ends before the records do has its end run into. -/
theorem parsePayload_short (d : Bytes) (w : List String) (h : d.length < 40)
    (hm : 16 ≤ d.length → wordAt 64 d.list 8 = indexMagic) (hv : 20 ≤ d.length → VersionOk d) :
    parsePayload d w = .error .arrayIndexOutOfBounds := by
  rw [parsePayload]
  by_cases h16 : 16 ≤ d.length
  · rw [u64_at d 8 8 rfl (by omega), ok_bind, throwIf_bind_of_not _ _ _ (not_not.mpr (hm h16))]
    by_cases h20 : 20 ≤ d.length
    · rw [u32_at d 16 16 rfl (by omega), ok_bind,
        throwIf_bind_of_not _ _ _ ((versionOk_iff d).mp (hv h20))]
      by_cases h28 : 28 ≤ d.length
      · rw [u64_at d 20 20 rfl (by omega), ok_bind]
        by_cases h36 : 36 ≤ d.length
        · rw [u64_at d 28 28 rfl (by omega), ok_bind, u32_out d 36 (by omega), error_bind]
        · rw [u64_out d 28 (by omega), error_bind]
      · rw [u64_out d 20 (by omega), error_bind]
    · rw [u32_out d 16 (by omega), error_bind]
  · rw [u64_out d 8 (by omega), error_bind]

theorem parsePayload_ok (d : Bytes) (w : List String) (h : 48 + 24 * countOf d ≤ d.length)
    (hm : wordAt 64 d.list 8 = indexMagic) (hv : VersionOk d)
    (hg : ∀ i < countOf d, (packedAt d.list (40 + 24 * i)).toNat < 2 ^ 38) :
    parsePayload d w = .ok (readout d w) := by
  have hr := parseRecords_in d (countOf d) 40 [] (by omega) hg
  rw [parsePayload_fields d w (by omega) hm hv]
  change (parseRecords d (countOf d) ((40 : Nat) : Int) [] >>= _) = _
  rw [hr, ok_bind]
  simp only [i64]
  rw [u64_in d _ (by omega), ok_bind, List.nil_append]
  rfl

theorem parsePayload_bad (d : Bytes) (w : List String) (h : 40 ≤ d.length)
    (hm : wordAt 64 d.list 8 = indexMagic) (hv : VersionOk d)
    (hb : ∃ i < countOf d, 40 + 24 * i + 24 ≤ d.length ∧
      2 ^ 38 ≤ (packedAt d.list (40 + 24 * i)).toNat) :
    parsePayload d w = .error (.illegalArgument "bad entry metadata") := by
  rw [parsePayload_fields d w h hm hv]
  change (parseRecords d (countOf d) ((40 : Nat) : Int) [] >>= _) = _
  rw [parseRecords_bad d _ 40 [] hb, error_bind]

theorem parsePayload_out (d : Bytes) (w : List String) (h : 40 ≤ d.length)
    (hm : wordAt 64 d.list 8 = indexMagic) (hv : VersionOk d)
    (hs : d.length < 48 + 24 * countOf d)
    (hg : ∀ i < countOf d, 40 + 24 * i + 24 ≤ d.length →
      (packedAt d.list (40 + 24 * i)).toNat < 2 ^ 38) :
    parsePayload d w = .error .arrayIndexOutOfBounds := by
  rw [parsePayload_fields d w h hm hv]
  change (parseRecords d (countOf d) ((40 : Nat) : Int) [] >>= _) = _
  by_cases hin : 40 + 24 * countOf d ≤ d.length
  · rw [parseRecords_in d _ 40 [] hin fun i hi => hg i hi (by omega), ok_bind]
    simp only [i64]
    rw [u64_out d _ (by omega), error_bind]
  · rw [parseRecords_out d _ 40 [] h (by omega) hg, error_bind]

/-! The pickle's header. -/

def PayloadOk (d : Bytes) : Prop := 8 ≤ d.length ∧ (wordAt 32 d.list 0).toNat = d.length - 8

/-- What the checksum comparison reports on a file whose header is right. -/
def warningsOf (d : Bytes) (verifyCrc : Bool) : List String :=
  if verifyCrc then
    if crc32Of (seg d.list 8 (d.length - 8)) ≠ wordAt 32 d.list 4 then
      ["pickle crc mismatch stored=0x" ++ (wordAt 32 d.list 4).toHex ++ " actual=0x" ++
        (crc32Of (seg d.list 8 (d.length - 8))).toHex]
    else []
  else []

theorem payload_iff (d : Bytes) (h : 8 ≤ d.length) :
    i32 (indexHeaderSize + (wordAt 32 d.list 0).toInt) = d.length ↔
      (wordAt 32 d.list 0).toNat = d.length - 8 := by
  have hd := d.length_lt'
  have hv := (wordAt 32 d.list 0).isLt
  rw [indexHeaderSize, BitVec.toInt_eq_toNat_cond]
  unfold i32
  split_ifs <;> omega

theorem crcWarnings_eq (d : Bytes) (verifyCrc : Bool) (h : 8 ≤ d.length) :
    crcWarnings d verifyCrc ((d.length - 8 : Nat) : Int) (wordAt 32 d.list 4) =
      .ok (warningsOf d verifyCrc) := by
  have hrange : ¬(((indexHeaderSize : Nat) : Int) < 0 ∨ ((d.length - 8 : Nat) : Int) < 0 ∨
      (d.length : Int) - ((d.length - 8 : Nat) : Int) < ((indexHeaderSize : Nat) : Int)) := by
    rw [indexHeaderSize]
    omega
  cases verifyCrc with
  | false => rfl
  | true =>
    rw [crcWarnings, if_pos rfl, crc32Range, if_neg hrange, ok_bind]
    rfl

theorem parse_payload (d : Bytes) (verifyCrc : Bool) (h : PayloadOk d) :
    parse d verifyCrc = parsePayload d (warningsOf d verifyCrc) := by
  obtain ⟨h8, hp⟩ := h
  have hd := d.length_lt'
  have hi : (wordAt 32 d.list 0).toInt = ((d.length - 8 : Nat) : Int) := by
    rw [BitVec.toInt_eq_toNat_cond]
    split_ifs <;> omega
  rw [parse, throwIf_bind_of_not _ _ _ (by rw [indexHeaderSize]; omega), u32_at d 0 0 rfl (by omega),
    ok_bind, u32_at d 4 4 rfl (by omega), ok_bind,
    throwIf_bind_of_not _ _ _ (not_not.mpr ((payload_iff d h8).mpr hp)), hi,
    crcWarnings_eq d verifyCrc h8, ok_bind]

theorem parse_small (d : Bytes) (verifyCrc : Bool) (h : d.length < 8) :
    parse d verifyCrc = .error (.illegalArgument "index file too small") := by
  have hs : d.length < indexHeaderSize := h
  rw [parse, throwIf_bind_of _ _ _ hs]

theorem parse_mismatch (d : Bytes) (verifyCrc : Bool) (h : 8 ≤ d.length) (hp : ¬PayloadOk d) :
    parse d verifyCrc = .error (.illegalArgument ("index payload size mismatch: header=" ++
      toString (wordAt 32 d.list 0).toInt ++ " file=" ++ toString d.length)) := by
  have hi : ¬i32 (indexHeaderSize + (wordAt 32 d.list 0).toInt) = d.length :=
    fun hi => hp ⟨h, (payload_iff d h).mp hi⟩
  rw [parse, throwIf_bind_of_not _ _ _ (by rw [indexHeaderSize]; omega),
    u32_at d 0 0 rfl (by omega), ok_bind, u32_at d 4 4 rfl (by omega), ok_bind, throwIf_bind_of _ _ _ hi]

/-- What `parse` reads: the count as signed, and room for that many records and one word more. -/
structure Readable (d : Bytes) : Prop where
  payload : PayloadOk d
  magic : wordAt 64 d.list 8 = indexMagic
  version : VersionOk d
  room : 48 + 24 * countOf d ≤ d.length
  packed : ∀ i < countOf d, (packedAt d.list (40 + 24 * i)).toNat < 2 ^ 38

theorem parse_readable (d : Bytes) (verifyCrc : Bool) (h : Readable d) :
    parse d verifyCrc = .ok (readout d (warningsOf d verifyCrc)) := by
  rw [parse_payload d verifyCrc h.payload]
  exact parsePayload_ok d _ h.room h.magic h.version h.packed

/-- Nothing else is read: every other file fails a check or is run off. -/
theorem parse_eq_ok (d : Bytes) (verifyCrc : Bool) (x : SimpleCacheIndex) :
    parse d verifyCrc = .ok x ↔ Readable d ∧ x = readout d (warningsOf d verifyCrc) := by
  constructor
  · intro h
    suffices hr : Readable d by
      rw [parse_readable d verifyCrc hr] at h
      exact ⟨hr, (Except.ok.inj h).symm⟩
    have fails {e : JavaException} (he : parse d verifyCrc = .error e) : False := by
      rw [h] at he
      cases he
    by_contra hr
    by_cases h8 : 8 ≤ d.length
    · by_cases hp : PayloadOk d
      · have he := parse_payload d verifyCrc hp
        have hm : 16 ≤ d.length → wordAt 64 d.list 8 = indexMagic := fun h16 => by
          by_contra hm
          exact fails (he.trans (parsePayload_magic d _ h16 hm))
        have hv : 20 ≤ d.length → VersionOk d := fun h20 => by
          by_contra hv
          exact fails (he.trans (parsePayload_version d _ h20 (hm (by omega)) hv))
        by_cases h40 : 40 ≤ d.length
        · have hm := hm (by omega)
          have hv := hv (by omega)
          by_cases hb : ∃ i < countOf d, 40 + 24 * i + 24 ≤ d.length ∧
              2 ^ 38 ≤ (packedAt d.list (40 + 24 * i)).toNat
          · exact fails (he.trans (parsePayload_bad d _ h40 hm hv hb))
          · have hg : ∀ i < countOf d, 40 + 24 * i + 24 ≤ d.length →
                (packedAt d.list (40 + 24 * i)).toNat < 2 ^ 38 :=
              fun i hi hin => Nat.not_le.mp fun hbad => hb ⟨i, hi, hin, hbad⟩
            by_cases hroom : 48 + 24 * countOf d ≤ d.length
            · exact hr ⟨hp, hm, hv, hroom, fun i hi => hg i hi (by omega)⟩
            · exact fails (he.trans (parsePayload_out d _ h40 hm hv (by omega) hg))
        · exact fails (he.trans (parsePayload_short d _ (by omega) hm hv))
      · exact fails (parse_mismatch d verifyCrc h8 hp)
    · exact fails (parse_small d verifyCrc (by omega))
  · rintro ⟨hr, rfl⟩
    exact parse_readable d verifyCrc hr

end SimpleCacheIndex

end SimpleCacheTool
