import SimpleCacheTool.Entry.RoundTrip

namespace SimpleCacheTool.SimpleCacheEntry

open Fallible Segments LittleEndian SimpleCacheFormat

/-- The lengths with which `parse` keeps its int offsets inside the array or notices that they are
outside: the end of the key does not overflow, and the offset counted back over stream 0 does not
wrap around to a place between the key and the end of the ints. -/
def LengthsInRange (d : Bytes) : Prop :=
  48 ≤ d.length → wordAt 64 d.list 0 = SimpleCacheFormat.initialMagic →
    keyLengthOf d < 2 ^ 31 - 24 ∧
    (24 + keyLengthOf d ≤ d.length → (lastEof d).magic = finalMagic →
      48 + shaLengthOf d + stream0LengthOf d ≤ d.length + 2 ^ 31 ∨
      2 ^ 32 ≤ 24 + shaLengthOf d + stream0LengthOf d ∨
      d.length + 2 ^ 32 < 72 + keyLengthOf d + shaLengthOf d + stream0LengthOf d)

/-- An exception `parse` raises on purpose, or one of the array accesses. -/
def Raised (d : Bytes) (x : JavaException) : Prop :=
  (∃ m, x = .illegalArgument m) ∧ LengthsInRange d ∨
  (x = .negativeArraySize ∨ x = .arrayIndexOutOfBounds) ∧ ¬LengthsInRange d

theorem toInt32_eq (v : BitVec 32) : v.toInt = if v.toNat < 2 ^ 31 then (v.toNat : Int) else
    (v.toNat : Int) - 2 ^ 32 := by
  have hv := v.isLt
  rw [BitVec.toInt_eq_toNat_cond]
  split_ifs <;> omega

/-- The offset of the second last record in terms of the unsigned lengths. -/
theorem recordOff_eq (d : Bytes) (hlen : 48 ≤ d.length) :
    recordOff d = i32 ((d.length : Int) - 48 - shaLengthOf d - stream0LengthOf d) := by
  have hx := extra_eq d
  have hz : i32 ((d.length : Int) - 48 - shaLengthOf d - (lastEof d).streamSize.toInt) =
      i32 ((d.length : Int) - 48 - shaLengthOf d - stream0LengthOf d) := by
    rw [stream0LengthOf, toInt32_eq]
    unfold i32
    split_ifs <;> omega
  rw [← hz, recordOff, eof0Off_exact d hlen, hx, eofSize]
  unfold i32
  omega

/-- A key whose end passes the comparison and which is not inside the file has a length that is
negative as an int or makes the sum overflow. -/
theorem key_outside (d : Bytes) (hlen : 48 ≤ d.length)
    (hend : ¬i32 ((headerSize : Int) + (wordAt 32 d.list 12).toInt) > d.length)
    (hout : (wordAt 32 d.list 12).toInt < 0 ∨
      (d.length : Int) < headerSize + (wordAt 32 d.list 12).toInt) :
    2 ^ 31 - 24 ≤ keyLengthOf d := by
  have hv := (wordAt 32 d.list 12).isLt
  rw [toInt32_eq] at hend hout
  rw [keyLengthOf]
  simp only [headerSize] at hend hout
  unfold i32 at hend
  split_ifs at hend hout <;> omega

theorem key_behind (d : Bytes) (hlen : 48 ≤ d.length)
    (hend : i32 ((headerSize : Int) + (wordAt 32 d.list 12).toInt) > d.length) :
    keyLengthOf d < 2 ^ 31 - 24 ∧ d.length < 24 + keyLengthOf d := by
  have hv := (wordAt 32 d.list 12).isLt
  rw [toInt32_eq] at hend
  rw [keyLengthOf]
  simp only [headerSize] at hend
  unfold i32 at hend
  split_ifs at hend <;> omega

/-- Behind a key inside the file and a last record with its magic, the lengths are out of range
exactly when the second last record is looked for behind the key and beyond the end. -/
theorem inRange_iff (d : Bytes) (hlen : 48 ≤ d.length)
    (hmagic : wordAt 64 d.list 0 = SimpleCacheFormat.initialMagic)
    (hkey : 24 + keyLengthOf d ≤ d.length) (hmagic0 : (lastEof d).magic = finalMagic) :
    LengthsInRange d ↔ ¬(24 + keyLengthOf d ≤ recordOff d ∧ d.length < recordOff d + 24) := by
  have hlt := d.length_lt'
  have hx := shaLengthOf_le d
  have hz := (lastEof d).streamSize.isLt
  rw [← stream0LengthOf] at hz
  rw [recordOff_eq d hlen]
  constructor
  · intro h
    have hr := (h hlen hmagic).2 hkey hmagic0
    unfold i32
    omega
  · intro h _ _
    refine ⟨by omega, ?_⟩
    intro _ _
    unfold i32 at h
    omega

/-- Each way `parse` can fail, step by step. -/
theorem parse_raised (d : Bytes) (verify : Bool) (x : JavaException)
    (h : parse d verify = .error x) : Raised d x := by
  have hlt := d.length_lt'
  have hwhole := h
  have hok : ∀ m, x = .illegalArgument m → LengthsInRange d → Raised d x :=
    fun m hx hr => .inl ⟨⟨m, hx⟩, hr⟩
  unfold parse at h
  -- the size
  rcases (throwIf_bind_eq_error _ _ _ _).mp h with ⟨hs, hx⟩ | ⟨hs, h⟩
  · apply hok _ hx.symm
    intro h48
    simp only [headerSize, eofSize] at hs
    omega
  have hlen : 48 ≤ d.length := by
    simp only [headerSize, eofSize] at hs
    omega
  -- the header
  rw [u64_at d 0 0 rfl (by omega), ok_bind, u32_at d 8 8 rfl (by omega), ok_bind,
    u32_at d 12 12 rfl (by omega), ok_bind, u32_at d 16 16 rfl (by omega), ok_bind,
    u32_at d 20 20 rfl (by omega), ok_bind] at h
  rcases (throwIf_bind_eq_error _ _ _ _).mp h with ⟨hm, hx⟩ | ⟨hm, h⟩
  · exact hok _ hx.symm fun _ hm' => absurd hm' hm
  have hmagic := not_not.mp hm
  -- the key
  rcases (throwIf_bind_eq_error _ _ _ _).mp h with ⟨hend, hx⟩ | ⟨hend, h⟩
  · obtain ⟨hsmall, hfit⟩ := key_behind d hlen hend
    exact hok _ hx.symm fun _ _ => ⟨hsmall, fun hin => absurd hin (Nat.not_le.mpr hfit)⟩
  rcases (bind_eq_error _ _ _).mp h with h | ⟨key, hkey, h⟩
  · obtain ⟨hx, hout⟩ := slice_eq_error _ _ _ _ (toInt32_range _).2 h
    refine .inr ⟨hx, ?_⟩
    intro hr
    have hk := key_outside d hlen hend (by simp only [headerSize] at hout ⊢; omega)
    have hr1 := (hr hlen hmagic).1
    omega
  obtain ⟨hk, hk1, hkeyEnd⟩ := key_inside d key hkey
  -- the last record
  change (Eof.read d (i32 ((d.length : Int) - eofSize)) >>= _) = _ at h
  rw [read_lastEof d hlen, ok_bind] at h
  rcases (throwIf_bind_eq_error _ _ _ _).mp h with ⟨hm0, hx⟩ | ⟨hm0, h⟩
  · exact hok _ hx.symm fun _ _ => ⟨by omega, fun _ hm0' => absurd hm0' hm0⟩
  have hmagic0 := not_not.mp hm0
  have hiff := inRange_iff d hlen hmagic hk1 hmagic0
  -- the record before
  change (throwIf (recordOff d < i32 ((headerSize : Int) + (wordAt 32 d.list 12).toInt)) _ >>=
    fun _ => Eof.read d (recordOff d) >>= _) = _ at h
  rw [hk, hkeyEnd] at h
  rcases (throwIf_bind_eq_error _ _ _ _).mp h with ⟨hgap, hx⟩ | ⟨hgap, h⟩
  · exact hok _ hx.symm (hiff.mpr (by omega))
  rcases (bind_eq_error _ _ _).mp h with h | ⟨eof1, heof1, h⟩
  · obtain ⟨hx, hout⟩ := Eof.read_eq_error _ _ _ h
    exact .inr ⟨.inr hx, fun hr => hiff.mp hr (by omega)⟩
  obtain ⟨-, hin, -⟩ := Eof.read_eq_ok _ _ _ heof1
  have hr : LengthsInRange d := hiff.mpr (by omega)
  rcases (throwIf_bind_eq_error _ _ _ _).mp h with ⟨-, hx⟩ | ⟨hm1, h⟩
  · exact hok _ hx.symm hr
  rcases (throwIf_bind_eq_error _ _ _ _).mp h with ⟨-, hx⟩ | ⟨hsize, -⟩
  · exact hok _ hx.symm hr
  -- nothing behind the checks can fail
  have hl := layout_of_records d key eof1 hlen hmagic hkey hmagic0
    (by rw [hk, hkeyEnd]; exact hgap) heof1 (not_not.mp hm1) (by omega)
  rw [← EntryFile.ofLayout_toBytes d hl, EntryFile.parse_toBytes] at hwhole
  cases hwhole

theorem layout_inRange (d : Bytes) (h : Layout d) : LengthsInRange d := by
  have hr := h.room
  have hlt := d.length_lt'
  exact fun _ _ => ⟨by omega, fun _ _ => .inl (by omega)⟩

theorem parse_of_layout (d : Bytes) (verify : Bool) (h : Layout d) : ∃ e, parse d verify = .ok e := by
  rw [← EntryFile.ofLayout_toBytes d h]
  exact ⟨_, EntryFile.parse_toBytes _ verify⟩

/-- `parse` returns exactly on the layout and throws IllegalArgumentException otherwise: this holds
for the files whose lengths are in range, and for no others. -/
theorem parse_clean_iff (d : Bytes) (verify : Bool) :
    (((∃ e, parse d verify = .ok e) ↔ Layout d) ∧
      (¬Layout d → ∃ m, parse d verify = .error (.illegalArgument m))) ↔ LengthsInRange d := by
  have hacc : (∃ e, parse d verify = .ok e) ↔ Layout d :=
    ⟨fun ⟨e, h⟩ => parse_layout d verify e h, parse_of_layout d verify⟩
  constructor
  · rintro ⟨-, hrej⟩
    by_cases hl : Layout d
    · exact layout_inRange d hl
    · obtain ⟨m, hm⟩ := hrej hl
      rcases parse_raised d verify _ hm with ⟨-, hr⟩ | ⟨hx | hx, -⟩
      · exact hr
      · cases hx
      · cases hx
  · intro hr
    refine ⟨hacc, ?_⟩
    intro hl
    cases h : parse d verify with
    | ok e => exact absurd (hacc.mp ⟨e, h⟩) hl
    | error x =>
      rcases parse_raised d verify x h with ⟨⟨m, rfl⟩, -⟩ | ⟨-, hn⟩
      · exact ⟨m, rfl⟩
      · exact absurd hr hn

/-- A file of 48 bytes that announces a key of 2^32 - 1. -/
def negativeKey : Bytes :=
  ⟨bytes 8 SimpleCacheFormat.initialMagic ++ bytes 4 5#32 ++ bytes 4 0xffffffff#32 ++
    List.replicate 32 0, by decide⟩

theorem negativeKey_unclean : ¬∀ (d : Bytes) (verify : Bool),
    ((∃ e, parse d verify = .ok e) ↔ Layout d) ∧
      (¬Layout d → ∃ m, parse d verify = .error (.illegalArgument m)) := by
  intro h
  have hout : ¬LengthsInRange negativeKey := fun hr => absurd (hr (by decide) (by decide)).1 (by decide)
  have hlayout : ¬Layout negativeKey := fun hl => hout (layout_inRange _ hl)
  obtain ⟨m, hm⟩ := (h negativeKey true).2 hlayout
  rcases parse_raised negativeKey true _ hm with ⟨-, hr⟩ | ⟨hx | hx, -⟩
  · exact hout hr
  · cases hx
  · cases hx

end SimpleCacheTool.SimpleCacheEntry
