import SimpleCacheTool.Entry.Parse
import SimpleCacheTool.Entry.Serialize

namespace SimpleCacheTool.SimpleCacheEntry

open Fallible Segments LittleEndian SimpleCacheFormat

/-- The stream 2 file of an entry in memory; null is `none`. -/
structure Stream2 where
  key : Option Bytes := none
  data : Option Bytes := none
  eof : Option Eof := none
  deriving DecidableEq, Repr

namespace Stream2

def parse (d : Bytes) : Java Stream2 := do
  let magic ← u64 d 0
  throwIf (magic ≠ SimpleCacheFormat.initialMagic) (.illegalArgument "bad stream2 initial magic")
  let klen ← u32 d 12
  let key ← slice d headerSize klen.toInt
  let dataStart := i32 (headerSize + klen.toInt)
  let eofOff := i32 (d.length - eofSize)
  let eof ← Eof.read d eofOff
  let data ← slice d dataStart (i32 (eofOff - dataStart))
  .ok { key := some key, data := some data, eof := some eof }

def serialize (s : Stream2) : Java Bytes := do
  let data ← deref s.data
  let e : Eof :=
    { magic := finalMagic
      flags := flagHasCrc32
      crc32 := SimpleCacheFormat.crc32 data
      streamSize := 0#32 }
  let header ← newBytes headerSize
  let header ← putU64 header 0 SimpleCacheFormat.initialMagic
  let header ← putU32 header 8 entryVersion
  let key ← deref s.key
  let header ← putU32 header 12 (BitVec.ofNat 32 key.length)
  let keyHash ← SimpleCacheFormat.keyHash key
  let header ← putU32 header 16 keyHash
  let eofBytes ← newBytes eofSize
  let eofBytes ← e.write eofBytes 0
  concat [header, key, data, eofBytes]

/-- What the file holds, by its own key length. -/
def contents (d : Bytes) : Stream2 where
  key := some (d.sub 24 (keyLengthOf d))
  data := some (d.sub (24 + keyLengthOf d) (d.length - (48 + keyLengthOf d)))
  eof := some (lastEof d)

/-- With the magic number and room for both ends, `parse` returns what the key length delimits. -/
theorem parse_room (d : Bytes) (hmagic : wordAt 64 d.list 0 = SimpleCacheFormat.initialMagic)
    (hroom : 48 + keyLengthOf d ≤ d.length) : parse d = .ok (contents d) := by
  have hlt := d.length_lt'
  have hk : (wordAt 32 d.list 12).toInt = (keyLengthOf d : Int) := by
    rw [keyLengthOf, BitVec.toInt_eq_toNat_cond, if_pos (by rw [← keyLengthOf]; omega)]
  have hkeyEnd : i32 ((headerSize : Int) + (keyLengthOf d : Int)) =
      ((24 + keyLengthOf d : Nat) : Int) :=
    i32_nat _ _ (by simp only [headerSize]; omega) (by omega)
  have heofOff := eof0Off_exact d (by omega)
  have hgap : i32 (((d.length - 24 : Nat) : Int) - ((24 + keyLengthOf d : Nat) : Int)) =
      ((d.length - (48 + keyLengthOf d) : Nat) : Int) := i32_nat _ _ (by omega) (by omega)
  rw [parse, u64_at d 0 0 rfl (by omega), ok_bind, throwIf_bind_of_not _ _ _ (not_not.mpr hmagic),
    u32_at d 12 12 rfl (by omega), ok_bind, hk,
    slice_at d _ _ headerSize (keyLengthOf d) rfl rfl (by rw [headerSize]; omega), ok_bind]
  simp only [hkeyEnd]
  rw [read_lastEof d (by omega), ok_bind, heofOff, hgap,
    slice_in d _ _ (by omega), ok_bind]
  rfl

/-- The last slice has a negative length when the key runs into the end record. -/
theorem parse_inside (d : Bytes) (s : Stream2) (h : parse d = .ok s) :
    wordAt 64 d.list 0 = SimpleCacheFormat.initialMagic ∧ 48 + keyLengthOf d ≤ d.length := by
  have hlt := d.length_lt'
  unfold parse at h
  simp only [bind_eq_ok, throwIf_eq_ok] at h
  obtain ⟨magic, hm, _, hmagic, klen, hkl, key, hkey, eof, heof, data, hdata, hs⟩ := h
  have h16 : 12 + 4 ≤ d.length := by
    by_contra hout
    rw [u32_out d 12 (by omega)] at hkl
    cases hkl
  rw [u64_at d 0 0 rfl (by omega)] at hm
  rw [u32_at d 12 12 rfl h16] at hkl
  obtain rfl := Except.ok.inj hm
  obtain rfl := Except.ok.inj hkl
  obtain ⟨hk, hk1, hkeyEnd⟩ := key_inside d key hkey
  have heofOff : i32 ((d.length : Int) - eofSize) = ((d.length - 24 : Nat) : Int) :=
    i32_nat _ _ (by simp only [eofSize]; omega) (by omega)
  rw [hk, hkeyEnd, heofOff] at hdata
  have hgap : i32 (((d.length - 24 : Nat) : Int) - ((24 + keyLengthOf d : Nat) : Int)) =
      (d.length : Int) - 24 - (24 + keyLengthOf d) := by
    rw [i32_of_range _ (by omega) (by omega)]
    omega
  have hin := slice_eq_ok _ _ _ _ hdata
  rw [hgap] at hin
  exact ⟨not_not.mp hmagic, by omega⟩

/-- A file that `parse` returns from: the end's magic number is not looked at. -/
theorem parse_eq_ok (d : Bytes) (s : Stream2) : parse d = .ok s ↔
    wordAt 64 d.list 0 = SimpleCacheFormat.initialMagic ∧ 48 + keyLengthOf d ≤ d.length ∧
      s = contents d := by
  constructor
  · intro h
    obtain ⟨hmagic, hroom⟩ := parse_inside d s h
    rw [parse_room d hmagic hroom] at h
    exact ⟨hmagic, hroom, (Except.ok.inj h).symm⟩
  · rintro ⟨hmagic, hroom, rfl⟩
    exact parse_room d hmagic hroom

/-- IllegalArgumentException is thrown for a wrong magic number at the start alone. -/
theorem parse_illegal (d : Bytes) (m : String) (h : parse d = .error (.illegalArgument m)) :
    8 ≤ d.length ∧ wordAt 64 d.list 0 ≠ SimpleCacheFormat.initialMagic := by
  unfold parse at h
  by_cases h8 : 8 ≤ d.length
  · rw [u64_at d 0 0 rfl (by omega), ok_bind] at h
    rcases (throwIf_bind_eq_error _ _ _ _).mp h with ⟨hmagic, -⟩ | ⟨-, h⟩
    · exact ⟨h8, hmagic⟩
    -- every other failure is one of an array access
    rcases (bind_eq_error _ _ _).mp h with h | ⟨klen, -, h⟩
    · by_cases h16 : 16 ≤ d.length
      · rw [u32_at d 12 12 rfl (by omega)] at h
        cases h
      · rw [u32_out d 12 (by omega)] at h
        cases h
    rcases (bind_eq_error _ _ _).mp h with h | ⟨key, -, h⟩
    · rcases (slice_eq_error _ _ _ _ (toInt32_range _).2 h).1 with hx | hx <;> cases hx
    rcases (bind_eq_error _ _ _).mp h with h | ⟨eof, -, h⟩
    · cases (Eof.read_eq_error _ _ _ h).1
    rcases (bind_eq_error _ _ _).mp h with h | ⟨data, -, h⟩
    · rcases (slice_eq_error _ _ _ _ (i32_range _).2 h).1 with hx | hx <;> cases hx
    · cases h
  · rw [u64_out d 0 (by omega), error_bind] at h
    cases h

theorem parse_badMagic (d : Bytes) (h8 : 8 ≤ d.length)
    (h : wordAt 64 d.list 0 ≠ SimpleCacheFormat.initialMagic) :
    parse d = .error (.illegalArgument "bad stream2 initial magic") := by
  rw [parse, u64_at d 0 0 rfl (by omega), ok_bind, throwIf_bind_of _ _ _ h]

/-- A stream 2 file: header, key, data and one record. -/
structure Layout (d : Bytes) : Prop where
  initial_magic : wordAt 64 d.list 0 = SimpleCacheFormat.initialMagic
  room : 48 + keyLengthOf d ≤ d.length
  eof_magic : (lastEof d).magic = finalMagic

/-- `parse` returns what a stream 2 file holds and throws IllegalArgumentException for any other. -/
structure Clean (d : Bytes) : Prop where
  accepts : (∃ s, parse d = .ok s) ↔ Layout d
  returns : Layout d → parse d = .ok (contents d)
  rejects : ¬Layout d → ∃ m, parse d = .error (.illegalArgument m)

theorem layout_parse (d : Bytes) (h : Layout d) : parse d = .ok (contents d) :=
  (parse_eq_ok d _).mpr ⟨h.initial_magic, h.room, rfl⟩

theorem clean_iff (d : Bytes) : Clean d ↔
    Layout d ∨ 8 ≤ d.length ∧ wordAt 64 d.list 0 ≠ SimpleCacheFormat.initialMagic := by
  constructor
  · intro h
    by_cases hl : Layout d
    · exact .inl hl
    · obtain ⟨m, hm⟩ := h.rejects hl
      exact .inr (parse_illegal d m hm)
  · rintro (hl | ⟨h8, hmagic⟩)
    · exact ⟨⟨fun _ => hl, fun _ => ⟨_, layout_parse d hl⟩⟩, fun _ => layout_parse d hl,
        fun hn => absurd hl hn⟩
    · have hbad := parse_badMagic d h8 hmagic
      have hno : ¬Layout d := fun hl => hmagic hl.initial_magic
      refine ⟨⟨?_, fun hl => absurd hl hno⟩, fun hl => absurd hl hno, fun _ => ⟨_, hbad⟩⟩
      rintro ⟨s, hs⟩
      rw [hbad] at hs
      cases hs

/-- The record `serialize` writes. -/
def newEof (data : Bytes) : Eof where
  magic := finalMagic
  flags := flagHasCrc32
  crc32 := SimpleCacheFormat.crc32 data

def headerFields (key : Bytes) : List (List Byte) :=
  [bytes 8 SimpleCacheFormat.initialMagic, bytes 4 entryVersion, bytes 4 (BitVec.ofNat 32 key.length),
    bytes 4 (Chromium.superFastHash key.list), bytes 4 0#32]

/-- What `serialize` writes, piece by piece. -/
def written (key data : Bytes) : List (List Byte) :=
  [(headerFields key).flatten, key.list, data.list, (newEof data).bytes]

theorem written_length (key data : Bytes) :
    (written key data).flatten.length = 48 + key.length + data.length := by
  simp only [written, headerFields, List.flatten_cons, List.flatten_nil, List.length_append,
    List.length_nil, bytes_length, Eof.bytes_length, Bytes.length]
  omega

theorem serialize_fits (key data : Bytes) (h : (written key data).flatten.length < 2 ^ 31) :
    serialize { key := some key, data := some data } = .ok ⟨(written key data).flatten, h⟩ := by
  obtain ⟨b0, b1, b2, b3, w0, w1, w2, w3, l3⟩ := header_new SimpleCacheFormat.initialMagic
    entryVersion (BitVec.ofNat 32 key.length) (Chromium.superFastHash key.list)
  obtain ⟨r, hr, lr⟩ := (newEof data).write_new ⟨List.replicate eofSize 0, by decide⟩ rfl
  have hz : bytes 4 0#32 = List.replicate 4 0 := by decide
  have hj : joined [b3, key, data, r] = (written key data).flatten := by
    simp [joined, written, headerFields, l3, lr, hz]
  rw [serialize, deref, ok_bind, newBytes_of_nat headerSize (by decide), ok_bind, w0, ok_bind, w1,
    ok_bind, deref, ok_bind, w2, ok_bind, keyHash_eq_superFastHash, ok_bind, w3, ok_bind,
    newBytes_of_nat eofSize (by decide), ok_bind]
  change ((newEof data).write _ 0 >>= fun _ => _) = _
  rw [hr, ok_bind, concat_eq_ok]
  exact hj.symm

section Written

variable (key data : Bytes) (d : Bytes) (h : d.list = (written key data).flatten)

include h

/-- Where a piece lies in the file. -/
theorem seg_written (pre : List (List Byte)) (p : List Byte) (post : List (List Byte))
    (hp : written key data = pre ++ p :: post) : seg d.list pre.flatten.length p.length = p := by
  have hs := seg_piece d.list 0 d.list.length pre p post (by rw [seg_full, h, hp])
  rwa [Nat.zero_add] at hs

theorem keyLengthOf_written : keyLengthOf d = key.length := by
  have hh := seg_written key data d h [] (headerFields key).flatten _ rfl
  have hw := wordAt_of_tile 32 d.list 12 (BitVec.ofNat 32 key.length) rfl (by
    simpa [headerFields] using seg_piece d.list 0 _ ((headerFields key).take 2) _
      ((headerFields key).drop 3) hh)
  have hlt := key.length_lt'
  rw [keyLengthOf, hw, BitVec.toNat_ofNat]
  omega

/-- A file that `serialize` wrote has the layout, and holds the key and the data. -/
theorem written_layout : Layout d ∧
    contents d = { key := some key, data := some data, eof := some (newEof data) } := by
  have hk := keyLengthOf_written key data d h
  have hlen : d.length = 48 + key.length + data.length := by
    rw [Bytes.length, h, written_length]
  have hh := seg_written key data d h [] (headerFields key).flatten _ rfl
  have hhl : (headerFields key).flatten.length = 24 := by simp [headerFields]
  have hmagic := wordAt_of_tile 64 d.list 0 SimpleCacheFormat.initialMagic rfl
    (seg_piece d.list 0 _ [] _ ((headerFields key).drop 1) hh)
  have hkey := seg_written key data d h [(headerFields key).flatten] key.list _ rfl
  have hdata := seg_written key data d h [(headerFields key).flatten, key.list] data.list _ rfl
  have heof := seg_written key data d h [(headerFields key).flatten, key.list, data.list]
    (newEof data).bytes _ rfl
  simp only [List.flatten_cons, List.flatten_nil, List.append_nil, List.length_append, hhl,
    Eof.bytes_length] at hkey hdata heof
  have hlast : lastEof d = newEof data := by
    rw [lastEof, hlen]
    apply Eof.ofBytes_of_seg
    rw [← heof]
    congr 1
    simp only [Bytes.length]
    omega
  refine ⟨⟨hmagic, by omega, by rw [hlast]; rfl⟩, ?_⟩
  rw [contents, hk, hlast, hlen, Nat.add_sub_cancel_left]
  have hkey' : d.sub 24 key.length = key := Bytes.ext hkey
  have hdata' : d.sub (24 + key.length) data.length = data := Bytes.ext hdata
  rw [hkey', hdata']

end Written

/-- `parse` does right by the stream 2 files and by what does not start like one, and by no other array;
and it reads back what `serialize` wrote. -/
theorem stream2_parse (d key data : Bytes) : (Clean d ↔
      Layout d ∨ 8 ≤ d.length ∧ wordAt 64 d.list 0 ≠ SimpleCacheFormat.initialMagic) ∧
    (48 + key.length + data.length < 2 ^ 31 →
      ∃ out, serialize { key := some key, data := some data } = .ok out ∧ Layout out ∧
        parse out = .ok { key := some key, data := some data, eof := some (newEof data) }) := by
  refine ⟨clean_iff d, ?_⟩
  intro hfit
  have hw : (written key data).flatten.length < 2 ^ 31 := by
    rw [written_length]
    exact hfit
  obtain ⟨hlayout, hcontents⟩ := written_layout key data ⟨_, hw⟩ rfl
  exact ⟨_, serialize_fits key data hw, hlayout, hcontents ▸ layout_parse _ hlayout⟩

/-- A key of two bytes, and data of three. -/
def twoBytes : Bytes := ⟨[0x6b#8, 0x32#8], by decide⟩

def threeBytes : Bytes := ⟨[1#8, 2#8, 3#8], by decide⟩

theorem stream2_parse_small : ∃ out,
    serialize { key := some twoBytes, data := some threeBytes } = .ok out ∧ Layout out ∧
    parse out =
      .ok { key := some twoBytes, data := some threeBytes, eof := some (newEof threeBytes) } :=
  (stream2_parse .empty twoBytes threeBytes).2 (by decide)

/-- A header without a key and a record of zeros. -/
def zeroEof : Bytes :=
  ⟨bytes 8 SimpleCacheFormat.initialMagic ++ List.replicate 40 0, by decide⟩

theorem zeroEof_accepted : ¬Clean zeroEof := by
  intro h
  have hok : ∃ s, parse zeroEof = .ok s :=
    ⟨_, (parse_eq_ok zeroEof _).mpr ⟨by decide, by decide, rfl⟩⟩
  exact absurd (h.accepts.mp hok).eof_magic (by decide)

end Stream2

end SimpleCacheTool.SimpleCacheEntry
