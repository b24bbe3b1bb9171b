import SimpleCacheTool.Entry.EntryFile

namespace SimpleCacheTool

open Fallible Segments LittleEndian SimpleCacheFormat

namespace SimpleCacheEntry

/-- What `verify` has to say about an entry with this key. -/
def problems (e : SimpleCacheEntry) (key : Bytes) : List String :=
  (if Chromium.superFastHash key.list ≠ e.keyHash then ["header key_hash mismatch"] else []) ++
  (if e.eof1.hasCrc32 ∧ SimpleCacheFormat.crc32 e.stream1 ≠ e.eof1.crc32 then
    ["stream1 crc32 mismatch"] else []) ++
  (if e.eof0.hasCrc32 ∧ SimpleCacheFormat.crc32 e.stream0 ≠ e.eof0.crc32 then
    ["stream0 crc32 mismatch"] else []) ++
  (match e.keySha256 with
    | some sha => if e.eof0.hasKeySha256 ∧ sha256 key ≠ sha then ["sha256(key) mismatch"] else []
    | none => [])

theorem verify_eq (e : SimpleCacheEntry) (key : Bytes) (hk : e.key = some key) :
    e.verify = .ok { e with warnings := e.warnings ++ e.problems key } := by
  rw [verify, hk, deref, ok_bind, keyHash_eq_superFastHash, ok_bind, problems]
  cases e.keySha256 with
  | none => simp only [List.append_assoc]
  | some sha => simp only [List.append_assoc]

end SimpleCacheEntry

namespace EntryFile

/-- The entry a parse of the file yields, before verification. -/
def unverified (f : EntryFile) : SimpleCacheEntry where
  version := f.version
  keyLength := BitVec.ofNat 32 f.key.length
  keyHash := f.keyHash
  headerPadding := f.headerPadding
  key := some f.key
  stream1 := f.stream1
  eof1 := f.eof1
  stream0 := f.stream0
  keySha256 := f.keySha256
  eof0 := f.eof0

/-- The entry a parse of the file yields. -/
def parsed (f : EntryFile) (verify : Bool) : SimpleCacheEntry :=
  if verify then { f.unverified with warnings := f.unverified.problems f.key } else f.unverified

theorem verify_unverified (f : EntryFile) :
    f.unverified.verify = .ok (f.parsed true) := by
  rw [SimpleCacheEntry.verify_eq f.unverified f.key rfl]
  rfl

theorem seg_header (f : EntryFile) : seg f.toBytes.list 0 24 = f.header :=
  f.seg_toBytes [] f.header (f.pieces.drop 1) rfl 0 24 rfl f.header_length.symm

theorem seg_key (f : EntryFile) : seg f.toBytes.list 24 f.key.length = f.key.list :=
  f.seg_toBytes (f.pieces.take 1) f.key.list (f.pieces.drop 2) rfl _ _ (by simp [pieces]) rfl

theorem seg_stream1 (f : EntryFile) :
    seg f.toBytes.list (24 + f.key.length) f.stream1.length = f.stream1.list :=
  f.seg_toBytes (f.pieces.take 2) f.stream1.list (f.pieces.drop 3) rfl _ _
    (by simp [pieces, Bytes.length]) rfl

theorem seg_eof1 (f : EntryFile) :
    seg f.toBytes.list (24 + f.key.length + f.stream1.length) 24 = f.eof1.bytes :=
  f.seg_toBytes (f.pieces.take 3) f.eof1.bytes (f.pieces.drop 4) rfl _ _
    (by simp [pieces, Bytes.length]; omega) f.eof1.bytes_length.symm

theorem seg_stream0 (f : EntryFile) :
    seg f.toBytes.list (48 + f.key.length + f.stream1.length) f.stream0.length =
      f.stream0.list :=
  f.seg_toBytes (f.pieces.take 4) f.stream0.list (f.pieces.drop 5) rfl _ _
    (by simp [pieces, Bytes.length]; omega) rfl

theorem seg_sha (f : EntryFile) :
    seg f.toBytes.list (48 + f.key.length + f.stream1.length + f.stream0.length)
      (shaBytes f.keySha256).length = shaBytes f.keySha256 :=
  f.seg_toBytes (f.pieces.take 5) (shaBytes f.keySha256) (f.pieces.drop 6) rfl _ _
    (by simp [pieces, Bytes.length]; omega) rfl

/-- Where the last record starts. -/
def eof0Off (f : EntryFile) : Nat :=
  48 + f.key.length + f.stream1.length + f.stream0.length + (shaBytes f.keySha256).length

theorem eof0Off_eq (f : EntryFile) : f.toBytes.length = f.eof0Off + 24 := by
  rw [toBytes_length, eof0Off]
  omega

theorem seg_eof0 (f : EntryFile) : seg f.toBytes.list f.eof0Off 24 = f.eof0.bytes :=
  f.seg_toBytes (f.pieces.take 6) f.eof0.bytes (f.pieces.drop 7) rfl _ _
    (by simp [pieces, Bytes.length, eof0Off]; omega) f.eof0.bytes_length.symm

theorem header_words (f : EntryFile) :
    wordAt 64 f.toBytes.list 0 = initialMagic ∧ wordAt 32 f.toBytes.list 8 = f.version ∧
    wordAt 32 f.toBytes.list 12 = BitVec.ofNat 32 f.key.length ∧
    wordAt 32 f.toBytes.list 16 = f.keyHash ∧ wordAt 32 f.toBytes.list 20 = f.headerPadding := by
  have hh := f.seg_header
  refine ⟨wordAt_of_tile 64 _ 0 _ rfl ?_, wordAt_of_tile 32 _ 8 _ rfl ?_,
    wordAt_of_tile 32 _ 12 _ rfl ?_, wordAt_of_tile 32 _ 16 _ rfl ?_,
    wordAt_of_tile 32 _ 20 _ rfl ?_⟩
  · simpa [headerFields] using seg_piece _ 0 24 [] _ (f.headerFields.drop 1) hh
  · simpa [headerFields] using seg_piece _ 0 24 (f.headerFields.take 1) _ (f.headerFields.drop 2) hh
  · simpa [headerFields] using seg_piece _ 0 24 (f.headerFields.take 2) _ (f.headerFields.drop 3) hh
  · simpa [headerFields] using seg_piece _ 0 24 (f.headerFields.take 3) _ (f.headerFields.drop 4) hh
  · simpa [headerFields] using seg_piece _ 0 24 (f.headerFields.take 4) _ (f.headerFields.drop 5) hh

/-! What each reading step of `parse` returns on the file. -/

theorem read_header (f : EntryFile) :
    u64 f.toBytes 0 = .ok initialMagic ∧ u32 f.toBytes 8 = .ok f.version ∧
    u32 f.toBytes 12 = .ok (BitVec.ofNat 32 f.key.length) ∧ u32 f.toBytes 16 = .ok f.keyHash ∧
    u32 f.toBytes 20 = .ok f.headerPadding := by
  obtain ⟨wm, wv, wk, wh, wp⟩ := f.header_words
  have hlen := f.toBytes_length
  rw [u64_at f.toBytes 0 0 rfl (by omega), u32_at f.toBytes 8 8 rfl (by omega),
    u32_at f.toBytes 12 12 rfl (by omega), u32_at f.toBytes 16 16 rfl (by omega),
    u32_at f.toBytes 20 20 rfl (by omega), wm, wv, wk, wh, wp]
  exact ⟨rfl, rfl, rfl, rfl, rfl⟩

theorem slice_key (f : EntryFile) : slice f.toBytes headerSize f.key.length = .ok f.key := by
  have hlen := f.toBytes_length
  rw [slice_in f.toBytes headerSize f.key.length (by rw [headerSize]; omega)]
  exact congrArg Except.ok (Bytes.ext f.seg_key)

theorem read_eof0 (f : EntryFile) : Eof.read f.toBytes f.eof0Off = .ok f.eof0 := by
  have hlen := f.eof0Off_eq
  rw [Eof.read_at f.toBytes f.eof0Off f.eof0Off rfl (by omega), Eof.ofBytes_of_seg _ _ _ f.seg_eof0]

theorem read_eof1 (f : EntryFile) :
    Eof.read f.toBytes ((24 + f.key.length + f.stream1.length : Nat) : Int) = .ok f.eof1 := by
  have hlen := f.toBytes_length
  rw [Eof.read_at f.toBytes _ _ rfl (by omega), Eof.ofBytes_of_seg _ _ _ f.seg_eof1]

theorem slice_stream1 (f : EntryFile) :
    slice f.toBytes ((24 + f.key.length : Nat) : Int) f.stream1.length = .ok f.stream1 := by
  have hlen := f.toBytes_length
  rw [slice_in f.toBytes _ _ (by omega)]
  exact congrArg Except.ok (Bytes.ext f.seg_stream1)

theorem slice_stream0 (f : EntryFile) :
    slice f.toBytes ((48 + f.key.length + f.stream1.length : Nat) : Int) f.stream0.length =
      .ok f.stream0 := by
  have hlen := f.toBytes_length
  rw [slice_in f.toBytes _ _ (by omega)]
  exact congrArg Except.ok (Bytes.ext f.seg_stream0)

theorem readKeySha256_toBytes (f : EntryFile) :
    SimpleCacheEntry.readKeySha256 f.toBytes f.eof0Off
      ((shaBytes f.keySha256).length : Nat) = .ok f.keySha256 := by
  have hlen := f.toBytes_length
  have hlt := f.toBytes.length_lt'
  have hseg := f.seg_sha
  unfold SimpleCacheEntry.readKeySha256 eof0Off
  cases hs : f.keySha256 with
  | none => rfl
  | some sha =>
    rw [hs] at hseg hlen
    have h32 : (shaBytes (some sha)).length = 32 := f.sha_length sha (by simp [hs])
    have ho : i32 (((48 + f.key.length + f.stream1.length + f.stream0.length +
        (shaBytes (some sha)).length : Nat) : Int) - sha256Size) =
        ((48 + f.key.length + f.stream1.length + f.stream0.length : Nat) : Int) :=
      i32_nat _ _ (by simp only [sha256Size]; omega) (by omega)
    rw [if_pos (by rw [h32, sha256Size]), ho, slice_in f.toBytes _ sha256Size
      (by rw [sha256Size]; omega)]
    rw [h32] at hseg
    exact congrArg (fun b => Except.ok (some b)) (Bytes.ext hseg)

/-- The code's int offsets, as positions in a file of these sizes. -/
private theorem offsets (k n z x : Nat) (h : 72 + k + n + z + x < 2 ^ 31) :
    i32 ((headerSize : Int) + k) = ((24 + k : Nat) : Int) ∧
    i32 (((72 + k + n + z + x : Nat) : Int) - (eofSize : Int)) =
      ((48 + k + n + z + x : Nat) : Int) ∧
    i32 (i32 (((48 + k + n + z + x : Nat) : Int) - (x : Int)) - (z : Int)) =
      ((48 + k + n : Nat) : Int) ∧
    i32 (((48 + k + n : Nat) : Int) - (eofSize : Int)) = ((24 + k + n : Nat) : Int) ∧
    i32 (((24 + k + n : Nat) : Int) - ((24 + k : Nat) : Int)) = (n : Int) ∧
    i32 (((24 + k + n : Nat) : Int) + (eofSize : Int)) = ((48 + k + n : Nat) : Int) := by
  have hs : i32 (((48 + k + n + z + x : Nat) : Int) - (x : Int)) = ((48 + k + n + z : Nat) : Int) :=
    i32_nat _ _ (by omega) (by omega)
  rw [hs]
  simp only [headerSize, eofSize]
  refine ⟨i32_nat _ _ ?_ ?_, i32_nat _ _ ?_ ?_, i32_nat _ _ ?_ ?_, i32_nat _ _ ?_ ?_,
    i32_nat _ _ ?_ ?_, i32_nat _ _ ?_ ?_⟩ <;> omega

/-- Reading back the written layout: the sizes, computed from the end, meet the key, laid out
from the start. -/
theorem parse_toBytes (f : EntryFile) (verify : Bool) :
    SimpleCacheEntry.parse f.toBytes verify = .ok (f.parsed verify) := by
  obtain ⟨rmagic, rversion, rlength, rhash, rpadding⟩ := f.read_header
  obtain ⟨okey, oeof0, ostart, oeof1, obody, oback⟩ := offsets f.key.length f.stream1.length
    f.stream0.length (shaBytes f.keySha256).length f.fits
  rw [← f.toBytes_length] at oeof0
  change _ = (f.eof0Off : Int) at oeof0
  change i32 (i32 ((f.eof0Off : Int) - _) - _) = _ at ostart
  have hk : (BitVec.ofNat 32 f.key.length).toInt = f.key.length :=
    toInt32_ofNat _ f.key.length_lt'
  have hz : f.eof0.streamSize.toInt = f.stream0.length := by
    have h0 := f.stream0.length_lt'
    have he := f.stream0_length
    rw [BitVec.toInt_eq_toNat_cond]
    split_ifs <;> omega
  have hx : (if f.eof0.hasKeySha256 then (sha256Size : Int) else 0) =
      ((shaBytes f.keySha256).length : Nat) := by
    rw [f.shaBytes_length]
    split_ifs <;> rfl
  have c0 : ¬f.toBytes.length < headerSize + eofSize := by
    rw [f.toBytes_length, headerSize, eofSize]
    omega
  have c1 : ¬((24 + f.key.length : Nat) : Int) > f.toBytes.length := by
    rw [f.toBytes_length]
    omega
  have c2 : ¬((24 + f.key.length + f.stream1.length : Nat) : Int) <
      ((24 + f.key.length : Nat) : Int) := by omega
  have c3 : ¬((f.stream0.length : Int) < 0 ∨ ((48 + f.key.length + f.stream1.length : Nat) : Int) <
      ((48 + f.key.length + f.stream1.length : Nat) : Int)) := by omega
  rw [SimpleCacheEntry.parse, throwIf_bind_of_not _ _ _ c0, rmagic, ok_bind, rversion, ok_bind,
    rlength, ok_bind, rhash, ok_bind, rpadding, ok_bind, throwIf_bind_of_not _ _ _ (not_not.mpr rfl)]
  simp only [hk, okey]
  rw [throwIf_bind_of_not _ _ _ c1, f.slice_key, ok_bind, oeof0, f.read_eof0, ok_bind,
    throwIf_bind_of_not _ _ _ (not_not.mpr f.eof0_magic)]
  simp only [hz]
  rw [hx]
  simp only [ostart, oeof1, obody, oback]
  rw [throwIf_bind_of_not _ _ _ c2, f.read_eof1, ok_bind,
    throwIf_bind_of_not _ _ _ (not_not.mpr f.eof1_magic), throwIf_bind_of_not _ _ _ c3,
    f.slice_stream1, ok_bind, f.slice_stream0, ok_bind, f.readKeySha256_toBytes, ok_bind]
  cases verify with
  | false => rfl
  | true => exact f.verify_unverified

end EntryFile

namespace SimpleCacheEntry

/-- `key_length`, unsigned. -/
def keyLengthOf (d : Bytes) : Nat := (wordAt 32 d.list 12).toNat

/-- The last record of the file. -/
def lastEof (d : Bytes) : Eof := Eof.ofBytes d.list (d.length - 24)

def stream0LengthOf (d : Bytes) : Nat := (lastEof d).streamSize.toNat

def shaLengthOf (d : Bytes) : Nat := if (lastEof d).hasKeySha256 then 32 else 0

/-- Where stream 1's record must lie, counted from the end. -/
def eof1Off (d : Bytes) : Nat := d.length - 24 - shaLengthOf d - stream0LengthOf d - 24

/-- The layout of an entry file, in exact unsigned arithmetic. -/
structure Layout (d : Bytes) : Prop where
  initial_magic : wordAt 64 d.list 0 = SimpleCacheFormat.initialMagic
  eof0_magic : (lastEof d).magic = finalMagic
  room : 72 + keyLengthOf d + stream0LengthOf d + shaLengthOf d ≤ d.length
  eof1_magic : (Eof.ofBytes d.list (eof1Off d)).magic = finalMagic

/-- The int offset of the second last record, when it lies inside the file: no step wrapped. -/
private theorem eof1Off_exact (n x z : Int) (hn : 48 ≤ n) (hn' : n < 2 ^ 31) (hx : 0 ≤ x)
    (hx' : x ≤ 32) (hz : 0 ≤ z) (hz' : z < 2 ^ 31)
    (h0 : 0 ≤ i32 (i32 (i32 (n - 24 - x) - z) - 24))
    (h1 : i32 (i32 (i32 (n - 24 - x) - z) - 24) + 24 ≤ n) :
    i32 (i32 (i32 (n - 24 - x) - z) - 24) = n - 24 - x - z - 24 := by
  unfold i32 at *
  omega

theorem extra_eq (d : Bytes) :
    (if (lastEof d).hasKeySha256 then (sha256Size : Int) else 0) = (shaLengthOf d : Int) := by
  rw [shaLengthOf]
  split_ifs <;> rfl

theorem shaLengthOf_le (d : Bytes) : shaLengthOf d ≤ 32 := by
  rw [shaLengthOf]
  split_ifs <;> omega

/-- The int offset of the last record of a file that holds one. -/
theorem eof0Off_exact (d : Bytes) (hlen : 48 ≤ d.length) :
    i32 ((d.length : Int) - eofSize) = ((d.length - 24 : Nat) : Int) := by
  have hlt := d.length_lt'
  exact i32_nat _ _ (by simp only [eofSize]; omega) (by omega)

theorem read_lastEof (d : Bytes) (hlen : 48 ≤ d.length) :
    Eof.read d (i32 ((d.length : Int) - eofSize)) = .ok (lastEof d) :=
  Eof.read_at d _ (d.length - 24) (eof0Off_exact d hlen) (by omega)

/-- A key that lies inside the file has a length without sign. -/
theorem key_inside (d key : Bytes)
    (hkey : slice d headerSize (wordAt 32 d.list 12).toInt = .ok key) :
    (wordAt 32 d.list 12).toInt = (keyLengthOf d : Int) ∧ 24 + keyLengthOf d ≤ d.length ∧
      i32 ((headerSize : Int) + (keyLengthOf d : Int)) = ((24 + keyLengthOf d : Nat) : Int) := by
  have hlt := d.length_lt'
  obtain ⟨-, hk0, hk1⟩ := slice_eq_ok _ _ _ _ hkey
  have hk : (wordAt 32 d.list 12).toInt = (keyLengthOf d : Int) := toInt32_of_nonneg _ hk0
  rw [hk] at hk1
  simp only [headerSize] at hk1 ⊢
  exact ⟨hk, by omega, i32_nat _ _ (by omega) (by omega)⟩

/-- Where `parse` looks for the second last record. -/
def recordOff (d : Bytes) : Int :=
  i32 (i32 (i32 (i32 ((d.length : Int) - eofSize) -
    (if (lastEof d).hasKeySha256 then (sha256Size : Int) else 0)) -
    (lastEof d).streamSize.toInt) - eofSize)

/-- A file whose key and both records `parse` has read has the layout: negative and wrapping
lengths do not get that far. -/
theorem layout_of_records (d key : Bytes) (eof1 : Eof) (hlen : 48 ≤ d.length)
    (hmagic : wordAt 64 d.list 0 = SimpleCacheFormat.initialMagic)
    (hkey : slice d headerSize (wordAt 32 d.list 12).toInt = .ok key)
    (hmagic0 : (lastEof d).magic = finalMagic)
    (hgap : ¬recordOff d < i32 ((headerSize : Int) + (wordAt 32 d.list 12).toInt))
    (heof1 : Eof.read d (recordOff d) = .ok eof1) (hmagic1 : eof1.magic = finalMagic)
    (hz0 : 0 ≤ (lastEof d).streamSize.toInt) : Layout d := by
  have hlt := d.length_lt'
  obtain ⟨hk, hk1, hkeyEnd⟩ := key_inside d key hkey
  rw [hk, hkeyEnd] at hgap
  have hz : (lastEof d).streamSize.toInt = (stream0LengthOf d : Int) := toInt32_of_nonneg _ hz0
  have hx := shaLengthOf_le d
  have hzr := (toInt32_range (lastEof d).streamSize).2
  rw [hz] at hzr
  rw [recordOff, extra_eq, hz, eof0Off_exact d hlen] at hgap heof1
  obtain ⟨hlo, hhi, he1⟩ := Eof.read_eq_ok _ _ _ heof1
  have hcast : ((d.length - 24 : Nat) : Int) = (d.length : Int) - 24 := by omega
  rw [hcast] at hlo hhi he1 hgap
  have hoff := eof1Off_exact d.length (shaLengthOf d) (stream0LengthOf d) (by omega) (by omega)
    (by omega) (by omega) (by omega) hzr hlo hhi
  simp only [eofSize] at hgap he1
  push_cast at hgap he1
  rw [hoff] at hgap he1
  have hnat : ((d.length : Int) - 24 - shaLengthOf d - stream0LengthOf d - 24).toNat = eof1Off d := by
    rw [eof1Off]
    omega
  rw [hnat] at he1
  exact ⟨hmagic, hmagic0, by omega, he1 ▸ hmagic1⟩

/-- Whatever `parse` accepts has the layout. -/
theorem parse_layout (d : Bytes) (verify : Bool) (e : SimpleCacheEntry)
    (h : parse d verify = .ok e) : Layout d := by
  unfold parse at h
  simp only [bind_eq_ok, throwIf_eq_ok] at h
  obtain ⟨_, hsmall, magic, hm, version, hv, keyLength, hkl, keyHash, hkh, padding, hp, _, hmagic, _,
    hkeyEnd, key, hkey, eof0, heof0, _, hmagic0, _, hgap, eof1, heof1, _, hmagic1, _, hsize, _⟩ := h
  have hlen : 48 ≤ d.length := by
    simp only [headerSize, eofSize] at hsmall
    omega
  rw [u64_at d 0 0 rfl (by omega)] at hm
  rw [u32_at d 12 12 rfl (by omega)] at hkl
  rw [read_lastEof d hlen] at heof0
  obtain rfl := Except.ok.inj hm
  obtain rfl := Except.ok.inj hkl
  obtain rfl := Except.ok.inj heof0
  exact layout_of_records d key eof1 hlen (not_not.mp hmagic) hkey (not_not.mp hmagic0) hgap heof1
    (not_not.mp hmagic1) (by omega)

end SimpleCacheEntry

namespace EntryFile

open SimpleCacheEntry

/-- The size the layout leaves for stream 1. -/
def stream1LengthOf (d : Bytes) : Nat :=
  d.length - (72 + keyLengthOf d + stream0LengthOf d + shaLengthOf d)

theorem widths_sum (d : Bytes) (h : Layout d) : d.length =
    24 + keyLengthOf d + stream1LengthOf d + 24 + stream0LengthOf d + shaLengthOf d + 24 := by
  have hr := h.room
  rw [stream1LengthOf]
  omega

/-- The checksum's place in a file with the layout. -/
def shaOf (d : Bytes) : Option Bytes :=
  if (lastEof d).hasKeySha256 then
    some (d.sub (48 + keyLengthOf d + stream1LengthOf d + stream0LengthOf d) 32)
  else none

theorem shaBytes_shaOf (d : Bytes) : shaBytes (shaOf d) =
    seg d.list (48 + keyLengthOf d + stream1LengthOf d + stream0LengthOf d) (shaLengthOf d) := by
  rw [shaOf, shaLengthOf]
  split_ifs
  · rfl
  · rw [seg_zero]
    rfl

/-- The file that a byte array with the layout is. -/
def ofLayout (d : Bytes) (h : Layout d) : EntryFile where
  version := wordAt 32 d.list 8
  keyHash := wordAt 32 d.list 16
  headerPadding := wordAt 32 d.list 20
  key := d.sub 24 (keyLengthOf d)
  stream1 := d.sub (24 + keyLengthOf d) (stream1LengthOf d)
  eof1 := Eof.ofBytes d.list (eof1Off d)
  stream0 := d.sub (48 + keyLengthOf d + stream1LengthOf d) (stream0LengthOf d)
  keySha256 := shaOf d
  eof0 := lastEof d
  eof1_magic := h.eof1_magic
  eof0_magic := h.eof0_magic
  stream0_length := by
    have hs := widths_sum d h
    rw [Bytes.sub_length _ _ _ (by omega), stream0LengthOf]
  sha_flag := by
    rw [shaOf]
    split_ifs with hs <;> simp [hs]
  sha_length := by
    have hs := widths_sum d h
    intro sha hsha
    rw [shaOf] at hsha
    split_ifs at hsha with hf
    · rw [shaLengthOf, if_pos hf] at hs
      rw [← Option.some.inj hsha, Bytes.sub_length _ _ _ (by omega)]
    · cases hsha
  fits := by
    have hs := widths_sum d h
    have hl : d.length = d.list.length := rfl
    have hlt := d.length_lt'
    rw [Bytes.sub_length _ _ _ (by omega), Bytes.sub_length _ _ _ (by omega),
      Bytes.sub_length _ _ _ (by omega), shaBytes_shaOf, seg_length _ _ _ (by omega)]
    omega

theorem ofLayout_header (d : Bytes) (h : Layout d) : (ofLayout d h).header = seg d.list 0 24 := by
  have hs := widths_sum d h
  have hl : d.length = d.list.length := rfl
  have hk : BitVec.ofNat 32 (ofLayout d h).key.length = wordAt 32 d.list 12 := by
    have hkey : (ofLayout d h).key.length = (wordAt 32 d.list 12).toNat :=
      Bytes.sub_length _ _ _ (by omega)
    rw [hkey, BitVec.ofNat_toNat, BitVec.setWidth_eq]
  rw [header, headerFields, hk, ← h.initial_magic]
  change [bytes 8 (wordAt 64 d.list 0), bytes 4 (wordAt 32 d.list 8), bytes 4 (wordAt 32 d.list 12),
    bytes 4 (wordAt 32 d.list 16), bytes 4 (wordAt 32 d.list 20)].flatten = _
  rw [bytes_wordAt 64 8 d.list 0 rfl rfl (by omega), bytes_wordAt 32 4 d.list 8 rfl rfl (by omega),
    bytes_wordAt 32 4 d.list 12 rfl rfl (by omega), bytes_wordAt 32 4 d.list 16 rfl rfl (by omega),
    bytes_wordAt 32 4 d.list 20 rfl rfl (by omega)]
  exact tiles_flatten d.list 0 [8, 4, 4, 4, 4]

/-- The pieces tile the file: none overlap and nothing is left between them. -/
theorem ofLayout_toBytes (d : Bytes) (h : Layout d) : (ofLayout d h).toBytes = d := by
  have hs := widths_sum d h
  have hl : d.length = d.list.length := rfl
  have he1 : (ofLayout d h).eof1.bytes = seg d.list (24 + keyLengthOf d + stream1LengthOf d) 24 := by
    have ho : eof1Off d = 24 + keyLengthOf d + stream1LengthOf d := by
      rw [eof1Off]
      omega
    rw [← ho]
    exact Eof.bytes_ofBytes d.list (eof1Off d) (by omega)
  have he0 : (ofLayout d h).eof0.bytes = seg d.list (48 + keyLengthOf d + stream1LengthOf d +
      stream0LengthOf d + shaLengthOf d) 24 := by
    have ho : d.length - 24 = 48 + keyLengthOf d + stream1LengthOf d + stream0LengthOf d +
        shaLengthOf d := by omega
    rw [← ho]
    exact Eof.bytes_ofBytes d.list (d.length - 24) (by omega)
  have ht := tiles_whole d.list [24, keyLengthOf d, stream1LengthOf d, 24, stream0LengthOf d,
    shaLengthOf d, 24] (by simp only [List.sum_cons, List.sum_nil]; omega)
  refine Bytes.ext (Eq.trans ?_ ht)
  change (pieces _).flatten = _
  rw [pieces, ofLayout_header, he1, he0]
  change [_, seg d.list _ _, seg d.list _ _, _, seg d.list _ _, shaBytes (shaOf d), _].flatten = _
  rw [shaBytes_shaOf]
  simp only [tiles, Nat.zero_add]
  have h48 : 24 + keyLengthOf d + stream1LengthOf d + 24 = 48 + keyLengthOf d + stream1LengthOf d := by
    omega
  rw [h48]

end EntryFile

namespace SimpleCacheEntry

/-- `parse` accepts exactly the well-formed entry files, and returns what they hold. -/
theorem parse_eq_ok (d : Bytes) (verify : Bool) (e : SimpleCacheEntry) :
    parse d verify = .ok e ↔ ∃ f : EntryFile, f.toBytes = d ∧ f.parsed verify = e := by
  constructor
  · intro h
    have hd := EntryFile.ofLayout_toBytes d (parse_layout d verify e h)
    refine ⟨EntryFile.ofLayout d (parse_layout d verify e h), hd, ?_⟩
    have hp := EntryFile.parse_toBytes (EntryFile.ofLayout d (parse_layout d verify e h)) verify
    rw [hd, h] at hp
    exact (Except.ok.inj hp).symm
  · rintro ⟨f, rfl, rfl⟩
    exact f.parse_toBytes verify

end SimpleCacheEntry

end SimpleCacheTool
