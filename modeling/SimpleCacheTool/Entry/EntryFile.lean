import SimpleCacheTool.Entry.SimpleCacheEntry

namespace SimpleCacheTool

open Fallible Segments LittleEndian SimpleCacheFormat

namespace Eof

/-- The record's 24 bytes, field by field. -/
def fields (e : Eof) : List (List Byte) :=
  [bytes 8 e.magic, bytes 4 e.flags, bytes 4 e.crc32, bytes 4 e.streamSize, bytes 4 e.padding]

def bytes (e : Eof) : List Byte := e.fields.flatten

@[simp] theorem bytes_length (e : Eof) : e.bytes.length = 24 := by simp [bytes, fields]

/-- The record at a byte offset. -/
def ofBytes (l : List Byte) (off : Nat) : Eof where
  magic := wordAt 64 l off
  flags := wordAt 32 l (off + 8)
  crc32 := wordAt 32 l (off + 12)
  streamSize := wordAt 32 l (off + 16)
  padding := wordAt 32 l (off + 20)

theorem ofBytes_of_seg (l : List Byte) (off : Nat) (e : Eof) (h : seg l off 24 = e.bytes) :
    ofBytes l off = e := by
  have hm := wordAt_of_tile 64 l off e.magic rfl
    (seg_piece l off 24 [] _ (e.fields.drop 1) h)
  have hf := wordAt_of_tile 32 l (off + 8) e.flags rfl
    (by simpa [fields] using seg_piece l off 24 (e.fields.take 1) _ (e.fields.drop 2) h)
  have hc := wordAt_of_tile 32 l (off + 12) e.crc32 rfl
    (by simpa [fields] using seg_piece l off 24 (e.fields.take 2) _ (e.fields.drop 3) h)
  have hs := wordAt_of_tile 32 l (off + 16) e.streamSize rfl
    (by simpa [fields] using seg_piece l off 24 (e.fields.take 3) _ (e.fields.drop 4) h)
  have hp := wordAt_of_tile 32 l (off + 20) e.padding rfl
    (by simpa [fields] using seg_piece l off 24 (e.fields.take 4) _ (e.fields.drop 5) h)
  rw [ofBytes, hm, hf, hc, hs, hp]

theorem bytes_ofBytes (l : List Byte) (off : Nat) (h : off + 24 ≤ l.length) :
    (ofBytes l off).bytes = seg l off 24 := by
  rw [bytes, fields, ofBytes, bytes_wordAt 64 8 l off rfl rfl (by omega),
    bytes_wordAt 32 4 l (off + 8) rfl rfl (by omega),
    bytes_wordAt 32 4 l (off + 12) rfl rfl (by omega),
    bytes_wordAt 32 4 l (off + 16) rfl rfl (by omega),
    bytes_wordAt 32 4 l (off + 20) rfl rfl (by omega)]
  exact tiles_flatten l off [8, 4, 4, 4, 4]

theorem read_at (d : Bytes) (off : Int) (n : Nat) (ho : off = n) (h : n + 24 ≤ d.length) :
    read d off = .ok (ofBytes d.list n) := by
  have hd := d.length_lt'
  subst ho
  rw [read, u64_in d n (by omega), ok_bind,
    u32_at d (i32 (n + 8)) (n + 8) (i32_nat _ _ (by omega) (by omega)) (by omega), ok_bind,
    u32_at d (i32 (n + 12)) (n + 12) (i32_nat _ _ (by omega) (by omega)) (by omega), ok_bind,
    u32_at d (i32 (n + 16)) (n + 16) (i32_nat _ _ (by omega) (by omega)) (by omega), ok_bind,
    u32_at d (i32 (n + 20)) (n + 20) (i32_nat _ _ (by omega) (by omega)) (by omega), ok_bind]
  rfl

theorem read_out (d : Bytes) (off : Int) (h : off < 0 ∨ d.length < off + 24) :
    read d off = .error .arrayIndexOutOfBounds := by
  have hd := d.length_lt'
  by_cases h8 : off < 0 ∨ d.length < off + 8
  · rw [read, u64_out d off h8, error_bind]
  obtain ⟨n, rfl⟩ := Int.eq_ofNat_of_zero_le (show 0 ≤ off by omega)
  rw [read, u64_in d n (by omega), ok_bind]
  -- each further word is either inside the file or the read fails there
  have step (k : Nat) (i : Int) (hi : i = (n : Int) + k) (f : BitVec 32 → Java Eof)
      (hk : n + k ≤ d.length)
      (hf : n + k + 4 ≤ d.length → ∀ v, f v = .error .arrayIndexOutOfBounds) :
      (u32 d (i32 i) >>= f) = .error .arrayIndexOutOfBounds := by
    by_cases hin : n + k + 4 ≤ d.length
    · rw [u32_at d (i32 i) (n + k) (i32_nat _ _ (by omega) (by omega)) hin, ok_bind]
      exact hf hin _
    · rw [u32_out, error_bind]
      rw [i32_nat i (n + k) (by omega) (by omega)]
      omega
  refine step 8 _ rfl _ (by omega) fun _ _ => step 12 _ rfl _ (by omega) fun _ _ =>
    step 16 _ rfl _ (by omega) fun _ _ => step 20 _ rfl _ (by omega) fun h20 _ => ?_
  omega

theorem read_eq_ok (d : Bytes) (off : Int) (e : Eof) (h : read d off = .ok e) :
    0 ≤ off ∧ off + 24 ≤ d.length ∧ e = ofBytes d.list off.toNat := by
  by_cases hin : off < 0 ∨ d.length < off + 24
  · rw [read_out d off hin] at h
    cases h
  · rw [read_at d off off.toNat (by omega) (by omega)] at h
    exact ⟨by omega, by omega, (Except.ok.inj h).symm⟩

theorem read_eq_error (d : Bytes) (off : Int) (x : JavaException) (h : read d off = .error x) :
    x = .arrayIndexOutOfBounds ∧ (off < 0 ∨ d.length < off + 24) := by
  by_cases hout : off < 0 ∨ d.length < off + 24
  · rw [read_out d off hout] at h
    exact ⟨(Except.error.inj h).symm, hout⟩
  · rw [read_at d off off.toNat (by omega) (by omega)] at h
    cases h

end Eof

/-- The stored checksum's bytes; none when there is no checksum. -/
def shaBytes (sha : Option Bytes) : List Byte := (sha.map Bytes.list).getD []

/-- A well-formed entry file: the header fields, the contents and the two EOF records, with the
sizes the records announce. -/
structure EntryFile where
  version : BitVec 32
  keyHash : BitVec 32
  headerPadding : BitVec 32
  key : Bytes
  stream1 : Bytes
  eof1 : Eof
  stream0 : Bytes
  keySha256 : Option Bytes
  eof0 : Eof
  eof1_magic : eof1.magic = finalMagic
  eof0_magic : eof0.magic = finalMagic
  stream0_length : stream0.length = eof0.streamSize.toNat
  sha_flag : keySha256.isSome = eof0.hasKeySha256
  sha_length : ∀ sha ∈ keySha256, sha.length = 32
  fits : 72 + key.length + stream1.length + stream0.length + (shaBytes keySha256).length < 2 ^ 31

namespace EntryFile

def headerFields (f : EntryFile) : List (List Byte) :=
  [bytes 8 initialMagic, bytes 4 f.version, bytes 4 (BitVec.ofNat 32 f.key.length),
    bytes 4 f.keyHash, bytes 4 f.headerPadding]

def header (f : EntryFile) : List Byte := f.headerFields.flatten

@[simp] theorem header_length (f : EntryFile) : f.header.length = 24 := by
  simp [header, headerFields]

def pieces (f : EntryFile) : List (List Byte) :=
  [f.header, f.key.list, f.stream1.list, f.eof1.bytes, f.stream0.list, shaBytes f.keySha256,
    f.eof0.bytes]

theorem pieces_length (f : EntryFile) : f.pieces.flatten.length =
    72 + f.key.length + f.stream1.length + f.stream0.length + (shaBytes f.keySha256).length := by
  simp only [pieces, List.flatten_cons, List.flatten_nil, List.length_append, List.length_nil,
    header_length, Eof.bytes_length, Bytes.length]
  omega

/-- The file's bytes. -/
def toBytes (f : EntryFile) : Bytes := ⟨f.pieces.flatten, by rw [pieces_length]; exact f.fits⟩

theorem toBytes_length (f : EntryFile) : f.toBytes.length =
    72 + f.key.length + f.stream1.length + f.stream0.length + (shaBytes f.keySha256).length :=
  f.pieces_length

/-- Where a piece lies in the file. -/
theorem seg_toBytes (f : EntryFile) (before : List (List Byte)) (p : List Byte)
    (after : List (List Byte)) (h : f.pieces = before ++ p :: after) (off len : Nat)
    (ho : off = before.flatten.length) (hl : len = p.length) : seg f.toBytes.list off len = p := by
  have hs := seg_piece f.toBytes.list 0 f.toBytes.list.length before p after
    (by rw [seg_full, ← h]; rfl)
  rw [Nat.zero_add, ← ho, ← hl] at hs
  exact hs

theorem shaBytes_length (f : EntryFile) :
    (shaBytes f.keySha256).length = if f.eof0.hasKeySha256 then 32 else 0 := by
  have hf := f.sha_flag
  cases hs : f.keySha256 with
  | none =>
    rw [hs] at hf
    simp [shaBytes, ← hf]
  | some sha =>
    rw [hs] at hf
    have h32 := f.sha_length sha (by simp [hs])
    simpa [shaBytes, ← hf, Bytes.length] using h32

end EntryFile

end SimpleCacheTool
