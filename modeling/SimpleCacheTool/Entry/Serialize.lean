import SimpleCacheTool.Entry.EntryFile

namespace SimpleCacheTool

open Fallible Segments LittleEndian SimpleCacheFormat

/-- Writing a record into a fresh array leaves exactly the fields' bytes. -/
theorem Eof.write_new (e : Eof) (b : Bytes) (hb : b.list = List.replicate eofSize 0) :
    ∃ out, e.write b 0 = .ok out ∧ out.list = e.bytes := by
  obtain ⟨b0, w0, l0⟩ := putU64_next b [] 16 0 e.magic hb (by simp)
  obtain ⟨b1, w1, l1⟩ := putU32_next b0 _ 12 (i32 (0 + 8)) e.flags l0 (by simp [i32])
  obtain ⟨b2, w2, l2⟩ := putU32_next b1 _ 8 (i32 (0 + 12)) e.crc32 l1 (by simp [i32])
  obtain ⟨b3, w3, l3⟩ := putU32_next b2 _ 4 (i32 (0 + 16)) e.streamSize l2 (by simp [i32])
  obtain ⟨b4, w4, l4⟩ := putU32_next b3 _ 0 (i32 (0 + 20)) e.padding l3 (by simp [i32])
  refine ⟨b4, ?_, ?_⟩
  · rw [write, w0, ok_bind, w1, ok_bind, w2, ok_bind, w3, ok_bind, w4]
  · rw [l4]
    simp [Eof.bytes, Eof.fields]

/-- The first four fields written into a fresh header. -/
theorem header_new (magic : BitVec 64) (version length hash : BitVec 32) : ∃ b0 b1 b2 b3,
    putU64 ⟨List.replicate headerSize 0, by decide⟩ 0 magic = .ok b0 ∧ putU32 b0 8 version = .ok b1 ∧
    putU32 b1 12 length = .ok b2 ∧ putU32 b2 16 hash = .ok b3 ∧ b3.list =
      [bytes 8 magic, bytes 4 version, bytes 4 length, bytes 4 hash].flatten ++ List.replicate 4 0 := by
  obtain ⟨b0, w0, l0⟩ := putU64_next ⟨List.replicate headerSize 0, by decide⟩ [] 16 0 magic rfl rfl
  obtain ⟨b1, w1, l1⟩ := putU32_next b0 _ 12 8 version l0 (by simp)
  obtain ⟨b2, w2, l2⟩ := putU32_next b1 _ 8 12 length l1 (by simp)
  obtain ⟨b3, w3, l3⟩ := putU32_next b2 _ 4 16 hash l2 (by simp)
  refine ⟨b0, b1, b2, b3, w0, w1, w2, w3, ?_⟩
  rw [l3]
  simp

namespace SimpleCacheEntry

/-- Stream 1's record as `serialize` fills it. -/
def newEof1 (e : SimpleCacheEntry) : Eof where
  magic := finalMagic
  flags := flagHasCrc32
  crc32 := SimpleCacheFormat.crc32 e.stream1

/-- Stream 0's record as `serialize` fills it. -/
def newEof0 (e : SimpleCacheEntry) (withKeySha256 : Bool) : Eof where
  magic := finalMagic
  flags := flagHasCrc32 ||| (if withKeySha256 then flagHasKeySha256 else 0#32)
  crc32 := SimpleCacheFormat.crc32 e.stream0
  streamSize := BitVec.ofNat 32 e.stream0.length

def newSha (key : Bytes) (withKeySha256 : Bool) : Option Bytes :=
  if withKeySha256 then some (sha256 key) else none

/-- The entry as `serialize` leaves it. -/
def stamped (e : SimpleCacheEntry) (key : Bytes) (withKeySha256 : Bool) : SimpleCacheEntry :=
  { e with
    keyLength := BitVec.ofNat 32 key.length
    keyHash := Chromium.superFastHash key.list
    headerPadding := 0#32
    eof1 := e.newEof1
    eof0 := e.newEof0 withKeySha256
    keySha256 := newSha key withKeySha256 }

/-- What `serialize` writes, piece by piece. -/
def written (e : SimpleCacheEntry) (key : Bytes) (withKeySha256 : Bool) : List (List Byte) :=
  [[bytes 8 e.initialMagic, bytes 4 e.version, bytes 4 (BitVec.ofNat 32 key.length),
      bytes 4 (Chromium.superFastHash key.list), bytes 4 0#32].flatten,
    key.list, e.stream1.list, e.newEof1.bytes, e.stream0.list,
    shaBytes (newSha key withKeySha256), (e.newEof0 withKeySha256).bytes]

/-- The size of what `serialize` writes, in exact arithmetic. -/
def writtenSize (e : SimpleCacheEntry) (key : Bytes) (withKeySha256 : Bool) : Nat :=
  72 + key.length + e.stream1.length + e.stream0.length + (if withKeySha256 then 32 else 0)

theorem shaBytes_newSha_length (key : Bytes) (w : Bool) :
    (shaBytes (newSha key w)).length = if w then 32 else 0 := by
  cases w with
  | false => rfl
  | true => exact sha256Of_length key.list

theorem written_length (e : SimpleCacheEntry) (key : Bytes) (w : Bool) :
    (e.written key w).flatten.length = e.writtenSize key w := by
  simp only [written, List.flatten_cons, List.flatten_nil, List.length_append, List.length_nil,
    bytes_length, Eof.bytes_length, shaBytes_newSha_length, writtenSize, Bytes.length]
  omega

/-- `serialize` joins the pieces, provided they fit one array. -/
theorem serialize_eq (e : SimpleCacheEntry) (key : Bytes) (w : Bool) (hk : e.key = some key) :
    ∃ parts : List Bytes, joined parts = (e.written key w).flatten ∧
      e.serialize w = concat parts >>= fun out => .ok (out, e.stamped key w) := by
  have hnew (n : Nat) (hn : n < 2 ^ 31) := newBytes_of_nat n hn
  obtain ⟨b0, b1, b2, b3, w0, w1, w2, w3, l3⟩ := header_new e.initialMagic e.version
    (BitVec.ofNat 32 key.length) (Chromium.superFastHash key.list)
  obtain ⟨b4, w4, l4⟩ := putU32_next b3 _ 0 20 0#32 l3 (by simp)
  obtain ⟨r1, h1, m1⟩ := e.newEof1.write_new ⟨List.replicate eofSize 0, by decide⟩ rfl
  obtain ⟨r0, h0, m0⟩ := (e.newEof0 w).write_new ⟨List.replicate eofSize 0, by decide⟩ rfl
  refine ⟨[b4, key, e.stream1, r1, e.stream0, if w then sha256 key else .empty, r0], ?_, ?_⟩
  · have hsha : (if w then sha256 key else .empty).list = shaBytes (newSha key w) := by
      cases w <;> rfl
    simp [joined, written, l4, m1, m0, hsha]
  · have hnull : ¬e.key = none := by simp [hk]
    rw [serialize, throwIf_bind_of_not _ _ _ hnull, hk, deref, ok_bind, keyHash_eq_superFastHash,
      ok_bind]
    change (newBytes headerSize >>= fun _ => _) = _
    rw [hnew headerSize (by decide), ok_bind, w0, ok_bind, w1, ok_bind, w2, ok_bind, w3, ok_bind, w4,
      ok_bind, hnew eofSize (by decide), ok_bind]
    change (e.newEof1.write _ 0 >>= fun _ => _) = _
    rw [h1, ok_bind, ok_bind]
    change ((e.newEof0 w).write _ 0 >>= fun _ => _) = _
    rw [h0, ok_bind]
    dsimp only [stamped, newEof1, newEof0, newSha]
    rw [hk]
    cases w <;> rfl

/-- `serialize` returns exactly when everything fits one array. -/
theorem serialize_eq_ok (e : SimpleCacheEntry) (key out : Bytes) (w : Bool) (e' : SimpleCacheEntry)
    (hk : e.key = some key) : e.serialize w = .ok (out, e') ↔
      out.list = (e.written key w).flatten ∧ e' = e.stamped key w := by
  obtain ⟨parts, hj, hs⟩ := e.serialize_eq key w hk
  rw [hs, bind_eq_ok, ← hj]
  constructor
  · rintro ⟨o, hc, ho⟩
    obtain ⟨rfl, rfl⟩ := Prod.mk.inj (Except.ok.inj ho)
    exact ⟨(concat_eq_ok _ _).mp hc, rfl⟩
  · rintro ⟨ho, rfl⟩
    exact ⟨out, (concat_eq_ok _ _).mpr ho, rfl⟩

theorem serialize_wrapped (e : SimpleCacheEntry) (key : Bytes) (w : Bool) (hk : e.key = some key)
    (hl : 2 ^ 31 ≤ e.writtenSize key w) (hu : e.writtenSize key w < 2 ^ 32) :
    e.serialize w = .error .negativeArraySize := by
  obtain ⟨parts, hj, hs⟩ := e.serialize_eq key w hk
  have hlen : (joined parts).length = e.writtenSize key w := by rw [hj, written_length]
  rw [hs, concat_wrapped parts (by omega) (by omega), error_bind]

/-- `serializedSize` is the exact size when that is an int. -/
theorem serializedSize_eq (e : SimpleCacheEntry) (key : Bytes) (w : Bool) (hk : e.key = some key)
    (hs : e.writtenSize key w < 2 ^ 31) : e.serializedSize w = .ok (e.writtenSize key w : Int) := by
  rw [serializedSize, hk, deref, ok_bind]
  simp only [i32_add]
  rw [i32_nat _ (e.writtenSize key w) ?_ hs]
  rw [writtenSize, headerSize, eofSize, sha256Size]
  push_cast
  omega

end SimpleCacheEntry

end SimpleCacheTool
