import SimpleCacheTool.Chromium.GeneratedCodeCache
import SimpleCacheTool.CodeCache.CodeCache
import SimpleCacheTool.Entry.RoundTrip

namespace SimpleCacheTool

open Fallible Segments LittleEndian SimpleCacheFormat

namespace CodeCache

/-- The header's bytes. -/
def headerBytes (responseTime : BitVec 64) (size : Nat) : List Byte :=
  bytes 8 responseTime ++ bytes 4 (BitVec.ofNat 32 size)

@[simp] theorem headerBytes_length (responseTime : BitVec 64) (size : Nat) :
    (headerBytes responseTime size).length = 12 := by
  rw [headerBytes, List.length_append, bytes_length, bytes_length]

theorem header_eq (responseTime : BitVec 64) (size : Nat) :
    ∃ h, header responseTime size = .ok h ∧ h.list = headerBytes responseTime size := by
  obtain ⟨b0, w0, l0⟩ := putU64_next ⟨List.replicate headerSize 0, by decide⟩ [] 4 0 responseTime rfl rfl
  obtain ⟨b1, w1, l1⟩ := putU32_next b0 _ 0 8 (BitVec.ofNat 32 size) l0 (by simp)
  refine ⟨b1, ?_, ?_⟩
  · rw [header, newBytes_of_nat headerSize (by decide), ok_bind, w0, ok_bind, w1]
  · rw [l1, List.replicate_zero, List.append_nil]
    rfl

theorem size_word (data : Bytes) : data.length < 2 ^ 32 := data.length_lt'.trans (by decide)

section Decode

variable (s : List Byte) (responseTime : BitVec 64) (size : Nat) (tail : List Byte)
  (h : s = headerBytes responseTime size ++ tail)

include h

theorem responseTime_at : wordAt 64 s 0 = responseTime := by
  apply wordAt_of_tile 64 s 0 responseTime rfl
  rw [h, headerBytes, List.append_assoc]
  exact seg_prefix _ _ 8 (bytes_length 8 _)

theorem size_at : wordAt 32 s 8 = BitVec.ofNat 32 size := by
  apply wordAt_of_tile 32 s 8 _ rfl
  have hl : (bytes 8 responseTime).length = 8 := bytes_length 8 _
  rw [h, headerBytes, List.append_assoc]
  have hs := seg_append_right (bytes 8 responseTime) (bytes 4 (BitVec.ofNat 32 size) ++ tail) 0 4
  rw [hl] at hs
  exact hs.trans <| seg_prefix _ _ 4 (bytes_length 4 _)

end Decode

/-- What `decode` makes of a header, what follows it and stream 1: the tests in their order. -/
def decoded (responseTime : BitVec 64) (size : Nat) (tail s1 : Bytes) : Decoded :=
  let d : Decoded := { responseTimeInternal := responseTime, dataSize := BitVec.ofNat 32 size }
  if 0 < s1.length then { d with kind := .dedicated, payload := some s1 }
  else if tail.length = size ∧ 0 < size then { d with kind := .inline, payload := some tail }
  else if tail.length = shaKeyLength then
    { d with kind := .indirect, checksumKey := some (JString.usAscii tail.list) }
  else if tail.length = 0 ∧ size = 0 then { d with kind := .empty }
  else { d with kind := .unknown }

/-- A size beyond the ints is negative for `decode`, and fits no tail. -/
theorem decode_header (s0 s1 tail : Bytes) (responseTime : BitVec 64) (size : Nat)
    (hsize : size < 2 ^ 32) (h : s0.list = headerBytes responseTime size ++ tail.list) :
    decode (some s0) (some s1) = .ok (decoded responseTime size tail s1) := by
  have hl : s0.length = 12 + tail.length := by
    rw [Bytes.length, h, List.length_append, headerBytes_length]
    rfl
  have htime := u64_at s0 0 0 rfl (by omega)
  have hword := u32_at s0 8 8 rfl (by omega)
  rw [responseTime_at s0.list responseTime size tail.list h] at htime
  rw [size_at s0.list responseTime size tail.list h] at hword
  have hrest : ((s0.length : Int) - (headerSize : Nat)) = (tail.length : Nat) := by
    rw [hl, headerSize]
    omega
  have hslice : slice s0 (headerSize : Nat) (tail.length : Nat) = .ok tail := by
    rw [slice_in s0 headerSize tail.length (by rw [hl, headerSize])]
    refine congrArg Except.ok (Bytes.ext ?_)
    have hs := seg_append_right (headerBytes responseTime size) tail.list 0 tail.length
    rw [headerBytes_length, ← h] at hs
    exact hs.trans (seg_full tail.list)
  have hn : (BitVec.ofNat 32 size).toNat = size := by
    rw [BitVec.toNat_ofNat]
    omega
  have hint := BitVec.toInt_eq_toNat_cond (BitVec.ofNat 32 size)
  rw [hn] at hint
  have htail := tail.length_lt'
  have hinline : ((tail.length : Int) = (BitVec.ofNat 32 size).toInt ∧
      (BitVec.ofNat 32 size).toInt > 0) ↔ tail.length = size ∧ 0 < size := by
    rw [hint]
    split_ifs <;> omega
  have hzero : BitVec.ofNat 32 size = 0#32 ↔ size = 0 := by
    rw [← BitVec.toNat_inj, hn]
    rfl
  rw [decode, Option.getD_some, Option.getD_some, if_neg (by omega),
    if_neg (by rw [hl, headerSize]; omega), htime, ok_bind, hword, ok_bind]
  simp only [hrest, hslice, ok_bind, hinline, hzero, decoded, gt_iff_lt, Nat.cast_inj, Nat.cast_eq_zero]
  split_ifs <;> rfl

theorem decode_dedup (data : Bytes) (h : 0 < data.length) : decode (some .empty) (some data) = .ok
    { kind := .shaDedup, dataSize := BitVec.ofNat 32 data.length, payload := some data } := by
  have h0 : Bytes.empty.length = 0 := rfl
  rw [decode, Option.getD_some, Option.getD_some, if_pos h0, if_pos h]

theorem decoded_dedicated (responseTime : BitVec 64) (size : Nat) (tail s1 : Bytes) (h : 0 < s1.length) :
    (decoded responseTime size tail s1).kind = .dedicated ∧
    (decoded responseTime size tail s1).payload = some s1 := by
  rw [decoded, if_pos h]
  exact ⟨rfl, rfl⟩

theorem decoded_inline (responseTime : BitVec 64) (tail : Bytes) (h : 0 < tail.length) :
    (decoded responseTime tail.length tail .empty).kind = .inline ∧
    (decoded responseTime tail.length tail .empty).payload = some tail := by
  rw [decoded, if_neg (by decide), if_pos ⟨rfl, h⟩]
  exact ⟨rfl, rfl⟩

theorem decoded_empty (responseTime : BitVec 64) (tail : Bytes) (h : tail.length = 0) :
    (decoded responseTime tail.length tail .empty).kind = .empty := by
  have hsha : ¬0 = shaKeyLength := by decide
  rw [decoded, h, if_neg (by decide), if_neg (by omega), if_neg hsha, if_pos ⟨rfl, rfl⟩]

/-- A checksum key is told from an inline payload of its length by the size. -/
theorem decoded_indirect (responseTime : BitVec 64) (size : Nat) (tail : Bytes)
    (h : tail.length = shaKeyLength) (hsize : size ≠ shaKeyLength) :
    (decoded responseTime size tail .empty).kind = .indirect ∧
    (decoded responseTime size tail .empty).checksumKey = some (JString.usAscii tail.list) := by
  have hother : ¬(tail.length = size ∧ 0 < size) := fun hc => hsize (hc.1.symm.trans h)
  rw [decoded, if_neg (by decide), if_neg hother, if_pos h]
  exact ⟨rfl, rfl⟩

theorem decoded_header (responseTime : BitVec 64) (size : Nat) (tail s1 : Bytes) :
    (decoded responseTime size tail s1).responseTimeInternal = responseTime ∧
    (decoded responseTime size tail s1).dataSize = BitVec.ofNat 32 size := by
  unfold decoded
  split_ifs <;> exact ⟨rfl, rfl⟩

/-- The browser's check, by the size and what follows the header. -/
theorem isValidHeader_iff (s : List Byte) (responseTime : BitVec 64) (size : Nat) (tail : List Byte)
    (hsize : size < 2 ^ 32) (h : s = headerBytes responseTime size ++ tail) :
    Chromium.isValidHeader true s = true ↔ tail.length =
      if size ≤ inlineLimit then size else if size ≤ dedicatedLimit then 0 else shaKeyLength := by
  have hl : s.length = 12 + tail.length := by rw [h, List.length_append, headerBytes_length]
  have hword : (Chromium.readCommonDataHeader s).2.toNat = size := by
    rw [Chromium.readCommonDataHeader, size_at s responseTime size tail h, BitVec.toNat_ofNat]
    omega
  have hdedup : Chromium.shouldDeduplicateEntry true (Chromium.readCommonDataHeader s).2 =
      decide (size > dedicatedLimit) := by
    rw [Chromium.shouldDeduplicateEntry, hword, Bool.and_true]
    rfl
  have hin : ¬12 + tail.length < Chromium.kHeaderSizeInBytes := Nat.not_lt.mpr (Nat.le_add_right 12 _)
  have hinline : Chromium.kInlineDataLimit = inlineLimit := rfl
  unfold Chromium.isValidHeader
  dsimp only
  rw [hdedup, hword, hl, if_neg hin, hinline]
  by_cases h1 : size ≤ inlineLimit
  · rw [if_pos h1, if_pos h1, decide_eq_true_iff]
    exact Nat.add_left_cancel_iff
  · by_cases h2 : size ≤ dedicatedLimit
    · rw [if_neg h1, if_neg h1, if_pos h2, decide_eq_false (Nat.not_lt.mpr h2), Bool.not_false,
        if_pos rfl, decide_eq_true_iff]
      exact Nat.add_eq_left
    · rw [if_neg h1, if_neg h1, if_neg h2, decide_eq_true (Nat.lt_of_not_le h2), Bool.not_true,
        if_neg Bool.false_ne_true, decide_eq_true_iff]
      exact Nat.add_left_cancel_iff

/-- The hex digits under which a large payload is stored. -/
def checksumOf (data : Bytes) (uppercaseSha : Bool) : JString :=
  if uppercaseSha then (hexOf (sha256 data).list).asciiUpper else hexOf (sha256 data).list

theorem checksumOf_ascii (data : Bytes) (uppercaseSha : Bool) :
    JString.IsAscii (checksumOf data uppercaseSha) := by
  cases uppercaseSha with
  | false => exact hexOf_ascii _
  | true => exact asciiUpper_ascii _

theorem checksumOf_length (data : Bytes) (uppercaseSha : Bool) :
    (checksumOf data uppercaseSha).length = shaKeyLength := by
  have hl : (hexOf (sha256 data).list).length = 64 := by
    rw [hexOf_length]
    exact congrArg (2 * ·) (sha256Of_length data.list)
  cases uppercaseSha with
  | false => exact hl
  | true => exact (List.length_map _).trans hl

theorem checksumOf_unhex (data : Bytes) (uppercaseSha : Bool) :
    unhex (checksumOf data uppercaseSha) = some (sha256 data).list := by
  cases uppercaseSha with
  | false => exact (unhex_hexOf _).1
  | true => exact (unhex_hexOf _).2

theorem checksumOf_utf8 (data : Bytes) (uppercaseSha : Bool) :
    (checksumOf data uppercaseSha).utf8.length = 64 := by
  rw [JString.utf8_ascii _ (checksumOf_ascii data uppercaseSha), List.length_map,
    checksumOf_length, shaKeyLength]

/-- An entry after `serialize` and `parse`. -/
def Reread (e : SimpleCacheEntry) (withKeySha256 : Bool) (p : SimpleCacheEntry) : Prop :=
  ∃ out e', e.serialize withKeySha256 = .ok (out, e') ∧ SimpleCacheEntry.parse out true = .ok p

theorem reread (e : SimpleCacheEntry) (key : Bytes) (w : Bool) (hk : e.key = some key)
    (hm : e.initialMagic = initialMagic) (hs : e.writtenSize key w < 2 ^ 31) :
    ∃ p, Reread e w p ∧ p.stream0 = e.stream0 ∧ p.stream1 = e.stream1 :=
  ⟨_, ⟨_, _, e.serialize_file key w hk hm hs, (e.file key w hs).parse_toBytes true⟩, rfl, rfl⟩

/-- The files of a build have fewer than 2^31 bytes. -/
def Fits (url : JString) (data : Bytes) (s : Bool) : Prop :=
  if data.length ≤ dedicatedLimit then
    84 + (cacheKey url).utf8.length + data.length + (if s then 32 else 0) < 2 ^ 31
  else 148 + (cacheKey url).utf8.length + (if s then 32 else 0) < 2 ^ 31 ∧
    136 + data.length + (if s then 32 else 0) < 2 ^ 31

/-- A build has turned its key into bytes. -/
theorem build_key (url : JString) (data : Bytes) (responseTime : BitVec 64) (uppercaseSha : Bool)
    (b : Built) (hb : build url data responseTime uppercaseSha = .ok b) :
    ∃ key, ascii (cacheKey url) = .ok key := by
  cases hk : ascii (cacheKey url) with
  | ok key => exact ⟨key, rfl⟩
  | error x =>
    obtain ⟨h, hh, -⟩ := header_eq responseTime data.length
    rw [build, hh, ok_bind, hk] at hb
    simp only [error_bind] at hb
    split_ifs at hb
    obtain ⟨checksum, -, hb⟩ := (bind_eq_ok _ _ _).mp hb
    cases hb

/-- What `build` makes of a payload, by its size. -/
theorem build_inline (url : JString) (data : Bytes) (responseTime : BitVec 64) (uppercaseSha : Bool)
    (key : Bytes) (hk : ascii (cacheKey url) = .ok key) (hsize : data.length ≤ inlineLimit) :
    ∃ stream0, build url data responseTime uppercaseSha =
        .ok { primary := { key := some key, stream0, stream1 := .empty } } ∧
      stream0.list = headerBytes responseTime data.length ++ data.list := by
  obtain ⟨h, hh, lh⟩ := header_eq responseTime data.length
  have hj : joined [h, data] = headerBytes responseTime data.length ++ data.list := by
    rw [joined_cons, joined_cons, lh]
    exact congrArg _ (List.append_nil _)
  have hl : (joined [h, data]).length < 2 ^ 31 := by
    have he : data.length = data.list.length := rfl
    rw [hj, List.length_append, headerBytes_length]
    unfold inlineLimit at hsize
    omega
  refine ⟨⟨joined [h, data], hl⟩, ?_, hj⟩
  rw [build, hh, ok_bind, if_pos hsize, hk, ok_bind, concat_fits _ hl, ok_bind]

theorem build_dedicated (url : JString) (data : Bytes) (responseTime : BitVec 64) (uppercaseSha : Bool)
    (key : Bytes) (hk : ascii (cacheKey url) = .ok key) (hmin : ¬data.length ≤ inlineLimit)
    (hsize : data.length ≤ dedicatedLimit) :
    ∃ stream0, build url data responseTime uppercaseSha =
        .ok { primary := { key := some key, stream0, stream1 := data } } ∧
      stream0.list = headerBytes responseTime data.length := by
  obtain ⟨h, hh, lh⟩ := header_eq responseTime data.length
  refine ⟨h, ?_, lh⟩
  rw [build, hh, ok_bind, if_neg hmin, if_pos hsize, hk, ok_bind]

theorem build_indirect (url : JString) (data : Bytes) (responseTime : BitVec 64) (uppercaseSha : Bool)
    (key : Bytes) (hk : ascii (cacheKey url) = .ok key) (hsize : ¬data.length ≤ dedicatedLimit) :
    ∃ stream0 checksumKey, build url data responseTime uppercaseSha =
        .ok { primary := { key := some key, stream0, stream1 := .empty }
              dedup := some { key := some checksumKey, stream0 := .empty, stream1 := data } } ∧
      ascii (checksumOf data uppercaseSha) = .ok checksumKey ∧
      stream0.list = headerBytes responseTime data.length ++ checksumKey.list := by
  obtain ⟨h, hh, lh⟩ := header_eq responseTime data.length
  have h64 := checksumOf_utf8 data uppercaseSha
  have hascii := ascii_of_lt (checksumOf data uppercaseSha) (by omega)
  have hhex : hex (sha256 data) = .ok (hexOf (sha256 data).list) := by
    refine hex_eq _ ?_
    have hsha : (sha256 data).length = 32 := sha256Of_length data.list
    omega
  have hj : joined [h, ⟨_, by rw [h64]; decide⟩] =
      headerBytes responseTime data.length ++ (checksumOf data uppercaseSha).utf8 := by
    rw [joined_cons, joined_cons, lh]
    exact congrArg _ (List.append_nil _)
  have hl : (joined [h, ⟨(checksumOf data uppercaseSha).utf8, by omega⟩]).length < 2 ^ 31 := by
    rw [hj, List.length_append, headerBytes_length]
    omega
  have hmin : ¬data.length ≤ inlineLimit := fun hle => hsize (hle.trans (by decide))
  refine ⟨⟨_, hl⟩, _, ?_, hascii, hj⟩
  rw [build, hh, ok_bind, if_neg hmin, if_neg hsize, hhex, ok_bind]
  change (ascii (cacheKey url) >>= fun smallKey => ascii (checksumOf data uppercaseSha) >>= _) = _
  rw [hk, ok_bind, hascii, ok_bind, concat_fits _ hl, ok_bind]
  change (ascii (checksumOf data uppercaseSha) >>= _) = _
  rw [hascii, ok_bind]

/-- What the reader finds, by the size of the payload. -/
def Layout (data : Bytes) (uppercaseSha s : Bool) (b : Built) (d : Decoded) : Prop :=
  if data.length = 0 then d.kind = .empty ∧ b.dedup = none
  else if data.length ≤ inlineLimit then d.kind = .inline ∧ d.payload = some data ∧ b.dedup = none
  else if data.length ≤ dedicatedLimit then
    d.kind = .dedicated ∧ d.payload = some data ∧ b.dedup = none
  else d.kind = .indirect ∧ d.checksumKey = some (checksumOf data uppercaseSha) ∧
    (checksumOf data uppercaseSha).length = 64 ∧
    unhex (checksumOf data uppercaseSha) = some (sha256 data).list ∧
    ∃ e key q d', b.dedup = some e ∧ e.key = some key ∧
    JString.usAscii key.list = checksumOf data uppercaseSha ∧ Reread e s q ∧
    decode (some q.stream0) (some q.stream1) = .ok d' ∧ d'.kind = .shaDedup ∧ d'.payload = some data

/-- The primary entry of a build, read back from its file. -/
def ReadBack (b : Built) (responseTime : BitVec 64) (data : Bytes) (s : Bool) (d : Decoded) : Prop :=
  ∃ p, Reread b.primary s p ∧ Chromium.isValidHeader true p.stream0.list = true ∧
    decode (some p.stream0) (some p.stream1) = .ok d ∧ d.responseTimeInternal = responseTime ∧
    d.dataSize.toInt = data.length

theorem fits_key (url : JString) (data : Bytes) (s : Bool) (h : Fits url data s) :
    ∃ key, ascii (cacheKey url) = .ok key ∧ key.length = (cacheKey url).utf8.length := by
  have hkey : (cacheKey url).utf8.length < 2 ^ 31 := by
    rw [Fits] at h
    split_ifs at h <;> omega
  exact ⟨_, ascii_of_lt (cacheKey url) hkey, rfl⟩

theorem primary_readBack (b : Built) (key tail : Bytes) (responseTime : BitVec 64) (data : Bytes)
    (s : Bool) (hk : b.primary.key = some key) (hm : b.primary.initialMagic = initialMagic)
    (hs : b.primary.writtenSize key s < 2 ^ 31)
    (h0 : b.primary.stream0.list = headerBytes responseTime data.length ++ tail.list)
    (hvalid : tail.length = if data.length ≤ inlineLimit then data.length
      else if data.length ≤ dedicatedLimit then 0 else shaKeyLength) :
    ReadBack b responseTime data s (decoded responseTime data.length tail b.primary.stream1) := by
  obtain ⟨p, hp, hp0, hp1⟩ := reread b.primary key s hk hm hs
  obtain ⟨htime, hsize⟩ := decoded_header responseTime data.length tail b.primary.stream1
  refine ⟨p, hp, ?_, ?_, htime, ?_⟩
  · rw [hp0]
    exact (isValidHeader_iff _ responseTime data.length tail.list (size_word data) h0).mpr hvalid
  · rw [hp0, hp1]
    exact decode_header _ _ tail responseTime data.length (size_word data) h0
  · rw [hsize, toInt32_ofNat _ data.length_lt']

section RoundTrip

variable (url : JString) (data : Bytes) (responseTime : BitVec 64) (uppercaseSha s : Bool)

/-- There is a build, laid out as the size of its data calls for, and its files are read back to the
data and the response time. -/
def RoundTrips : Prop :=
  ∃ b d, build url data responseTime uppercaseSha = .ok b ∧ ReadBack b responseTime data s d ∧
    Layout data uppercaseSha s b d

theorem inline_roundTrips (hfit : Fits url data s) (hinline : data.length ≤ inlineLimit) :
    RoundTrips url data responseTime uppercaseSha s := by
  obtain ⟨key, hk, hkl⟩ := fits_key url data s hfit
  have hdedicated : data.length ≤ dedicatedLimit := hinline.trans (by decide)
  rw [Fits, if_pos hdedicated] at hfit
  obtain ⟨stream0, hb, l0⟩ := build_inline url data responseTime uppercaseSha key hk hinline
  have hl : stream0.length = 12 + data.length := by
    rw [Bytes.length, l0, List.length_append, headerBytes_length]
    rfl
  have hback := primary_readBack { primary := { key := some key, stream0, stream1 := .empty } } key
    data responseTime data s rfl rfl (by
      change 72 + key.length + 0 + stream0.length + (if s then 32 else 0) < 2 ^ 31
      omega) l0 (by rw [if_pos hinline])
  refine ⟨_, _, hb, hback, ?_⟩
  rw [Layout]
  by_cases hz : data.length = 0
  · rw [if_pos hz]
    exact ⟨decoded_empty responseTime data hz, rfl⟩
  · obtain ⟨hkind, hpayload⟩ := decoded_inline responseTime data (Nat.pos_of_ne_zero hz)
    rw [if_neg hz, if_pos hinline]
    exact ⟨hkind, hpayload, rfl⟩

theorem dedicated_roundTrips (hfit : Fits url data s) (hinline : ¬data.length ≤ inlineLimit)
    (hdedicated : data.length ≤ dedicatedLimit) : RoundTrips url data responseTime uppercaseSha s := by
  obtain ⟨key, hk, hkl⟩ := fits_key url data s hfit
  have hpos : 0 < data.length := Nat.pos_of_ne_zero fun hz => hinline (by rw [hz]; decide)
  rw [Fits, if_pos hdedicated] at hfit
  obtain ⟨stream0, hb, l0⟩ :=
    build_dedicated url data responseTime uppercaseSha key hk hinline hdedicated
  have hl : stream0.length = 12 := by rw [Bytes.length, l0, headerBytes_length]
  have hback := primary_readBack { primary := { key := some key, stream0, stream1 := data } } key
    .empty responseTime data s rfl rfl (by
      change 72 + key.length + data.length + stream0.length + (if s then 32 else 0) < 2 ^ 31
      omega) (by rw [l0]; exact (List.append_nil _).symm)
    (by rw [if_neg hinline, if_pos hdedicated]; rfl)
  obtain ⟨hkind, hpayload⟩ := decoded_dedicated responseTime data.length .empty data hpos
  refine ⟨_, _, hb, hback, ?_⟩
  rw [Layout, if_neg (by omega), if_neg hinline, if_pos hdedicated]
  exact ⟨hkind, hpayload, rfl⟩

theorem indirect_roundTrips (hfit : Fits url data s) (hdedicated : ¬data.length ≤ dedicatedLimit) :
    RoundTrips url data responseTime uppercaseSha s := by
  obtain ⟨key, hk, hkl⟩ := fits_key url data s hfit
  have hinline : ¬data.length ≤ inlineLimit := fun hle => hdedicated (hle.trans (by decide))
  have hpos : 0 < data.length := Nat.pos_of_ne_zero fun hz => hinline (by rw [hz]; decide)
  have hsize : data.length ≠ shaKeyLength := fun he => hinline (by rw [he]; decide)
  rw [Fits, if_neg hdedicated] at hfit
  obtain ⟨stream0, checksumKey, hb, hck, l0⟩ :=
    build_indirect url data responseTime uppercaseSha key hk hdedicated
  have hlist : checksumKey.list = (checksumOf data uppercaseSha).utf8 := by
    rw [ascii_of_lt _ (by rw [checksumOf_utf8]; decide)] at hck
    rw [← Except.ok.inj hck]
  have h64 : checksumKey.length = 64 := by rw [Bytes.length, hlist, checksumOf_utf8]
  have hl : stream0.length = 12 + 64 := by
    rw [Bytes.length, l0, List.length_append, headerBytes_length, ← h64]
    rfl
  have hascii : JString.usAscii checksumKey.list = checksumOf data uppercaseSha := by
    rw [hlist, JString.usAscii_utf8 _ (checksumOf_ascii data uppercaseSha)]
  have hback := primary_readBack
    { primary := { key := some key, stream0, stream1 := .empty }
      dedup := some { key := some checksumKey, stream0 := .empty, stream1 := data } } key checksumKey
    responseTime data s rfl rfl (by
      change 72 + key.length + 0 + stream0.length + (if s then 32 else 0) < 2 ^ 31
      omega) l0 (by rw [if_neg hinline, if_neg hdedicated, h64, shaKeyLength])
  obtain ⟨q, hq, hq0, hq1⟩ := reread { key := some checksumKey, stream0 := .empty, stream1 := data }
    checksumKey s rfl rfl (by
      change 72 + checksumKey.length + data.length + 0 + (if s then 32 else 0) < 2 ^ 31
      omega)
  obtain ⟨hkind, hchecksum⟩ := decoded_indirect responseTime data.length checksumKey h64 hsize
  have hdedup : decode (some q.stream0) (some q.stream1) = .ok
      { kind := .shaDedup, dataSize := BitVec.ofNat 32 data.length, payload := some data } := by
    rw [hq0, hq1]
    exact decode_dedup data hpos
  refine ⟨_, _, hb, hback, ?_⟩
  rw [Layout, if_neg (by omega), if_neg hinline, if_neg hdedicated]
  rw [hascii] at hchecksum
  exact ⟨hkind, hchecksum, checksumOf_length data uppercaseSha, checksumOf_unhex data uppercaseSha, _,
    checksumKey, q, _, rfl, rfl, hascii, hq, hdedup, rfl, rfl⟩

end RoundTrip

/-- Any payload is read back from the files of its build, in the variant that its size calls for. -/
theorem build_roundTrip (url : JString) (data : Bytes) (responseTime : BitVec 64)
    (uppercaseSha s : Bool) (hfit : Fits url data s) :
    RoundTrips url data responseTime uppercaseSha s := by
  by_cases hinline : data.length ≤ inlineLimit
  · exact inline_roundTrips url data responseTime uppercaseSha s hfit hinline
  · by_cases hdedicated : data.length ≤ dedicatedLimit
    · exact dedicated_roundTrips url data responseTime uppercaseSha s hfit hinline hdedicated
    · exact indirect_roundTrips url data responseTime uppercaseSha s hfit hdedicated

/-- A payload as long as a checksum key. -/
def tagPayload : Bytes := ⟨List.replicate 64 0, by decide⟩

theorem emptyUrl_length : (cacheKey []).utf8.length = 6 := by decide

theorem build_roundTrip_tag : RoundTrips [] tagPayload 0#64 true false :=
  build_roundTrip [] tagPayload 0#64 true false (by rw [Fits, emptyUrl_length]; decide)

end CodeCache

end SimpleCacheTool
