import SimpleCacheTool.Entry.Parse
import SimpleCacheTool.Entry.Serialize

namespace SimpleCacheTool

open Fallible Segments LittleEndian SimpleCacheFormat

namespace SimpleCacheEntry

theorem newEof0_hasKeySha256 (e : SimpleCacheEntry) (w : Bool) :
    (e.newEof0 w).hasKeySha256 = w := by
  cases w <;> simp [newEof0, Eof.hasKeySha256, flagHasCrc32, flagHasKeySha256]

/-- The file `serialize` writes for an entry that fits. -/
def file (e : SimpleCacheEntry) (key : Bytes) (w : Bool) (hs : e.writtenSize key w < 2 ^ 31) :
    EntryFile where
  version := e.version
  keyHash := Chromium.superFastHash key.list
  headerPadding := 0#32
  key := key
  stream1 := e.stream1
  eof1 := e.newEof1
  stream0 := e.stream0
  keySha256 := newSha key w
  eof0 := e.newEof0 w
  eof1_magic := rfl
  eof0_magic := rfl
  stream0_length := by
    have h0 := e.stream0.length_lt'
    rw [newEof0, BitVec.toNat_ofNat, Nat.mod_eq_of_lt (by omega)]
  sha_flag := by
    rw [newEof0_hasKeySha256]
    cases w <;> rfl
  sha_length := by
    cases w with
    | false => simp [newSha]
    | true =>
      intro sha hsha
      rw [← Option.some.inj hsha]
      exact sha256Of_length key.list
  fits := by rw [shaBytes_newSha_length]; exact hs

theorem serialize_file (e : SimpleCacheEntry) (key : Bytes) (w : Bool) (hk : e.key = some key)
    (hm : e.initialMagic = SimpleCacheFormat.initialMagic) (hs : e.writtenSize key w < 2 ^ 31) :
    e.serialize w = .ok ((e.file key w hs).toBytes, e.stamped key w) := by
  rw [e.serialize_eq_ok key _ w _ hk]
  refine ⟨?_, rfl⟩
  rw [written, hm]
  rfl

/-- Nothing `serialize` writes fails a check of `verify`. -/
theorem file_problems (e : SimpleCacheEntry) (key : Bytes) (w : Bool)
    (hs : e.writtenSize key w < 2 ^ 31) :
    (e.file key w hs).unverified.problems key = [] := by
  cases w <;> simp [problems, file, EntryFile.unverified, newEof1, newEof0, newSha]

theorem file_toBytes_length (e : SimpleCacheEntry) (key : Bytes) (w : Bool)
    (hs : e.writtenSize key w < 2 ^ 31) :
    (e.file key w hs).toBytes.length = e.writtenSize key w := by
  rw [EntryFile.toBytes_length, writtenSize]
  change _ + (shaBytes (newSha key w)).length = _
  rw [shaBytes_newSha_length]
  rfl

/-- Decoding an encoded entry: the sizes found from the end of the file are those written from its
start, whatever the streams hold. -/
theorem entryParse_serialize (e : SimpleCacheEntry) (key : Bytes) (w : Bool) (hk : e.key = some key)
    (hm : e.initialMagic = SimpleCacheFormat.initialMagic) (hs : e.writtenSize key w < 2 ^ 31) :
    ∃ out e' p, e.serialize w = .ok (out, e') ∧ e.serializedSize w = .ok (out.length : Int) ∧
      parse out true = .ok p ∧ p.warnings = [] ∧ p.version = e.version ∧ p.key = e.key ∧
      p.stream0 = e.stream0 ∧ p.stream1 = e.stream1 ∧
      p.keySha256 = (if w then some (sha256 key) else none) ∧ p.eof0.hasKeySha256 = w := by
  refine ⟨(e.file key w hs).toBytes, e.stamped key w, (e.file key w hs).parsed true,
    e.serialize_file key w hk hm hs, ?_, (e.file key w hs).parse_toBytes true,
    e.file_problems key w hs, rfl, hk.symm, rfl, rfl, rfl, e.newEof0_hasKeySha256 w⟩
  rw [e.serializedSize_eq key w hk hs, file_toBytes_length]

/-- A small entry whose body ends in a final magic number of its own. -/
def smallEntry : SimpleCacheEntry where
  key := some ⟨[0x6b#8], by decide⟩
  stream0 := ⟨[0x61#8, 0x62#8, 0x63#8, 0x64#8], by decide⟩
  stream1 := ⟨[0xd8#8, 0x41#8, 0x0d#8, 0x97#8, 0x45#8, 0x6f#8, 0xfa#8, 0xf4#8], by decide⟩

def smallKey : Bytes := ⟨[0x6b#8], by decide⟩

theorem entryParse_serialize_small : ∃ out e' p, smallEntry.serialize true = .ok (out, e') ∧
    smallEntry.serializedSize true = .ok (out.length : Int) ∧ parse out true = .ok p ∧
    p.warnings = [] ∧ p.version = smallEntry.version ∧ p.key = smallEntry.key ∧
    p.stream0 = smallEntry.stream0 ∧ p.stream1 = smallEntry.stream1 ∧
    p.keySha256 = (if true then some (sha256 smallKey) else none) ∧ p.eof0.hasKeySha256 = true :=
  entryParse_serialize smallEntry smallKey true rfl rfl (by decide)

/-- The small entry's file. -/
def smallFile : EntryFile := smallEntry.file smallKey true (by decide)

/-! Encoding a decoded file. -/

/-- The header a parsed entry describes. -/
def headerBytes (e : SimpleCacheEntry) : Java Bytes := do
  let d ← newBytes headerSize
  let d ← putU64 d 0 e.initialMagic
  let d ← putU32 d 8 e.version
  let d ← putU32 d 12 e.keyLength
  let d ← putU32 d 16 e.keyHash
  putU32 d 20 e.headerPadding

/-- The parsed pieces one after another, nothing recomputed. -/
def rebuilt (e : SimpleCacheEntry) : Java Bytes := do
  let key ← deref e.key
  let header ← e.headerBytes
  let eof1Bytes ← newBytes eofSize
  let eof1Bytes ← e.eof1.write eof1Bytes 0
  let eof0Bytes ← newBytes eofSize
  let eof0Bytes ← e.eof0.write eof0Bytes 0
  concat [header, key, e.stream1, eof1Bytes, e.stream0, e.keySha256.getD .empty, eof0Bytes]

theorem headerBytes_eq (e : SimpleCacheEntry) : ∃ b, e.headerBytes = .ok b ∧
    b.list = [bytes 8 e.initialMagic, bytes 4 e.version, bytes 4 e.keyLength, bytes 4 e.keyHash,
      bytes 4 e.headerPadding].flatten := by
  obtain ⟨b0, w0, l0⟩ := putU64_next ⟨List.replicate headerSize 0, by decide⟩ [] 16 0
    e.initialMagic rfl rfl
  obtain ⟨b1, w1, l1⟩ := putU32_next b0 _ 12 8 e.version l0 (by simp)
  obtain ⟨b2, w2, l2⟩ := putU32_next b1 _ 8 12 e.keyLength l1 (by simp)
  obtain ⟨b3, w3, l3⟩ := putU32_next b2 _ 4 16 e.keyHash l2 (by simp)
  obtain ⟨b4, w4, l4⟩ := putU32_next b3 _ 0 20 e.headerPadding l3 (by simp)
  refine ⟨b4, ?_, by simp [l4]⟩
  rw [headerBytes, newBytes_of_nat headerSize (by decide), ok_bind, w0, ok_bind, w1, ok_bind, w2,
    ok_bind, w3, ok_bind, w4]

theorem rebuilt_parsed (f : EntryFile) (verify : Bool) :
    (f.parsed verify).rebuilt = .ok f.toBytes := by
  have hp : (f.parsed verify).rebuilt = f.unverified.rebuilt := by cases verify <;> rfl
  obtain ⟨b, hb, lb⟩ := f.unverified.headerBytes_eq
  obtain ⟨r1, h1, m1⟩ := f.eof1.write_new ⟨List.replicate eofSize 0, by decide⟩ rfl
  obtain ⟨r0, h0, m0⟩ := f.eof0.write_new ⟨List.replicate eofSize 0, by decide⟩ rfl
  have hnew := newBytes_of_nat eofSize (by decide)
  have hsha : (f.keySha256.getD .empty).list = shaBytes f.keySha256 := by
    cases f.keySha256 <;> rfl
  have hj : joined [b, f.key, f.stream1, r1, f.stream0, f.keySha256.getD .empty, r0] =
      f.pieces.flatten := by
    rw [joined, EntryFile.pieces, ← hsha, ← m1, ← m0, EntryFile.header, EntryFile.headerFields]
    simp only [List.map_cons, List.map_nil, lb]
    rfl
  have hkey : f.unverified.key = some f.key := rfl
  rw [hp, rebuilt, hkey, deref, ok_bind, hb, ok_bind, hnew, ok_bind]
  change (f.eof1.write _ 0 >>= fun _ => _) = _
  rw [h1, ok_bind, ok_bind]
  change (f.eof0.write _ 0 >>= fun _ => _) = _
  rw [h0, ok_bind, concat_eq_ok]
  exact hj.symm

/-- The entries `serialize` writes back as they were read. -/
def Canonical (e : SimpleCacheEntry) : Prop :=
  e.warnings = [] ∧ e.headerPadding = 0#32 ∧ e.eof1.flags = flagHasCrc32 ∧
  e.eof1.streamSize = 0#32 ∧ e.eof1.padding = 0#32 ∧ e.eof0.padding = 0#32 ∧
  (e.eof0.flags = flagHasCrc32 ∨ e.eof0.flags = flagHasCrc32 ||| flagHasKeySha256)

theorem toBytes_injective (f g : EntryFile) (h : f.toBytes = g.toBytes) :
    f.unverified = g.unverified := by
  have hf := f.parse_toBytes false
  rw [h, g.parse_toBytes false] at hf
  exact (Except.ok.inj hf).symm

theorem toBytes_congr (f g : EntryFile) (h : f.unverified = g.unverified) :
    f.toBytes = g.toBytes := by
  have hf := rebuilt_parsed f false
  have hg := rebuilt_parsed g false
  have hp : f.parsed false = g.parsed false := h
  rw [hp, hg] at hf
  exact (Except.ok.inj hf).symm

theorem problems_eq_nil (e : SimpleCacheEntry) (key : Bytes) : e.problems key = [] ↔
    Chromium.superFastHash key.list = e.keyHash ∧
    (e.eof1.hasCrc32 → SimpleCacheFormat.crc32 e.stream1 = e.eof1.crc32) ∧
    (e.eof0.hasCrc32 → SimpleCacheFormat.crc32 e.stream0 = e.eof0.crc32) ∧
    (∀ sha, e.keySha256 = some sha → e.eof0.hasKeySha256 → sha256 key = sha) := by
  have one (c : Prop) [Decidable c] (m : String) : (if c then [m] else []) = [] ↔ ¬c := by
    split_ifs with hc <;> simp [hc]
  rw [problems]
  simp only [List.append_eq_nil_iff, one, not_and, not_not, and_assoc]
  cases e.keySha256 with
  | none => simp
  | some sha => simp [one]

/-- The two flag words `serialize` writes; the checksum flag tells them apart. -/
theorem newFlags_eq (flags : BitVec 32) (w : Bool) (hw : (flags &&& flagHasKeySha256 != 0#32) = w) :
    flags = flagHasCrc32 ||| (if w then flagHasKeySha256 else 0#32) ↔
      flags = flagHasCrc32 ∨ flags = flagHasCrc32 ||| flagHasKeySha256 := by
  constructor
  · intro h
    cases w with
    | false => exact .inl (by simpa using h)
    | true => exact .inr h
  · rintro (rfl | rfl)
    · rw [← hw]
      decide
    · rw [← hw]
      decide

/-- `Canonical` says that the file is the one `serialize` would write. -/
theorem canonical_iff (f : EntryFile)
    (hs : (f.parsed true).writtenSize f.key f.eof0.hasKeySha256 < 2 ^ 31) :
    ((f.parsed true).file f.key f.eof0.hasKeySha256 hs).unverified = f.unverified ↔
      (f.parsed true).Canonical := by
  have hw : (f.parsed true).warnings = f.unverified.problems f.key := rfl
  rw [Canonical, hw, problems_eq_nil]
  change _ ↔ (Chromium.superFastHash f.key.list = f.keyHash ∧
    (f.eof1.hasCrc32 → SimpleCacheFormat.crc32 f.stream1 = f.eof1.crc32) ∧
    (f.eof0.hasCrc32 → SimpleCacheFormat.crc32 f.stream0 = f.eof0.crc32) ∧
    (∀ sha, f.keySha256 = some sha → f.eof0.hasKeySha256 → sha256 f.key = sha)) ∧
    f.headerPadding = 0#32 ∧ f.eof1.flags = flagHasCrc32 ∧ f.eof1.streamSize = 0#32 ∧
    f.eof1.padding = 0#32 ∧ f.eof0.padding = 0#32 ∧
    (f.eof0.flags = flagHasCrc32 ∨ f.eof0.flags = flagHasCrc32 ||| flagHasKeySha256)
  rw [← newFlags_eq f.eof0.flags f.eof0.hasKeySha256 rfl]
  constructor
  · intro h
    have he1 : (f.parsed true).newEof1 = f.eof1 := congrArg eof1 h
    have he0 : (f.parsed true).newEof0 f.eof0.hasKeySha256 = f.eof0 := congrArg eof0 h
    have hsha : newSha f.key f.eof0.hasKeySha256 = f.keySha256 := congrArg keySha256 h
    refine ⟨⟨congrArg keyHash h, fun _ => congrArg Eof.crc32 he1, fun _ => congrArg Eof.crc32 he0,
      ?_⟩, (congrArg headerPadding h).symm, (congrArg Eof.flags he1).symm,
      (congrArg Eof.streamSize he1).symm, (congrArg Eof.padding he1).symm,
      (congrArg Eof.padding he0).symm, (congrArg Eof.flags he0).symm⟩
    intro sha hs hf
    rw [hs, hf] at hsha
    exact Option.some.inj hsha
  · rintro ⟨⟨hk, hc1, hc0, hsha⟩, hp, hf1, hz1, hp1, hp0, hf0⟩
    have hb1 : f.eof1.hasCrc32 := by
      rw [Eof.hasCrc32, hf1]
      decide
    have hb0 : f.eof0.hasCrc32 := by
      rw [Eof.hasCrc32, hf0]
      cases f.eof0.hasKeySha256 <;> decide
    have hz0 : BitVec.ofNat 32 f.stream0.length = f.eof0.streamSize := by
      rw [f.stream0_length, BitVec.ofNat_toNat, BitVec.setWidth_eq]
    have he1 : (f.parsed true).newEof1 = f.eof1 :=
      Eof.ext f.eof1_magic.symm hf1.symm (hc1 hb1) hz1.symm hp1.symm
    have he0 : (f.parsed true).newEof0 f.eof0.hasKeySha256 = f.eof0 :=
      Eof.ext f.eof0_magic.symm hf0.symm (hc0 hb0) hz0 hp0.symm
    have hs : newSha f.key f.eof0.hasKeySha256 = f.keySha256 := by
      have hflag := f.sha_flag
      cases hsome : f.keySha256 with
      | none =>
        rw [hsome] at hflag
        rw [← hflag]
        rfl
      | some sha =>
        rw [hsome] at hflag
        rw [← hflag, ← hsha sha hsome hflag.symm]
        rfl
    exact SimpleCacheEntry.ext rfl rfl rfl hk hp.symm rfl rfl he1 rfl hs he0 rfl

/-- Decoding loses no byte, and encoding again gives the same file exactly on the canonical ones. -/
theorem entrySerialize_parse (d : Bytes) (e : SimpleCacheEntry) (h : parse d true = .ok e) :
    e.rebuilt = .ok d ∧ ∃ out e', e.serialize e.eof0.hasKeySha256 = .ok (out, e') ∧
      (out = d ↔ e.Canonical) := by
  obtain ⟨f, rfl, rfl⟩ := (parse_eq_ok d true e).mp h
  have hs : (f.parsed true).writtenSize f.key f.eof0.hasKeySha256 < 2 ^ 31 := by
    have hf := f.fits
    rw [f.shaBytes_length] at hf
    exact hf
  refine ⟨rebuilt_parsed f true, _, _, serialize_file _ f.key _ rfl rfl hs, ?_⟩
  rw [← canonical_iff f hs]
  exact ⟨toBytes_injective _ _, toBytes_congr _ _⟩

theorem entrySerialize_parse_small : (smallFile.parsed true).rebuilt = .ok smallFile.toBytes ∧
    ∃ out e', (smallFile.parsed true).serialize (smallFile.parsed true).eof0.hasKeySha256 =
      .ok (out, e') ∧ (out = smallFile.toBytes ↔ (smallFile.parsed true).Canonical) :=
  entrySerialize_parse smallFile.toBytes _ (smallFile.parse_toBytes true)

end SimpleCacheEntry

end SimpleCacheTool
