import SimpleCacheTool.CodeCache.Layout

namespace SimpleCacheTool

open Fallible Segments LittleEndian SimpleCacheFormat

namespace CodeCache

/-- The size in the header of stream 0. -/
def sizeOf (s0 : Bytes) : Nat := (wordAt 32 s0.list 8).toNat

theorem sizeOf_lt (s0 : Bytes) : sizeOf s0 < 2 ^ 32 := (wordAt 32 s0.list 8).isLt

/-- What follows the header. -/
def tailOf (s0 : Bytes) : Bytes := s0.sub 12 (s0.length - 12)

theorem tailOf_length (s0 : Bytes) (h : 12 ≤ s0.length) : (tailOf s0).length = s0.length - 12 :=
  s0.sub_length 12 _ (by omega)

/-- Any stream 0 that is long enough is a header and what follows it. -/
theorem header_tail (s0 : Bytes) (h : 12 ≤ s0.length) :
    s0.list = headerBytes (wordAt 64 s0.list 0) (sizeOf s0) ++ (tailOf s0).list := by
  have hl : 12 ≤ s0.list.length := h
  have htime := bytes_wordAt 64 8 s0.list 0 rfl rfl (by omega)
  have hsize := bytes_wordAt 32 4 s0.list 8 rfl rfl (by omega)
  have hjoin := seg_join s0.list 0 8 4
  have htail := seg_join s0.list 0 12 (s0.length - 12)
  rw [headerBytes, sizeOf, BitVec.ofNat_toNat, BitVec.setWidth_eq, htime, hsize]
  rw [Nat.zero_add] at hjoin htail
  rw [hjoin, tailOf, Bytes.sub_list, htail, Nat.add_sub_cancel' h]
  exact (seg_full s0.list).symm

theorem decode_long (s0 s1 : Bytes) (h : 12 ≤ s0.length) : decode (some s0) (some s1) =
    .ok (decoded (wordAt 64 s0.list 0) (sizeOf s0) (tailOf s0) s1) :=
  decode_header s0 s1 (tailOf s0) _ _ (sizeOf_lt s0) (header_tail s0 h)

/-- Without a header there is no layout with one. -/
theorem decode_short (s0 s1 : Bytes) (h : s0.length < 12) :
    ∃ d, decode (some s0) (some s1) = .ok d ∧
      (d.kind = .shaDedup ∨ d.kind = .empty ∨ d.kind = .unknown) := by
  rw [decode, Option.getD_some, Option.getD_some]
  by_cases h0 : s0.length = 0
  · rw [if_pos h0]
    by_cases h1 : s1.length > 0
    · rw [if_pos h1]
      exact ⟨_, rfl, .inl rfl⟩
    · rw [if_neg h1]
      exact ⟨_, rfl, .inr (.inl rfl)⟩
  · have hheader : s0.length < headerSize := h
    rw [if_neg h0, if_pos hheader]
    exact ⟨_, rfl, .inr (.inr rfl)⟩

/-- A build with the decoded payload and time has the two streams. -/
def Rebuilds (s0 s1 : Bytes) (d : Decoded) : Prop :=
  ∃ payload, d.payload = some payload ∧
    ∀ (url : JString) (key : Bytes) (uppercaseSha : Bool), ascii (cacheKey url) = .ok key →
      ∃ b, build url payload d.responseTimeInternal uppercaseSha = .ok b ∧
        b.primary.stream0 = s0 ∧ b.primary.stream1 = s1

/-- A result of `decode` says the layout of the streams. -/
def Documented (s0 s1 : Bytes) (d : Decoded) : Prop :=
  match d.kind with
  | .inline => 1 ≤ d.dataSize.toInt ∧ d.dataSize.toInt ≤ inlineLimit ∧
      (s0.length : Int) = 12 + d.dataSize.toInt ∧ s1.length = 0 ∧ Rebuilds s0 s1 d
  | .dedicated => inlineLimit < d.dataSize.toInt ∧ d.dataSize.toInt ≤ dedicatedLimit ∧
      s0.length = 12 ∧ (s1.length : Int) = d.dataSize.toInt ∧ Rebuilds s0 s1 d
  | .indirect => dedicatedLimit < d.dataSize.toNat ∧ s0.length = 12 + 64 ∧ s1.length = 0
  | .shaDedup | .empty | .unknown => True

/-- `decode` recognises only the documented layouts. -/
def Recognised (s0 s1 : Bytes) : Prop :=
  ∃ d, decode (some s0) (some s1) = .ok d ∧ Documented s0 s1 d

/-- The combinations of lengths and size that `decode` does not take for a layout they are not of. -/
def Unmistakable (s0 s1 : Bytes) : Prop :=
  s0.length < 12 ∨
    if 0 < s1.length then
      inlineLimit < sizeOf s0 ∧ sizeOf s0 ≤ dedicatedLimit ∧ s0.length = 12 ∧ s1.length = sizeOf s0
    else
      (s0.length = 12 + sizeOf s0 → sizeOf s0 ≤ inlineLimit) ∧
        (s0.length = 12 + 64 → sizeOf s0 = 64 ∨ dedicatedLimit < sizeOf s0)

theorem empty_of_length (b : Bytes) (h : b.length = 0) : b = .empty :=
  Bytes.ext (List.eq_nil_of_length_eq_zero h)

theorem rebuilds_inline (s0 s1 : Bytes) (d : Decoded) (h12 : 12 ≤ s0.length)
    (hsize : s0.length = 12 + sizeOf s0) (hmax : sizeOf s0 ≤ inlineLimit) (h1 : s1.length = 0)
    (htime : d.responseTimeInternal = wordAt 64 s0.list 0) (hpayload : d.payload = some (tailOf s0)) :
    Rebuilds s0 s1 d := by
  have htail := tailOf_length s0 h12
  have hlen : (tailOf s0).length = sizeOf s0 := by omega
  refine ⟨tailOf s0, hpayload, ?_⟩
  intro url key uppercaseSha hk
  obtain ⟨stream0, hb, l0⟩ := build_inline url (tailOf s0) d.responseTimeInternal uppercaseSha key hk
    (hlen ▸ hmax)
  refine ⟨_, hb, Bytes.ext ?_, (empty_of_length s1 h1).symm⟩
  change stream0.list = s0.list
  rw [l0, htime, hlen, ← header_tail s0 h12]

theorem rebuilds_dedicated (s0 s1 : Bytes) (d : Decoded) (h12 : s0.length = 12)
    (h1 : s1.length = sizeOf s0) (hmin : inlineLimit < sizeOf s0) (hmax : sizeOf s0 ≤ dedicatedLimit)
    (htime : d.responseTimeInternal = wordAt 64 s0.list 0) (hpayload : d.payload = some s1) :
    Rebuilds s0 s1 d := by
  refine ⟨s1, hpayload, ?_⟩
  intro url key uppercaseSha hk
  obtain ⟨stream0, hb, l0⟩ := build_dedicated url s1 d.responseTimeInternal uppercaseSha key hk
    (by omega) (by omega)
  have htail : (tailOf s0).list = [] := by
    apply List.eq_nil_of_length_eq_zero
    exact (tailOf_length s0 (by omega)).trans (by omega)
  have hlist := header_tail s0 (by omega)
  rw [htail, List.append_nil] at hlist
  refine ⟨_, hb, Bytes.ext ?_, rfl⟩
  change stream0.list = s0.list
  rw [l0, htime, h1, ← hlist]

theorem recognised_long (s0 s1 : Bytes) (h : 12 ≤ s0.length) : Recognised s0 s1 ↔
    Documented s0 s1 (decoded (wordAt 64 s0.list 0) (sizeOf s0) (tailOf s0) s1) := by
  rw [Recognised, decode_long s0 s1 h]
  constructor
  · rintro ⟨d, hd, hdoc⟩
    rwa [Except.ok.inj hd]
  · exact fun hdoc => ⟨_, rfl, hdoc⟩

/-- The size as `decode` reports it. -/
theorem reported_size (s0 : Bytes) : (BitVec.ofNat 32 (sizeOf s0)).toNat = sizeOf s0 ∧
    (BitVec.ofNat 32 (sizeOf s0)).toInt =
      if sizeOf s0 < 2 ^ 31 then (sizeOf s0 : Int) else (sizeOf s0 : Int) - 2 ^ 32 := by
  have hlt := sizeOf_lt s0
  have hn : (BitVec.ofNat 32 (sizeOf s0)).toNat = sizeOf s0 := by
    rw [BitVec.toNat_ofNat]
    omega
  refine ⟨hn, ?_⟩
  rw [BitVec.toInt_eq_toNat_cond, hn]
  split_ifs <;> omega

theorem documented_dedicated (s0 s1 : Bytes) (h1 : 0 < s1.length) :
    Documented s0 s1 (decoded (wordAt 64 s0.list 0) (sizeOf s0) (tailOf s0) s1) ↔
      inlineLimit < sizeOf s0 ∧ sizeOf s0 ≤ dedicatedLimit ∧ s0.length = 12 ∧
        s1.length = sizeOf s0 := by
  obtain ⟨-, hint⟩ := reported_size s0
  have hlt := sizeOf_lt s0
  have hlimit : dedicatedLimit = 16384 := rfl
  have hinline : inlineLimit = 4096 := rfl
  rw [decoded, if_pos h1]
  change ((inlineLimit : Int) < (BitVec.ofNat 32 (sizeOf s0)).toInt ∧
    (BitVec.ofNat 32 (sizeOf s0)).toInt ≤ dedicatedLimit ∧ s0.length = 12 ∧
    (s1.length : Int) = (BitVec.ofNat 32 (sizeOf s0)).toInt ∧ Rebuilds s0 s1 _) ↔ _
  constructor
  · rintro ⟨hmin, hmax, h0, hs1, -⟩
    rw [hint] at hmin hmax hs1
    split_ifs at hmin hmax hs1 <;> omega
  · rintro ⟨hmin, hmax, h0, hs1⟩
    rw [hint, if_pos (by omega)]
    exact ⟨by omega, by omega, h0, by omega, rebuilds_dedicated s0 s1 _ h0 hs1 hmin hmax rfl rfl⟩

/-- Without a stream 1 two tests can take a stream 0 for what it is not: a tail as long as the size
says, beyond the limit, and a tail as long as a checksum key. -/
theorem documented_alone (s0 s1 : Bytes) (h12 : 12 ≤ s0.length) (h1 : s1.length = 0) :
    Documented s0 s1 (decoded (wordAt 64 s0.list 0) (sizeOf s0) (tailOf s0) s1) ↔
      (s0.length = 12 + sizeOf s0 → sizeOf s0 ≤ inlineLimit) ∧
        (s0.length = 12 + 64 → sizeOf s0 = 64 ∨ dedicatedLimit < sizeOf s0) := by
  obtain ⟨hnat, hint⟩ := reported_size s0
  have hlt := s0.length_lt'
  have htail := tailOf_length s0 h12
  have hlimit : dedicatedLimit = 16384 := rfl
  have hinline : inlineLimit = 4096 := rfl
  have hsha : shaKeyLength = 64 := rfl
  rw [decoded, if_neg (by omega)]
  by_cases hin : (tailOf s0).length = sizeOf s0 ∧ 0 < sizeOf s0
  · rw [if_pos hin]
    change (1 ≤ (BitVec.ofNat 32 (sizeOf s0)).toInt ∧
      (BitVec.ofNat 32 (sizeOf s0)).toInt ≤ inlineLimit ∧
      (s0.length : Int) = 12 + (BitVec.ofNat 32 (sizeOf s0)).toInt ∧ s1.length = 0 ∧
      Rebuilds s0 s1 _) ↔ _
    rw [hint, if_pos (by omega)]
    constructor
    · rintro ⟨-, hmax, -⟩
      exact ⟨fun _ => by omega, fun _ => .inl (by omega)⟩
    · rintro ⟨hmax, -⟩
      have hle := hmax (by omega)
      exact ⟨by omega, by omega, by omega, h1,
        rebuilds_inline s0 s1 _ h12 (by omega) hle h1 rfl rfl⟩
  · rw [if_neg hin]
    by_cases h64 : (tailOf s0).length = shaKeyLength
    · rw [if_pos h64]
      change (dedicatedLimit < (BitVec.ofNat 32 (sizeOf s0)).toNat ∧ s0.length = 12 + 64 ∧
        s1.length = 0) ↔ _
      rw [hnat]
      constructor
      · rintro ⟨hmin, -⟩
        exact ⟨fun _ => by omega, fun _ => .inr hmin⟩
      · rintro ⟨-, hmin⟩
        exact ⟨by omega, by omega, h1⟩
    · rw [if_neg h64]
      have hquiet : (s0.length = 12 + sizeOf s0 → sizeOf s0 ≤ inlineLimit) ∧
          (s0.length = 12 + 64 → sizeOf s0 = 64 ∨ dedicatedLimit < sizeOf s0) := by
        omega
      rw [iff_true_right hquiet]
      split_ifs <;> exact trivial

/-- `decode` goes by the lengths: any stream 1 makes an entry dedicated, any tail of the header's size
inline, and any other tail of 64 bytes a checksum key. It recognises only the documented layouts on
exactly the other streams. -/
theorem decode_recognises_iff (s0 s1 : Bytes) : Recognised s0 s1 ↔ Unmistakable s0 s1 := by
  rw [Unmistakable]
  by_cases h12 : 12 ≤ s0.length
  · rw [recognised_long s0 s1 h12, or_iff_right (by omega)]
    by_cases h1 : 0 < s1.length
    · rw [if_pos h1, documented_dedicated s0 s1 h1]
    · rw [if_neg h1, documented_alone s0 s1 h12 (by omega)]
  · rw [iff_true_right (.inl (by omega))]
    obtain ⟨d, hd, hkind⟩ := decode_short s0 s1 (by omega)
    refine ⟨d, hd, ?_⟩
    rw [Documented]
    rcases hkind with hk | hk | hk <;> rw [hk] <;> trivial

/-- A header of size 0, and a stream 1 of one byte. -/
theorem strayByte_dedicated : decode (some ⟨List.replicate 12 0, by decide⟩)
      (some ⟨[0], by decide⟩) =
        .ok { kind := .dedicated, payload := some ⟨[0], by decide⟩ } ∧
    ¬Recognised ⟨List.replicate 12 0, by decide⟩ ⟨[0], by decide⟩ := by
  have hd : decode (some ⟨List.replicate 12 0, by decide⟩) (some ⟨[0], by decide⟩) =
      .ok { kind := .dedicated, payload := some ⟨[0], by decide⟩ } := by
    decide
  refine ⟨hd, ?_⟩
  rintro ⟨d, hd', hdoc⟩
  rw [hd] at hd'
  rw [← Except.ok.inj hd'] at hdoc
  exact absurd hdoc.1 (by decide)

end CodeCache

end SimpleCacheTool
