import SimpleCacheTool.Index.Parse

namespace SimpleCacheTool.SimpleCacheIndex

open Fallible Segments LittleEndian SimpleCacheFormat

/-- The index grammar: `n` records between the header and the last word, and nothing else. -/
structure Grammar (d : Bytes) (n : Nat) : Prop where
  payload : PayloadOk d
  magic : wordAt 64 d.list 8 = indexMagic
  version : VersionOk d
  count : (wordAt 64 d.list 20).toNat = n
  packed : ∀ i < n, (packedAt d.list (40 + 24 * i)).toNat < 2 ^ 38
  size : d.length = 48 + 24 * n

/-- A parser of this grammar: all `n` records of what conforms, a clean rejection of the rest. -/
def Exact (d : Bytes) (verifyCrc : Bool) : Prop :=
  (∀ n, Grammar d n → ∃ x, parse d verifyCrc = .ok x ∧ x.entries = recordsAt d.list 40 n) ∧
  ((∀ n, ¬Grammar d n) → ∃ msg, parse d verifyCrc = .error (.illegalArgument msg))

/-- The count is not read as negative, and a bad record inside the file or an exact fit ends the
record loop. -/
def CountBounded (d : Bytes) : Prop :=
  0 ≤ (wordAt 64 d.list 20).toInt ∧
  ((∃ i < countOf d, 40 + 24 * i + 24 ≤ d.length ∧
    2 ^ 38 ≤ (packedAt d.list (40 + 24 * i)).toNat) ∨ d.length = 48 + 24 * countOf d)

/-- A check fails before the count is used, or else the count is the one of the records there. -/
def Guarded (d : Bytes) : Prop :=
  PayloadOk d → 16 ≤ d.length ∧ (wordAt 64 d.list 8 = indexMagic →
    20 ≤ d.length ∧ (VersionOk d → 40 ≤ d.length ∧ CountBounded d))

theorem countOf_eq (d : Bytes) (h : 0 ≤ (wordAt 64 d.list 20).toInt) :
    countOf d = (wordAt 64 d.list 20).toNat := by
  have hv := (wordAt 64 d.list 20).isLt
  rw [countOf]
  rw [BitVec.toInt_eq_toNat_cond] at h ⊢
  split_ifs at h ⊢ <;> omega

theorem grammar_readable (d : Bytes) (n : Nat) (h : Grammar d n) : Readable d ∧ countOf d = n := by
  have hd := d.length_lt'
  have hs := h.size
  have hn := h.count
  have h0 : 0 ≤ (wordAt 64 d.list 20).toInt := by
    rw [BitVec.toInt_eq_toNat_cond]
    split_ifs <;> omega
  have hc : countOf d = n := (countOf_eq d h0).trans hn
  refine ⟨⟨h.payload, h.magic, h.version, by omega, ?_⟩, hc⟩
  rw [hc]
  exact h.packed

theorem parse_grammar (d : Bytes) (verifyCrc : Bool) (n : Nat) (h : Grammar d n) :
    ∃ x, parse d verifyCrc = .ok x ∧ x.entries = recordsAt d.list 40 n := by
  obtain ⟨hr, hn⟩ := grammar_readable d n h
  refine ⟨_, parse_readable d verifyCrc hr, ?_⟩
  rw [← hn]
  rfl

/-- The four ways the parser rejects a guarded file. -/
theorem parse_guarded (d : Bytes) (verifyCrc : Bool) (hg : Guarded d) (hn : ∀ n, ¬Grammar d n) :
    ∃ msg, parse d verifyCrc = .error (.illegalArgument msg) := by
  by_cases h8 : 8 ≤ d.length
  · by_cases hp : PayloadOk d
    · obtain ⟨h16, hg⟩ := hg hp
      rw [parse_payload d verifyCrc hp]
      by_cases hm : wordAt 64 d.list 8 = indexMagic
      · obtain ⟨h20, hg⟩ := hg hm
        by_cases hv : VersionOk d
        · obtain ⟨h40, hc0, hc⟩ := hg hv
          by_cases hb : ∃ i < countOf d, 40 + 24 * i + 24 ≤ d.length ∧
              2 ^ 38 ≤ (packedAt d.list (40 + 24 * i)).toNat
          · exact ⟨_, parsePayload_bad d _ h40 hm hv hb⟩
          · -- an exact fit with no bad record is the grammar
            have hfit := hc.resolve_left hb
            refine absurd ?_ (hn (countOf d))
            refine ⟨hp, hm, hv, (countOf_eq d hc0).symm, fun i hi => ?_, hfit⟩
            exact Nat.not_le.mp fun hbad => hb ⟨i, hi, by omega, hbad⟩
        · exact ⟨_, parsePayload_version d _ h20 hm hv⟩
      · exact ⟨_, parsePayload_magic d _ h16 hm⟩
    · exact ⟨_, parse_mismatch d verifyCrc h8 hp⟩
  · exact ⟨_, parse_small d verifyCrc (by omega)⟩

theorem not_countBounded (d : Bytes) (h : ¬CountBounded d) :
    (∀ i < countOf d, 40 + 24 * i + 24 ≤ d.length →
      (packedAt d.list (40 + 24 * i)).toNat < 2 ^ 38) ∧
    ∀ n, (wordAt 64 d.list 20).toNat = n → ¬d.length = 48 + 24 * n := by
  have hd := d.length_lt'
  by_cases h0 : 0 ≤ (wordAt 64 d.list 20).toInt
  · have hc := countOf_eq d h0
    rw [CountBounded, not_and_or, not_or] at h
    obtain ⟨hb, hfit⟩ := h.resolve_left (not_not.mpr h0)
    refine ⟨fun i hi hin => ?_, fun n hn hs => hfit (by omega)⟩
    exact Nat.not_le.mp fun hbad => hb ⟨i, hi, hin, hbad⟩
  · have hc : countOf d = 0 := by
      rw [countOf]
      omega
    refine ⟨fun i hi => by omega, fun n hn hs => h0 ?_⟩
    rw [BitVec.toInt_eq_toNat_cond]
    split_ifs <;> omega

/-- Off its guard the parser accepts what is not in the grammar, or runs off the end. -/
theorem parse_unguarded (d : Bytes) (verifyCrc : Bool) (hg : ¬Guarded d) :
    (∀ n, ¬Grammar d n) ∧ ¬∃ msg, parse d verifyCrc = .error (.illegalArgument msg) := by
  have out (w : List String) (h : parsePayload d w = .error .arrayIndexOutOfBounds) :
      ¬∃ msg, parsePayload d w = .error (.illegalArgument msg) := by
    rintro ⟨msg, hmsg⟩
    rw [h] at hmsg
    cases hmsg
  have not16 (h : d.length < 40) (n : Nat) : ¬Grammar d n := fun hgr => by
    have hs := hgr.size
    omega
  simp only [Guarded, not_forall, not_and_or] at hg
  obtain ⟨hp, hg⟩ := hg
  rw [parse_payload d verifyCrc hp]
  rcases hg with h16 | ⟨hm, h20 | ⟨hv, h40 | hc⟩⟩
  · exact ⟨not16 (by omega), out _ (parsePayload_short d _ (by omega) (fun h => absurd h h16)
      (fun h => absurd h (by omega)))⟩
  · exact ⟨not16 (by omega), out _ (parsePayload_short d _ (by omega) (fun _ => hm)
      (fun h => absurd h h20))⟩
  · exact ⟨not16 (by omega), out _ (parsePayload_short d _ (by omega) (fun _ => hm) (fun _ => hv))⟩
  · by_cases h40 : 40 ≤ d.length
    · obtain ⟨hb, hfit⟩ := not_countBounded d hc
      refine ⟨fun n hgr => hfit n hgr.count hgr.size, ?_⟩
      by_cases hroom : 48 + 24 * countOf d ≤ d.length
      · -- a negative count, or bytes left over: accepted all the same
        rw [parsePayload_ok d _ hroom hm hv fun i hi => hb i hi (by omega)]
        rintro ⟨msg, hmsg⟩
        cases hmsg
      · exact out _ (parsePayload_out d _ h40 hm hv (by omega) hb)
    · exact ⟨not16 (by omega), out _ (parsePayload_short d _ (by omega) (fun _ => hm) (fun _ => hv))⟩

/-- The parser is exact precisely on the guarded files. -/
theorem exact_iff (d : Bytes) (verifyCrc : Bool) : Exact d verifyCrc ↔ Guarded d := by
  constructor
  · intro he
    by_contra hg
    obtain ⟨hn, hr⟩ := parse_unguarded d verifyCrc hg
    exact hr (he.2 hn)
  · exact fun hg => ⟨parse_grammar d verifyCrc, parse_guarded d verifyCrc hg⟩

/-- One record, and a count whose top bit is set. -/
def negativeCount : Bytes :=
  ⟨[bytes 4 64#32, bytes 4 0#32, bytes 8 indexMagic, bytes 4 indexFileVersion,
    bytes 8 0x8000000000000001#64, bytes 8 256#64, bytes 4 reasonShutdown,
    bytes 8 7#64, bytes 8 0#64, bytes 8 256#64, bytes 8 0#64].flatten, by decide⟩

/-- The record is dropped, and the only warning is about the checksum. -/
theorem negativeCount_not_exact : ¬Exact negativeCount true ∧
    ∃ x, parse negativeCount true = .ok x ∧ x.entries = [] := by
  have hp : PayloadOk negativeCount := by
    constructor <;> decide
  have hm : wordAt 64 negativeCount.list 8 = indexMagic := by decide
  have hv : VersionOk negativeCount := .inr (by decide)
  have hc : countOf negativeCount = 0 := by decide
  have hg : ¬Guarded negativeCount := by
    intro hg
    have h0 := (((hg hp).2 hm).2 hv).2.1
    exact absurd h0 (by decide)
  have hr : Readable negativeCount :=
    ⟨hp, hm, hv, by rw [hc]; decide, fun i hi => by rw [hc] at hi; omega⟩
  obtain ⟨hn, hrej⟩ := parse_unguarded negativeCount true hg
  refine ⟨fun he => hrej (he.2 hn), _, parse_readable negativeCount true hr, ?_⟩
  rw [readout, hc]
  rfl

end SimpleCacheTool.SimpleCacheIndex
