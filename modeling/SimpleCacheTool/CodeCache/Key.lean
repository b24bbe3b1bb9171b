import SimpleCacheTool.CodeCache.Layout

namespace SimpleCacheTool

open Fallible Lines

namespace CodeCache

theorem separator_unbordered : Unbordered separator := by
  intro k hk hlt
  have hl : separator.length = 2 := by decide
  obtain rfl : k = 1 := by omega
  decide

/-- No separator reaches into the prefix. -/
theorem prefixed_separator (u : JString) (h : ¬separator <:+: u) : ¬separator <:+: keyPrefix ++ u := by
  rw [← exists_occurs_iff] at h ⊢
  rintro ⟨i, hi⟩
  have hp : keyPrefix = [0x5f#16, 0x6b#16, 0x65#16, 0x79#16] := by decide
  have hs : separator = [0x20#16, 0x0a#16] := by decide
  by_cases h4 : i < 4
  · rw [hp, hs] at hi
    obtain rfl | rfl | rfl | rfl : i = 0 ∨ i = 1 ∨ i = 2 ∨ i = 3 := by omega
    all_goals simp at hi
  · obtain ⟨j, rfl⟩ := Nat.exists_eq_add_of_le (Nat.not_lt.mp h4)
    exact h ⟨j, (occurs_append_right separator keyPrefix u j).mp hi⟩

theorem cacheKeyIn_eq (u : JString) (c : Option JString) :
    cacheKeyIn u c = keyPrefix ++ u ++ (separator ++ c.getD []) := List.append_assoc _ _ _

/-- A key is taken apart at its first separator. -/
theorem urlFromKey_cacheKeyIn (u : JString) (c : Option JString) (h : ¬separator <:+: u) :
    urlFromKey (some (cacheKeyIn u c)) = .ok (some u) := by
  have hleast := least_separator separator (keyPrefix ++ u) (c.getD []) separator_unbordered
    (prefixed_separator u h)
  rw [← cacheKeyIn_eq] at hleast
  have hp : keyPrefix.isPrefixOf (cacheKeyIn u c) := by
    rw [List.isPrefixOf_iff_prefix, cacheKeyIn_eq, List.append_assoc]
    exact List.prefix_append _ _
  have hi : (cacheKeyIn u c).indexOf separator 0 = some (keyPrefix ++ u).length :=
    JString.indexOf_least _ _ 0 _ (by decide) (by simpa using hleast)
  have hl : ¬(keyPrefix ++ u).length < keyPrefix.length := by
    rw [List.length_append]
    omega
  have hle : (keyPrefix ++ u).length ≤ (cacheKeyIn u c).length := by
    rw [cacheKeyIn_eq]
    exact (List.prefix_append _ _).length_le
  have hsub : (cacheKeyIn u c).substring keyPrefix.length (keyPrefix ++ u).length = .ok u := by
    rw [JString.substring, if_pos ⟨Nat.not_lt.mp hl, hle⟩, cacheKeyIn_eq, List.take_left,
      List.drop_left]
  simp only [urlFromKey, hp, if_true, hi, hl, if_false, hsub, ok_bind]

/-- A key that gives no URL gives null, and one that does is a cache key of this URL. -/
theorem urlFromKey_spec (k : JString) : urlFromKey (some k) = .ok none ∨
    ∃ u c, urlFromKey (some k) = .ok (some u) ∧ ¬separator <:+: u ∧ k = cacheKeyIn u (some c) := by
  by_cases hp : keyPrefix <+: k
  · have hp' : keyPrefix.isPrefixOf k := List.isPrefixOf_iff_prefix.mpr hp
    rcases JString.indexOf_cases k separator 0 (by decide) with ⟨i, hi, hlen, hindex⟩ | ⟨-, hindex⟩
    · have hi : IsLeast {j | separator <+: k.drop j} i := by simpa using hi
      by_cases h4 : i < keyPrefix.length
      · refine .inl ?_
        simp only [urlFromKey, hp', if_true, hindex, h4]
      · obtain ⟨hno, c, hc⟩ := split_least separator k i hi (by decide)
        have hin : keyPrefix.length ≤ i ∧ i ≤ k.length := ⟨Nat.not_lt.mp h4, by omega⟩
        have hsub : k.substring keyPrefix.length i = .ok ((k.take i).drop keyPrefix.length) :=
          if_pos hin
        have htake : k.take i = keyPrefix ++ (k.take i).drop keyPrefix.length := by
          have ht := List.prefix_iff_eq_take.mp (List.prefix_take_iff.mpr ⟨hp, hin.1⟩)
          conv_lhs => rw [← List.take_append_drop keyPrefix.length (k.take i), ← ht]
        refine .inr ⟨(k.take i).drop keyPrefix.length, c, ?_, ?_, ?_⟩
        · simp only [urlFromKey, hp', if_true, hindex, h4, if_false, hsub, ok_bind]
        · exact fun h => hno (h.trans (List.drop_suffix _ _).isInfix)
        · rw [cacheKeyIn_eq, ← htake]
          exact hc
    · refine .inl ?_
      simp only [urlFromKey, hp', if_true, hindex]
  · have hp' : ¬keyPrefix.isPrefixOf k := fun h => hp (List.isPrefixOf_iff_prefix.mp h)
    refine .inl ?_
    simp only [urlFromKey, hp']
    rfl

theorem cacheKeyIn_injective (u v : JString) (c d : Option JString) (hu : ¬separator <:+: u)
    (hv : ¬separator <:+: v) (h : cacheKeyIn u c = cacheKeyIn v d) :
    u = v ∧ c.getD [] = d.getD [] := by
  have hurl := urlFromKey_cacheKeyIn u c hu
  rw [h, urlFromKey_cacheKeyIn v d hv] at hurl
  obtain rfl := Option.some.inj (Except.ok.inj hurl)
  rw [cacheKeyIn_eq, cacheKeyIn_eq] at h
  exact ⟨rfl, List.append_cancel_left (List.append_cancel_left h)⟩

/-- A cache key starts with an underscore, which is no hex digit. -/
theorem cacheKeyIn_not_hex (u : JString) (c : Option JString) (s : JString)
    (hs : ∀ d ∈ s, (SimpleCacheFormat.hexValue d).isSome) : cacheKeyIn u c ≠ s := by
  intro h
  have hmem : 0x5f#16 ∈ s := by
    rw [← h, cacheKeyIn_eq, List.append_assoc]
    exact List.mem_append_left _ (by decide)
  exact absurd (hs _ hmem) (by decide)

theorem checksumOf_hex (data : Bytes) (uppercaseSha : Bool) :
    ∀ d ∈ checksumOf data uppercaseSha, (SimpleCacheFormat.hexValue d).isSome :=
  SimpleCacheFormat.unhex_isSome _ _ (checksumOf_unhex data uppercaseSha)

/-- A key has a URL exactly when it is a cache key of it, and no two resources share a key. -/
theorem urlFromKey_grammar :
    (∀ k u : JString, urlFromKey (some k) = .ok (some u) ↔
      ¬separator <:+: u ∧ ∃ c, k = cacheKeyIn u c) ∧
    (∀ k : JString, (¬∃ u c, ¬separator <:+: u ∧ k = cacheKeyIn u c) → urlFromKey (some k) = .ok none) ∧
    (∀ u c, ¬separator <:+: u → urlFromKey (some (cacheKeyIn u c)) = .ok (some u)) ∧
    (∀ u v c d, ¬separator <:+: u → ¬separator <:+: v → cacheKeyIn u c = cacheKeyIn v d →
      u = v ∧ c.getD [] = d.getD []) ∧
    ∀ u c data uppercaseSha, cacheKeyIn u c ≠ checksumOf data uppercaseSha := by
  refine ⟨?_, ?_, urlFromKey_cacheKeyIn, cacheKeyIn_injective, ?_⟩
  · intro k u
    constructor
    · intro h
      rcases urlFromKey_spec k with hnone | ⟨v, c, hv, hno, hk⟩
      · rw [hnone] at h
        cases h
      · rw [hv] at h
        obtain rfl := Option.some.inj (Except.ok.inj h)
        exact ⟨hno, some c, hk⟩
    · rintro ⟨hno, c, rfl⟩
      exact urlFromKey_cacheKeyIn u c hno
  · intro k h
    rcases urlFromKey_spec k with hnone | ⟨u, c, -, hno, hk⟩
    · exact hnone
    · exact absurd ⟨u, some c, hno, hk⟩ h
  · intro u c data uppercaseSha
    exact cacheKeyIn_not_hex u c _ (checksumOf_hex data uppercaseSha)

/-- A URL that ends in a space, in a context that is a separator itself. -/
theorem urlFromKey_grammar_space :
    urlFromKey (some (cacheKeyIn (JString.lit "u ") (some separator))) =
      .ok (some (JString.lit "u ")) :=
  urlFromKey_grammar.2.2.1 (JString.lit "u ") (some separator) (by decide)

end CodeCache

end SimpleCacheTool
