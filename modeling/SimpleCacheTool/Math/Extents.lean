import SimpleCacheTool.Math.Segments

namespace Extents

open Segments

variable {α : Type*} (fill : α)

/-- The list lengthened up to `n`. -/
def padTo (l : List α) (n : Nat) : List α := l ++ List.replicate (n - l.length) fill

/-- A file's length set to `n`: cut, or lengthened. -/
def resize (l : List α) (n : Nat) : List α := (padTo fill l n).take n

/-- A write at `off`: a gap before it is filled, and writing nothing changes nothing. -/
def writeAt (l : List α) (off : Nat) (new : List α) : List α :=
  if new = [] then l else overwrite (padTo fill l off) off new

/-- A stream behind a write: what stood before it, the data, and what stood behind unless it is cut. -/
def put (l : List α) (off : Nat) (new : List α) (truncate : Bool) : List α :=
  (padTo fill l off).take off ++ new ++ if truncate then [] else l.drop (off + new.length)

/-- A stream of `size` from `start` on, rewritten in its file: what follows it goes when it grows, and
the file is set to `last` when the stream is cut or nothing is written. -/
def store (file : List α) (start size off : Nat) (new : List α) (truncate : Bool) (last : Nat) :
    List α :=
  let grown := if size < off + new.length then resize fill file (start + size) else file
  let stored := writeAt fill grown (start + off) new
  if truncate = false ∧ (new ≠ [] ∨ off + new.length ≤ size) then stored else resize fill stored last

theorem padTo_length (l : List α) (n : Nat) : (padTo fill l n).length = max l.length n := by
  rw [padTo, List.length_append, List.length_replicate]
  omega

theorem padTo_of_le (l : List α) (n : Nat) (h : n ≤ l.length) : padTo fill l n = l := by
  rw [padTo, Nat.sub_eq_zero_of_le h, List.replicate_zero, List.append_nil]

theorem padTo_append (pre l : List α) (n : Nat) :
    padTo fill (pre ++ l) (pre.length + n) = pre ++ padTo fill l n := by
  rw [padTo, List.length_append, Nat.add_sub_add_left, padTo, List.append_assoc]

theorem resize_length (l : List α) (n : Nat) : (resize fill l n).length = n := by
  rw [resize, List.length_take, padTo_length]
  omega

theorem resize_append (pre l : List α) (n : Nat) :
    resize fill (pre ++ l) (pre.length + n) = pre ++ resize fill l n := by
  rw [resize, padTo_append, List.take_length_add_append, resize]

theorem resize_front (p l : List α) (h : p <+: l) : resize fill l p.length = p := by
  rw [resize, padTo_of_le _ _ _ h.length_le, ← List.prefix_iff_eq_take.mp h]

/-- Nothing below the new length changes. -/
theorem prefix_resize (p l : List α) (n : Nat) (h : p <+: l) (hn : p.length ≤ n) :
    p <+: resize fill l n := by
  obtain ⟨post, rfl⟩ := h
  obtain ⟨m, rfl⟩ := Nat.exists_eq_add_of_le hn
  rw [resize_append]
  exact List.prefix_append _ _

theorem seg_resize (l : List α) (n a len : Nat) (hl : a + len ≤ l.length) (hn : a + len ≤ n) :
    seg (resize fill l n) a len = seg l a len := by
  rw [resize, seg, List.drop_take, List.take_take, min_eq_left (by omega)]
  change seg (l ++ List.replicate (n - l.length) fill) a len = _
  rw [seg_append_left _ _ _ _ hl]

theorem writeAt_length (l new : List α) (off : Nat) (h : new ≠ []) :
    (writeAt fill l off new).length = max l.length (off + new.length) := by
  rw [writeAt, if_neg h, overwrite, List.length_append, List.length_append, List.length_take,
    List.length_drop, padTo_length]
  omega

theorem le_writeAt_length (l new : List α) (off : Nat) :
    l.length ≤ (writeAt fill l off new).length := by
  by_cases h : new = []
  · rw [writeAt, if_pos h]
  · rw [writeAt_length fill l new off h]
    omega

theorem writeAt_append (pre l new : List α) (off : Nat) :
    writeAt fill (pre ++ l) (pre.length + off) new = pre ++ writeAt fill l off new := by
  rw [writeAt, writeAt]
  split_ifs
  · rfl
  · rw [padTo_append, overwrite, List.take_length_add_append, Nat.add_assoc, ← List.drop_drop,
      List.drop_left, overwrite, List.append_assoc]

/-- A write inside a part of the file leaves the rest. -/
theorem writeAt_inside (l post new : List α) (off : Nat) (h : off + new.length ≤ l.length) :
    writeAt fill (l ++ post) off new = writeAt fill l off new ++ post := by
  rw [writeAt, writeAt]
  split_ifs
  · rfl
  · rw [padTo_of_le _ _ _ (by rw [List.length_append]; omega), padTo_of_le _ _ _ (by omega), overwrite,
      overwrite, List.take_append_of_le_length (by omega), List.drop_append_of_le_length h,
      List.append_assoc, List.append_assoc]

theorem seg_writeAt (l new : List α) (off : Nat) :
    seg (writeAt fill l off new) off new.length = new := by
  by_cases h : new = []
  · rw [h, List.length_nil, seg_zero]
  · have ht : off = ((padTo fill l off).take off).length := by
      rw [List.length_take, padTo_length]
      omega
    rw [writeAt, if_neg h, overwrite]
    exact seg_at _ new _ off new.length ht rfl

theorem prefix_writeAt (p l new : List α) (off : Nat) (h : p <+: l) (ho : p.length ≤ off) :
    p <+: writeAt fill l off new := by
  obtain ⟨post, rfl⟩ := h
  obtain ⟨m, rfl⟩ := Nat.exists_eq_add_of_le ho
  rw [writeAt_append]
  exact List.prefix_append _ _

/-- Without a cut, data is put by writing it. -/
theorem put_eq_writeAt (l new : List α) (off : Nat) (h : new ≠ [] ∨ off ≤ l.length) :
    put fill l off new false = writeAt fill l off new := by
  rw [put, if_neg Bool.false_ne_true, writeAt]
  split_ifs with hn
  · have ho : off ≤ l.length := h.resolve_left (not_not.mpr hn)
    rw [hn, padTo_of_le _ _ _ ho, List.append_nil, List.length_nil, Nat.add_zero,
      List.take_append_drop]
  · have hd : (padTo fill l off).drop (off + new.length) = l.drop (off + new.length) := by
      by_cases ho : off ≤ l.length
      · rw [padTo_of_le _ _ _ ho]
      · rw [List.drop_eq_nil_of_le (by rw [padTo_length]; omega), List.drop_eq_nil_of_le (by omega)]
    rw [overwrite, hd, List.append_assoc]

/-- A cut, or an empty write behind the end, leaves what is written and sets the length. -/
theorem put_eq_resize (l new : List α) (off : Nat) (truncate : Bool)
    (h : truncate = true ∨ l.length < off + new.length) :
    put fill l off new truncate = resize fill (writeAt fill l off new) (off + new.length) := by
  have htail : (if truncate then [] else l.drop (off + new.length)) = [] := by
    rcases h with h | h
    · rw [if_pos h]
    · split_ifs
      · rfl
      · exact List.drop_eq_nil_of_le h.le
  have hlen : ((padTo fill l off).take off ++ new).length = off + new.length := by
    rw [List.length_append, List.length_take, padTo_length]
    omega
  rw [put, htail, List.append_nil, writeAt]
  split_ifs with hn
  · rw [hn, List.append_nil, List.length_nil, Nat.add_zero, resize]
  · rw [overwrite, ← List.append_assoc, ← hlen]
    exact (resize_front fill _ _ (List.prefix_append _ _)).symm

theorem put_length (l new : List α) (off : Nat) (truncate : Bool) :
    (put fill l off new truncate).length =
      if truncate then off + new.length else max l.length (off + new.length) := by
  rw [put, List.length_append, List.length_append, List.length_take, padTo_length]
  split_ifs
  · rw [List.length_nil]
    omega
  · rw [List.length_drop]
    omega

theorem resize_append_left (l post : List α) (n : Nat) (h : n ≤ l.length) :
    resize fill (l ++ post) n = resize fill l n := by
  rw [resize, resize, padTo_of_le _ _ _ (by rw [List.length_append]; omega), padTo_of_le _ _ _ h,
    List.take_append_of_le_length h]

theorem resize_prefix (l : List α) (m n : Nat) (h : m ≤ n) :
    resize fill l m <+: resize fill l n := by
  have hp := resize_length fill l m
  by_cases hm : m ≤ l.length
  · have ht : resize fill l m <+: l := by
      rw [resize, padTo_of_le _ _ _ hm]
      exact List.take_prefix _ _
    exact prefix_resize fill _ _ _ ht (by omega)
  · have hs : List.replicate (m - l.length) fill <+: List.replicate (n - l.length) fill := by
      rw [List.prefix_iff_eq_take, List.take_replicate, List.length_replicate]
      congr 1
      omega
    have hl (k : Nat) (hk : m ≤ k) : resize fill l k = l ++ List.replicate (k - l.length) fill := by
      rw [resize, padTo, List.take_of_length_le]
      rw [List.length_append, List.length_replicate]
      omega
    rw [hl m le_rfl, hl n h]
    exact (List.prefix_append_right_inj _).mpr hs

/-- A rewritten stream stands where it stood, whatever the file had behind it. -/
theorem store_prefix (pre s file new : List α) (off last : Nat) (truncate : Bool)
    (h : pre ++ s <+: file) (hl : pre.length + (off + new.length) ≤ last) :
    pre ++ put fill s off new truncate <+:
      store fill file pre.length s.length off new truncate last := by
  obtain ⟨post, rfl⟩ := h
  -- what is left behind the stream when the data is written
  obtain ⟨rest, hw, hrest⟩ : ∃ rest,
      writeAt fill (if s.length < off + new.length then
          resize fill (pre ++ s ++ post) (pre.length + s.length) else pre ++ s ++ post)
        (pre.length + off) new = pre ++ writeAt fill s off new ++ rest ∧
      (s.length < off + new.length → rest = []) := by
    split_ifs with he
    · have hr := resize_front fill (pre ++ s) (pre ++ s ++ post) (List.prefix_append _ _)
      rw [List.length_append] at hr
      exact ⟨[], by rw [hr, writeAt_append, List.append_nil], fun _ => rfl⟩
    · refine ⟨post, ?_, fun hlt => absurd hlt he⟩
      rw [List.append_assoc, writeAt_append, writeAt_inside fill s post new off (by omega),
        List.append_assoc]
  rw [store]
  simp only [hw]
  split_ifs with hk
  · have hp := put_eq_writeAt fill s new off (hk.2.imp_right (by omega))
    rw [hk.1, hp]
    exact List.prefix_append _ _
  · have hc : truncate = true ∨ s.length < off + new.length := by
      rcases Bool.eq_false_or_eq_true truncate with ht | hf
      · exact .inl ht
      · rw [not_and_or, not_or] at hk
        exact .inr (by rcases hk with hk | hk <;> [exact absurd hf hk; omega])
    have hcut : resize fill (pre ++ writeAt fill s off new) (pre.length + (off + new.length)) =
        resize fill (pre ++ writeAt fill s off new ++ rest) (pre.length + (off + new.length)) := by
      by_cases hlt : s.length < off + new.length
      · rw [hrest hlt, List.append_nil]
      · have hlen := le_writeAt_length fill s new off
        exact (resize_append_left _ _ _ _ (by rw [List.length_append]; omega)).symm
    rw [put_eq_resize fill s new off truncate hc, ← resize_append, hcut]
    exact resize_prefix fill _ _ _ hl

/-- A file that ends where its stream may end does so after each rewrite. -/
theorem store_length_le (pre s file new : List α) (off slack : Nat) (truncate : Bool)
    (h : pre ++ s <+: file) (hf : file.length ≤ pre.length + s.length + slack) :
    (store fill file pre.length s.length off new truncate
        (pre.length + (put fill s off new truncate).length)).length ≤
      pre.length + (put fill s off new truncate).length + slack := by
  have hge := h.length_le
  rw [List.length_append] at hge
  rw [store]
  by_cases hk : truncate = false ∧ (new ≠ [] ∨ off + new.length ≤ s.length)
  · simp only [if_pos hk]
    rw [put_length, hk.1, if_neg Bool.false_ne_true]
    by_cases hn : new = []
    · subst hn
      have h0 : ¬s.length < off + ([] : List α).length := by
        rcases hk.2 with h1 | h1
        · exact absurd rfl h1
        · omega
      rw [if_neg h0, writeAt, if_pos rfl]
      omega
    · rw [writeAt_length _ _ _ _ hn]
      split_ifs
      · rw [resize_length]
        omega
      · omega
  · simp only [if_neg hk, resize_length]
    omega

theorem writeAt_end (l new : List α) : writeAt fill l l.length new = l ++ new := by
  have h := writeAt_append fill l [] new 0
  have hp := put_eq_writeAt fill [] new 0 (.inr le_rfl)
  rw [List.append_nil, Nat.add_zero, ← hp] at h
  rw [h, put]
  simp

/-- Cut where a write ends, the file has the data at its end. -/
theorem resize_writeAt (l new : List α) (off : Nat) :
    resize fill (writeAt fill l off new) (off + new.length) = resize fill l off ++ new := by
  have hp := put_eq_resize fill l new off true (.inl rfl)
  rw [put, if_pos rfl, List.append_nil] at hp
  rw [← hp, resize]

theorem drop_writeAt (l new : List α) (off : Nat) (h : off ≤ l.length) :
    (writeAt fill l off new).drop (off + new.length) = l.drop (off + new.length) := by
  rw [← put_eq_writeAt fill l new off (.inr h), put, padTo_of_le _ _ _ h, if_neg Bool.false_ne_true]
  apply List.drop_left'
  rw [List.length_append, List.length_take, min_eq_left h]

end Extents
