import Mathlib.Data.List.Nodup
import Mathlib.Data.List.Induction

namespace KeyedList

variable {α κ : Type*} [DecidableEq κ] (key : α → κ)

/-- A list as a finite map: the element replaces the first one with its key, or goes to the end. -/
def upsert (a : α) : List α → List α
  | [] => [a]
  | b :: bs => if key b = key a then a :: bs else b :: upsert a bs

def upserts (l : List α) (as : List α) : List α := as.foldl (fun l a => upsert key a l) l

theorem upsert_of_not_mem (a : α) (l : List α) (h : key a ∉ l.map key) :
    upsert key a l = l ++ [a] := by
  induction l with
  | nil => rfl
  | cons b bs ih =>
    rw [List.map_cons, List.mem_cons, not_or] at h
    rw [upsert, if_neg (fun hb => h.1 hb.symm), ih h.2, List.cons_append]

/-- A known key keeps its place, a new one comes last. -/
theorem upsert_keys (a : α) (l : List α) : (upsert key a l).map key =
    if key a ∈ l.map key then l.map key else l.map key ++ [key a] := by
  induction l with
  | nil => rfl
  | cons b bs ih =>
    rw [upsert]
    by_cases hb : key b = key a
    · simp [hb]
    · have hne : key a ≠ key b := fun h => hb h.symm
      rw [if_neg hb, List.map_cons, ih]
      simp only [List.map_cons, List.mem_cons, hne, false_or]
      split_ifs <;> rfl

theorem upsert_nodup (a : α) (l : List α) (h : (l.map key).Nodup) :
    ((upsert key a l).map key).Nodup := by
  rw [upsert_keys]
  split_ifs with hm
  · exact h
  · exact List.Nodup.append h (List.nodup_singleton _) (by simpa using hm)

theorem mem_of_mem_upsert (a x : α) (l : List α) (h : x ∈ upsert key a l) : x = a ∨ x ∈ l := by
  induction l with
  | nil => exact .inl (List.mem_singleton.mp h)
  | cons b bs ih =>
    rw [upsert] at h
    split_ifs at h
    · rcases List.mem_cons.mp h with rfl | hx
      · exact .inl rfl
      · exact .inr (List.mem_cons_of_mem _ hx)
    · rcases List.mem_cons.mp h with rfl | hx
      · exact .inr List.mem_cons_self
      · exact (ih hx).imp_right (List.mem_cons_of_mem _)

/-- With one element a key, an upsert is the new element and the others. -/
theorem mem_upsert (a x : α) (l : List α) (h : (l.map key).Nodup) :
    x ∈ upsert key a l ↔ x = a ∨ (x ∈ l ∧ key x ≠ key a) := by
  induction l with
  | nil => simp [upsert]
  | cons b bs ih =>
    rw [List.map_cons, List.nodup_cons] at h
    rw [upsert]
    split_ifs with hb
    · rw [List.mem_cons, List.mem_cons]
      constructor
      · rintro (rfl | hx)
        · exact .inl rfl
        · refine .inr ⟨.inr hx, fun hk => h.1 ?_⟩
          rw [hb, ← hk]
          exact List.mem_map_of_mem hx
      · rintro (rfl | ⟨rfl | hx, hk⟩)
        · exact .inl rfl
        · exact absurd hb hk
        · exact .inr hx
    · rw [List.mem_cons, List.mem_cons, ih h.2]
      constructor
      · rintro (rfl | rfl | ⟨hx, hk⟩)
        · exact .inr ⟨.inl rfl, hb⟩
        · exact .inl rfl
        · exact .inr ⟨.inr hx, hk⟩
      · rintro (rfl | ⟨rfl | hx, hk⟩)
        · exact .inr (.inl rfl)
        · exact .inl rfl
        · exact .inr (.inr ⟨hx, hk⟩)

/-- Writing a known key changes its element alone. -/
theorem upsert_eq_map (a : α) (l : List α) (h : (l.map key).Nodup) (hm : key a ∈ l.map key) :
    upsert key a l = l.map fun b => if key b = key a then a else b := by
  induction l with
  | nil => simp at hm
  | cons b bs ih =>
    rw [List.map_cons, List.nodup_cons] at h
    rw [upsert, List.map_cons]
    split_ifs with hb
    · -- no later element has the key
      have hrest : bs.map (fun b => if key b = key a then a else b) = bs := by
        conv_rhs => rw [← List.map_id bs]
        apply List.map_congr_left
        intro x hx
        have hne : key x ≠ key a := fun hk => h.1 (by
          rw [hb, ← hk]
          exact List.mem_map_of_mem hx)
        rw [if_neg hne, id]
      rw [hrest]
    · rw [List.map_cons, List.mem_cons] at hm
      rw [ih h.2 (hm.resolve_left fun hk => hb hk.symm)]

theorem upsert_length_le (a : α) (l : List α) : l.length ≤ (upsert key a l).length := by
  have h := congrArg List.length (upsert_keys key a l)
  rw [List.length_map] at h
  rw [h]
  split_ifs <;> simp

theorem upserts_nodup (l as : List α) (h : (l.map key).Nodup) :
    ((upserts key l as).map key).Nodup := by
  induction as generalizing l with
  | nil => exact h
  | cons a as ih => exact ih _ (upsert_nodup key a l h)

theorem upserts_append (l as bs : List α) :
    upserts key l (as ++ bs) = upserts key (upserts key l as) bs := List.foldl_append

theorem upserts_length_le (l as : List α) : l.length ≤ (upserts key l as).length := by
  induction as generalizing l with
  | nil => exact Nat.le_refl _
  | cons a as ih => exact Nat.le_trans (upsert_length_le key a l) (ih _)

/-- The known keys, then the others in the order of first use. -/
def firstUse (known used : List κ) : List κ :=
  known ++ (used.filter fun k => k ∉ known).eraseDups

theorem upserts_keys (l as : List α) :
    (upserts key l as).map key = firstUse (l.map key) (as.map key) := by
  rw [firstUse]
  induction as generalizing l with
  | nil => simp [upserts]
  | cons a as ih =>
    have hs : upserts key l (a :: as) = upserts key (upsert key a l) as := rfl
    rw [hs, ih, upsert_keys, List.map_cons]
    by_cases hm : key a ∈ l.map key
    · rw [if_pos hm, List.filter_cons_of_neg (by simpa using hm)]
    · rw [if_neg hm, List.filter_cons_of_pos (by simpa using hm), List.eraseDups_cons,
        List.append_assoc, List.singleton_append, List.filter_filter]
      have hf : (as.map key).filter (fun k => k ∉ l.map key ++ [key a]) =
          (as.map key).filter (fun k => (!k == key a) && decide (k ∉ l.map key)) := by
        apply List.filter_congr
        intro k _
        rw [Bool.eq_iff_iff]
        simp only [decide_eq_true_eq, List.mem_append, List.mem_singleton, not_or, Bool.and_eq_true,
          Bool.not_eq_true', beq_eq_false_iff_ne, ne_eq]
        exact and_comm
      rw [hf]

/-- The last element with a key wins; a key not written keeps its element. -/
theorem mem_upserts (l as : List α) (h : (l.map key).Nodup) (x : α) :
    x ∈ upserts key l as ↔ as.reverse.find? (fun a => key a = key x) = some x ∨
      (x ∈ l ∧ key x ∉ as.map key) := by
  induction as using List.reverseRecOn with
  | nil => simp [upserts]
  | append_singleton as a ih =>
    have hs : upserts key l (as ++ [a]) = upsert key a (upserts key l as) := by
      rw [upserts_append]
      rfl
    rw [hs, mem_upsert key a x _ (upserts_nodup key l as h), ih, List.reverse_append]
    by_cases hk : key a = key x
    · simp [hk, eq_comm]
    · have hk' : key x ≠ key a := fun h => hk h.symm
      simp only [List.reverse_singleton, List.singleton_append, List.find?_cons, hk, decide_false,
        List.map_append, List.map_singleton, List.mem_append, List.mem_singleton, hk', or_false]
      constructor
      · rintro (rfl | ⟨h, -⟩)
        · exact absurd rfl hk
        · exact h
      · exact fun h => .inr ⟨h, hk'⟩

end KeyedList
