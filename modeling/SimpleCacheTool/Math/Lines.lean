import Mathlib.Data.List.Basic
import Mathlib.Data.List.Infix
import Mathlib.Data.Nat.Find
import Mathlib.Order.Bounds.Basic

namespace Lines

variable {α β : Type*}

/-! Occurrences of a needle: the offsets at which it stands. -/

theorem occurs_length (n l : List α) (i : Nat) (hn : n ≠ []) (h : n <+: l.drop i) :
    i + n.length ≤ l.length := by
  have hl := h.length_le
  have h0 := List.length_pos_of_ne_nil hn
  rw [List.length_drop] at hl
  omega

theorem occurs_append_right (n p l : List α) (i : Nat) :
    n <+: (p ++ l).drop (p.length + i) ↔ n <+: l.drop i := by
  rw [← List.drop_drop, List.drop_left]

theorem occurs_append_left (n l post : List α) (i : Nat) (h : i + n.length ≤ l.length) :
    n <+: (l ++ post).drop i ↔ n <+: l.drop i := by
  rw [List.drop_append_of_le_length (by omega)]
  exact List.isPrefix_append_of_length (by rw [List.length_drop]; omega)

/-- Element by element. -/
theorem occurs_getElem (n l : List α) (i k : Nat) (hk : k < n.length) (h : n <+: l.drop i) :
    l[i + k]? = some n[k] := by
  have hg := List.prefix_iff_getElem?.mp h k hk
  rwa [List.getElem?_drop] at hg

theorem least_of_before (P : Nat → Prop) (i : Nat) (hi : P i) (hbefore : ∀ j < i, ¬P j) :
    IsLeast {j | P j} i :=
  ⟨hi, fun j hj => Nat.not_lt.mp fun hlt => hbefore j hlt hj⟩

/-- There is a first offset with a property, or none. -/
theorem least_or_none (P : Nat → Prop) : (∃ i, IsLeast {j | P j} i) ∨ ∀ j, ¬P j := by
  classical
  by_cases h : ∃ j, P j
  · exact .inl ⟨Nat.find h, Nat.find_spec h, fun j hj => Nat.find_min' h hj⟩
  · exact .inr (not_exists.mp h)

theorem exists_occurs_iff (n l : List α) : (∃ i, n <+: l.drop i) ↔ n <:+: l := by
  constructor
  · rintro ⟨i, h⟩
    exact h.isInfix.trans (List.drop_suffix i l).isInfix
  · rintro ⟨p, c, rfl⟩
    exact ⟨p.length, by simp⟩

/-- No proper end of the needle is its beginning. -/
def Unbordered (n : List α) : Prop := ∀ k, 0 < k → k < n.length → ¬n.drop k <+: n

/-- An unbordered separator is first found where it was put, whatever stands before and behind it. -/
theorem least_separator (n p c : List α) (hu : Unbordered n) (hp : ¬n <:+: p) :
    IsLeast {i | n <+: (p ++ (n ++ c)).drop i} p.length := by
  apply least_of_before
  · rw [List.drop_left]
    exact List.prefix_append n c
  · intro i hi h
    by_cases hin : i + n.length ≤ p.length
    · rw [occurs_append_left n p _ i hin] at h
      exact hp ((exists_occurs_iff n p).mp ⟨i, h⟩)
    · -- the occurrence would reach into the separator
      have hd := h.drop (p.length - i)
      rw [List.drop_drop, Nat.add_sub_cancel' hi.le, List.drop_left] at hd
      have hl : (n.drop (p.length - i)).length ≤ n.length := by
        rw [List.length_drop]
        omega
      exact hu (p.length - i) (by omega) (by omega) (List.prefix_of_prefix_length_le hd
        (List.prefix_append n c) hl)

/-- The first occurrence cuts the list before and behind it. -/
theorem split_least (n l : List α) (i : Nat) (h : IsLeast {j | n <+: l.drop j} i) (hn : n ≠ []) :
    ¬n <:+: l.take i ∧ ∃ c, l = l.take i ++ (n ++ c) := by
  obtain ⟨c, hc⟩ := h.1
  constructor
  · rw [← exists_occurs_iff]
    rintro ⟨j, hj⟩
    have hl := occurs_length n _ j hn hj
    have hpos := List.length_pos_of_ne_nil hn
    rw [List.length_take] at hl
    have hle := h.2 (show n <+: l.drop j by
      rw [← List.take_append_drop i l]
      exact (occurs_append_left n _ _ j (by rw [List.length_take]; omega)).mpr hj)
    omega
  · exact ⟨c, by rw [hc, List.take_append_drop]⟩

/-! Lists as lines between separators. -/

variable (z : α)

/-- Lines that others follow, each with its separator. -/
def before (ls : List (List α)) : List α := (ls.map (· ++ [z])).flatten

/-- Lines that follow others, each behind its separator. -/
def after (ls : List (List α)) : List α := (ls.map (z :: ·)).flatten

@[simp] theorem before_nil : before z [] = [] := rfl

@[simp] theorem before_cons (l : List α) (ls : List (List α)) :
    before z (l :: ls) = l ++ z :: before z ls := by simp [before]

@[simp] theorem after_nil : after z [] = [] := rfl

@[simp] theorem after_cons (l : List α) (ls : List (List α)) :
    after z (l :: ls) = z :: (l ++ after z ls) := by simp [after]

theorem intercalate_cons (l : List α) (ls : List (List α)) :
    [z].intercalate (l :: ls) = l ++ after z ls := by
  induction ls generalizing l with
  | nil => simp
  | cons a ls ih => rw [List.intercalate_cons_cons, ih, after_cons, List.append_assoc]; rfl

/-- A line in its place. -/
theorem intercalate_split (pre : List (List α)) (line : List α) (post : List (List α)) :
    [z].intercalate (pre ++ line :: post) = before z pre ++ (line ++ after z post) := by
  induction pre with
  | nil => exact intercalate_cons z line post
  | cons a pre ih =>
    rw [List.cons_append, List.intercalate_cons_of_ne_nil (by simp), ih, before_cons]
    simp

/-- A line starts at the offset. -/
def StartsLine (l : List α) (i : Nat) : Prop := i = 0 ∨ 0 < i ∧ l[i - 1]? = some z

theorem startsLine_of_split (pre : List (List α)) (l : List α) :
    StartsLine z (before z pre ++ l) (before z pre).length := by
  rcases List.eq_nil_or_concat pre with rfl | ⟨init, last, rfl⟩
  · exact .inl rfl
  · have hb : before z (init ++ [last]) = (before z init ++ last) ++ [z] := by simp [before]
    rw [List.concat_eq_append]
    refine .inr ⟨by simp only [hb, List.length_append, List.length_singleton]; omega, ?_⟩
    rw [hb, List.length_append, List.length_singleton, Nat.add_sub_cancel,
      List.append_assoc, List.getElem?_append_right (Nat.le_refl _), Nat.sub_self]
    rfl

/-- Where a line starts, the list divides between two lines. -/
theorem split_of_startsLine (ls : List (List α)) (hne : ls ≠ []) (hz : ∀ l ∈ ls, z ∉ l) (i : Nat)
    (h : StartsLine z ([z].intercalate ls) i) :
    ∃ pre line post, ls = pre ++ line :: post ∧ i = (before z pre).length := by
  rcases h with rfl | ⟨h0, hi⟩
  · obtain ⟨l, ls, rfl⟩ := List.exists_cons_of_ne_nil hne
    exact ⟨[], l, ls, rfl, rfl⟩
  induction ls generalizing i with
  | nil => exact absurd rfl hne
  | cons l ls ih =>
    rw [intercalate_cons] at hi
    have hl := hz l List.mem_cons_self
    by_cases hin : i - 1 < l.length
    · -- no separator inside a line
      rw [List.getElem?_append_left hin] at hi
      exact absurd (List.mem_of_getElem? hi) hl
    · rw [List.getElem?_append_right (by omega)] at hi
      obtain - | ⟨a, ls⟩ := ls
      · simp at hi
      rw [after_cons] at hi
      by_cases hlast : i - 1 = l.length
      · refine ⟨[l], a, ls, rfl, ?_⟩
        simp only [before_cons, before_nil, List.length_append, List.length_singleton]
        omega
      · obtain ⟨k, hk⟩ : ∃ k, i - 1 - l.length = k + 1 := ⟨i - 2 - l.length, by omega⟩
        rw [hk, List.getElem?_cons_succ, ← intercalate_cons] at hi
        obtain ⟨pre, line, post, hs, hp⟩ := ih (by simp) (fun x hx => hz x (List.mem_cons_of_mem _ hx))
          (k + 1) (by omega) hi
        refine ⟨l :: pre, line, post, by rw [hs, List.cons_append], ?_⟩
        simp only [before_cons, List.length_append, List.length_cons]
        omega

variable (f : α → β)

/-- A needle without a separator is found in the line it starts in, or not at all. -/
theorem occurs_line (needle : List β) (hn : f z ∉ needle) (line : List α) (post : List (List α)) :
    needle <+: (line ++ after z post).map f ↔ needle <+: line.map f := by
  constructor
  · intro h
    by_cases hl : needle.length ≤ line.length
    · rw [List.map_append] at h
      exact (List.isPrefix_append_of_length (by rwa [List.length_map])).mp h
    · obtain - | ⟨a, post⟩ := post
      · simpa using h
      · -- the needle would hold the separator behind the line
        have hg := List.prefix_iff_getElem?.mp h line.length (by omega)
        rw [after_cons, List.getElem?_map, List.getElem?_append_right (Nat.le_refl _), Nat.sub_self]
          at hg
        have hf : f z = needle[line.length] := Option.some.inj hg
        exact absurd (hf ▸ List.getElem_mem _) hn
  · intro h
    rw [List.map_append]
    exact h.trans (List.prefix_append _ _)

/-- A line starts at the offset, and the needle stands there. -/
def StandsAt (needle : List β) (l : List α) (i : Nat) : Prop :=
  StartsLine z l i ∧ needle <+: (l.drop i).map f

/-- The first place of a needle at the start of a line is the first line that starts with it. -/
theorem least_standsAt (needle : List β) (hn : f z ∉ needle) (pre : List (List α)) (line : List α)
    (post : List (List α)) (hz : ∀ l ∈ pre ++ line :: post, z ∉ l)
    (hpre : ∀ l ∈ pre, ¬needle <+: l.map f) (hline : needle <+: line.map f) :
    IsLeast {i | StandsAt z f needle ([z].intercalate (pre ++ line :: post)) i}
      (before z pre).length := by
  constructor
  · refine ⟨?_, ?_⟩
    · rw [intercalate_split]
      exact startsLine_of_split z pre _
    · rw [intercalate_split, List.drop_left]
      exact (occurs_line z f needle hn line post).mpr hline
  · rintro i ⟨hs, ho⟩
    by_contra hlt
    obtain ⟨pre', a, post', hsplit, rfl⟩ := split_of_startsLine z _ (by simp) hz i hs
    rw [hsplit, intercalate_split, List.drop_left, occurs_line z f needle hn] at ho
    -- the line of an earlier place is among those that do not start with the needle
    have hmem : a ∈ pre := by
      rcases List.append_eq_append_iff.mp hsplit with ⟨as, hp, -⟩ | ⟨as, hp, hq⟩
      · rw [hp] at hlt
        simp [before] at hlt
      · rcases as with - | ⟨b, as⟩
        · rw [List.append_nil] at hp
          rw [hp] at hlt
          omega
        · rw [List.cons_append] at hq
          rw [hp, (List.cons.inj hq).1]
          simp
    exact hpre a hmem ho

theorem no_standsAt (needle : List β) (hn : f z ∉ needle) (ls : List (List α)) (hne : ls ≠ [])
    (hz : ∀ l ∈ ls, z ∉ l) (h : ∀ l ∈ ls, ¬needle <+: l.map f) (i : Nat) :
    ¬StandsAt z f needle ([z].intercalate ls) i := by
  rintro ⟨hs, ho⟩
  obtain ⟨pre, line, post, rfl, rfl⟩ := split_of_startsLine z ls hne hz i hs
  rw [intercalate_split, List.drop_left, occurs_line z f needle hn] at ho
  exact h line (by simp) ho

/-! Rewriting the first element with a property. -/

variable {γ : Type*} (p : γ → Bool) (g : γ → γ)

def updateFirst (l : List γ) : List γ := l.replaceF fun a => if p a then some (g a) else none

theorem updateFirst_cons (a : γ) (l : List γ) :
    updateFirst p g (a :: l) = if p a then g a :: l else a :: updateFirst p g l := by
  rw [updateFirst, List.replaceF_cons]
  cases p a <;> rfl

theorem updateFirst_split (pre : List γ) (a : γ) (post : List γ) (hpre : ∀ x ∈ pre, ¬p x)
    (ha : p a) : updateFirst p g (pre ++ a :: post) = pre ++ g a :: post := by
  induction pre with
  | nil => rw [List.nil_append, updateFirst_cons, if_pos ha, List.nil_append]
  | cons x pre ih =>
    rw [List.cons_append, updateFirst_cons, if_neg (hpre x List.mem_cons_self),
      ih fun y hy => hpre y (List.mem_cons_of_mem _ hy), List.cons_append]

theorem find?_split (l : List γ) : (∀ x ∈ l, ¬p x) ∨
    ∃ pre a post, l = pre ++ a :: post ∧ (∀ x ∈ pre, ¬p x) ∧ p a ∧ l.find? p = some a := by
  cases h : l.find? p with
  | none => exact .inl (List.find?_eq_none.mp h)
  | some a =>
    obtain ⟨ha, pre, post, hl, hpre⟩ := List.find?_eq_some_iff_append.mp h
    exact .inr ⟨pre, a, post, hl, fun x hx => by simpa using hpre x hx, ha, rfl⟩

theorem updateFirst_none (l : List γ) (h : ∀ x ∈ l, ¬p x) : updateFirst p g l = l :=
  List.replaceF_of_forall_none fun a ha => if_neg (h a ha)

/-- What was written is found again. -/
theorem find?_updateFirst (l : List γ) (hg : ∀ a, p a → p (g a)) :
    (updateFirst p g l).find? p = (l.find? p).map g := by
  induction l with
  | nil => rfl
  | cons a l ih =>
    rw [updateFirst_cons]
    by_cases ha : p a
    · rw [if_pos ha, List.find?_cons_of_pos (hg a ha), List.find?_cons_of_pos ha, Option.map_some]
    · rw [if_neg ha, List.find?_cons_of_neg ha, List.find?_cons_of_neg ha, ih]

/-- What an update does not touch is found as before. -/
theorem find?_updateFirst_other (q : γ → Bool) (l : List γ) (hq : ∀ a, p a → ¬q a ∧ ¬q (g a)) :
    (updateFirst p g l).find? q = l.find? q := by
  induction l with
  | nil => rfl
  | cons a l ih =>
    rw [updateFirst_cons]
    by_cases ha : p a
    · rw [if_pos ha, List.find?_cons_of_neg (hq a ha).2, List.find?_cons_of_neg (hq a ha).1]
    · rw [if_neg ha]
      cases hqa : q a with
      | true => rw [List.find?_cons_of_pos hqa, List.find?_cons_of_pos hqa]
      | false =>
        rw [List.find?_cons_of_neg (by simp [hqa]), List.find?_cons_of_neg (by simp [hqa]), ih]

/-- The second of two updates decides. -/
theorem updateFirst_updateFirst (g' : γ → γ) (l : List γ) (hg : ∀ a, p a → p (g a))
    (hg' : ∀ a, p a → g' (g a) = g' a) : updateFirst p g' (updateFirst p g l) = updateFirst p g' l := by
  induction l with
  | nil => rfl
  | cons a l ih =>
    rw [updateFirst_cons, updateFirst_cons]
    by_cases ha : p a
    · rw [if_pos ha, if_pos ha, updateFirst_cons, if_pos (hg a ha), hg' a ha]
    · rw [if_neg ha, if_neg ha, updateFirst_cons, if_neg ha, ih]

theorem mem_updateFirst (l : List γ) (x : γ) (h : x ∈ updateFirst p g l) :
    x ∈ l ∨ ∃ a ∈ l, p a ∧ x = g a := by
  rcases find?_split p l with hn | ⟨pre, a, post, rfl, hpre, ha, -⟩
  · rw [updateFirst_none p g l hn] at h
    exact .inl h
  · rw [updateFirst_split p g pre a post hpre ha, List.mem_append, List.mem_cons] at h
    rcases h with h | rfl | h
    · exact .inl (by simp [h])
    · exact .inr ⟨a, by simp, ha, rfl⟩
    · exact .inl (by simp [h])

end Lines
