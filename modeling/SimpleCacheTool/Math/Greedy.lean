import Mathlib.Algebra.GroupWithZero.Nat
import Mathlib.Data.List.Basic

namespace SimpleCacheTool.Greedy

variable {α : Type*} (size : α → Nat)

/-- Elements from the front until their sizes come to an amount. -/
def takeUntil : Nat → List α → List α
  | _, [] => []
  | 0, _ => []
  | amount + 1, a :: l => a :: takeUntil (amount + 1 - size a) l

theorem takeUntil_zero (l : List α) : takeUntil size 0 l = [] := by
  cases l <;> rfl

theorem takeUntil_cons (amount : Nat) (a : α) (l : List α) (h : amount ≠ 0) :
    takeUntil size amount (a :: l) = a :: takeUntil size (amount - size a) l := by
  obtain ⟨n, rfl⟩ := Nat.exists_eq_succ_of_ne_zero h
  rfl

theorem takeUntil_prefix (amount : Nat) (l : List α) : takeUntil size amount l <+: l := by
  induction l generalizing amount with
  | nil => simp [takeUntil]
  | cons a l ih =>
    by_cases h : amount = 0
    · rw [h, takeUntil_zero]
      exact List.nil_prefix
    · rw [takeUntil_cons size amount a l h]
      exact List.prefix_cons_inj a |>.mpr (ih _)

/-- An amount that the list has is reached. -/
theorem takeUntil_enough (amount : Nat) (l : List α) (h : amount ≤ (l.map size).sum) :
    amount ≤ ((takeUntil size amount l).map size).sum := by
  induction l generalizing amount with
  | nil => simpa [takeUntil] using h
  | cons a l ih =>
    by_cases h0 : amount = 0
    · rw [h0]
      exact Nat.zero_le _
    · rw [List.map_cons, List.sum_cons] at h
      have hrest := ih (amount - size a) (by omega)
      rw [takeUntil_cons size amount a l h0, List.map_cons, List.sum_cons]
      omega

/-- Without the last element taken the amount is not reached. -/
theorem takeUntil_minimal (amount : Nat) (l before : List α) (last : α)
    (h : takeUntil size amount l = before ++ [last]) : (before.map size).sum < amount := by
  induction l generalizing amount before with
  | nil => simp [takeUntil] at h
  | cons a l ih =>
    by_cases h0 : amount = 0
    · rw [h0, takeUntil_zero] at h
      simp at h
    · rw [takeUntil_cons size amount a l h0] at h
      cases before with
      | nil =>
        rw [List.map_nil, List.sum_nil]
        exact Nat.pos_of_ne_zero h0
      | cons b before =>
        rw [List.cons_append, List.cons.injEq] at h
        have hrest := ih _ before h.2
        rw [List.map_cons, List.sum_cons, ← h.1]
        omega

end SimpleCacheTool.Greedy
