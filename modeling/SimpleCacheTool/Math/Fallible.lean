import Mathlib.Data.List.Basic

namespace Fallible

variable {ε α β σ : Type}

@[simp] theorem ok_bind (a : α) (f : α → Except ε β) : (Except.ok a >>= f) = f a := rfl

@[simp] theorem error_bind (e : ε) (f : α → Except ε β) :
    ((Except.error e : Except ε α) >>= f) = Except.error e := rfl

/-- A guard that fails when the condition holds. -/
def throwIf (c : Prop) [Decidable c] (e : ε) : Except ε Unit :=
  if c then .error e else .ok ()

theorem throwIf_of (c : Prop) [Decidable c] (e : ε) (h : c) :
    throwIf c e = .error e := if_pos h

theorem throwIf_of_not (c : Prop) [Decidable c] (e : ε) (h : ¬c) :
    throwIf c e = .ok () := if_neg h

theorem throwIf_eq_ok (c : Prop) [Decidable c] (e : ε) (u : Unit) :
    throwIf c e = .ok u ↔ ¬c := by
  unfold throwIf
  split_ifs with h <;> simp [h]

/-- A guard whose condition does not hold is passed. -/
theorem throwIf_bind_of_not (c : Prop) [Decidable c] (e : ε) (f : Unit → Except ε α) (h : ¬c) :
    (throwIf c e >>= f) = f () := by
  rw [throwIf_of_not c e h, ok_bind]

theorem throwIf_bind_of (c : Prop) [Decidable c] (e : ε) (f : Unit → Except ε α) (h : c) :
    (throwIf c e >>= f) = .error e := by
  rw [throwIf_of c e h, error_bind]

/-- A guard before a computation fails by itself or lets the computation fail. -/
theorem throwIf_bind_eq_error (c : Prop) [Decidable c] (e x : ε) (f : Unit → Except ε α) :
    (throwIf c e >>= f) = .error x ↔ (c ∧ e = x) ∨ (¬c ∧ f () = .error x) := by
  unfold throwIf
  split_ifs with h <;> simp [h]

/-- A sequence returns exactly when its first part does and the rest does on what it returned. -/
theorem bind_eq_ok (x : Except ε α) (f : α → Except ε β) (b : β) :
    (x >>= f) = Except.ok b ↔ ∃ a, x = Except.ok a ∧ f a = Except.ok b := by
  cases x with
  | error e => simp
  | ok a => simp

/-- The first failing part decides the error. -/
theorem bind_eq_error (x : Except ε α) (f : α → Except ε β) (e : ε) :
    (x >>= f) = Except.error e ↔
      x = Except.error e ∨ ∃ a, x = Except.ok a ∧ f a = Except.error e := by
  cases x with
  | error e' => simp
  | ok a => simp

/-- Steps applied one after another; the first failure ends the run. -/
def run (step : σ → α → Except ε σ) : σ → List α → Except ε σ
  | s, [] => .ok s
  | s, a :: as => step s a >>= fun s' => run step s' as

/-- A run whose every step is enabled under an invariant the steps keep does not fail. -/
theorem run_total (step : σ → α → Except ε σ) (P : List α → σ → Prop) (as : List α)
    (hstep : ∀ pre a post s, as = pre ++ a :: post → P pre s →
      ∃ s', step s a = .ok s' ∧ P (pre ++ [a]) s')
    (s : σ) (h0 : P [] s) : ∃ s', run step s as = .ok s' ∧ P as s' := by
  suffices h : ∀ post pre s, as = pre ++ post → P pre s →
      ∃ s', run step s post = .ok s' ∧ P as s' from h as [] s rfl h0
  intro post
  induction post with
  | nil =>
    intro pre s has hp
    rw [List.append_nil] at has
    exact ⟨s, rfl, has ▸ hp⟩
  | cons a post ih =>
    intro pre s has hp
    obtain ⟨t, ht, h1⟩ := hstep pre a post s has hp
    obtain ⟨s', hr, hs⟩ := ih (pre ++ [a]) t (by simp [has]) h1
    refine ⟨s', ?_, hs⟩
    rw [run, ht, ok_bind, hr]

end Fallible
