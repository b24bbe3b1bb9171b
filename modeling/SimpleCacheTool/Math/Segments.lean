import Mathlib.Data.List.Basic
import Mathlib.Tactic.Ring

namespace Segments

variable {α : Type*}

/-- The `len` elements of a list from offset `off` on. -/
def seg (l : List α) (off len : Nat) : List α := (l.drop off).take len

theorem seg_length (l : List α) (off len : Nat) (h : off + len ≤ l.length) :
    (seg l off len).length = len := by
  rw [seg, List.length_take, List.length_drop]
  omega

theorem seg_length_le (l : List α) (off len : Nat) : (seg l off len).length ≤ l.length := by
  rw [seg, List.length_take, List.length_drop]
  omega

@[simp] theorem seg_zero (l : List α) (off : Nat) : seg l off 0 = [] := List.take_zero

theorem seg_full (l : List α) : seg l 0 l.length = l := by
  rw [seg, List.drop_zero, List.take_length]

theorem seg_append_right (pre l : List α) (off len : Nat) :
    seg (pre ++ l) (pre.length + off) len = seg l off len := by
  rw [seg, ← List.drop_drop, List.drop_left, seg]

theorem seg_succ (l : List α) (off n : Nat) (h : off < l.length) :
    seg l off (n + 1) = l[off] :: seg l (off + 1) n := by
  rw [seg, List.drop_eq_getElem_cons h, List.take_succ_cons, seg]

theorem seg_append_left (l post : List α) (off len : Nat) (h : off + len ≤ l.length) :
    seg (l ++ post) off len = seg l off len := by
  have ho : off ≤ l.length := by omega
  have hd : (l.drop off).length = l.length - off := List.length_drop
  rw [seg, List.drop_append_of_le_length ho, List.take_append_of_le_length (by omega), seg]

theorem seg_prefix (p l : List α) (n : Nat) (h : p.length = n) : seg (p ++ l) 0 n = p := by
  rw [← h, seg_append_left p l 0 p.length (by omega), seg_full]

theorem seg_join (l : List α) (off m n : Nat) :
    seg l off m ++ seg l (off + m) n = seg l off (m + n) := by
  rw [seg, seg, seg, ← List.drop_drop, List.take_add]

theorem seg_drop (l : List α) (off n : Nat) : seg l off n ++ l.drop (off + n) = l.drop off := by
  rw [seg, ← List.drop_drop, List.take_append_drop]

theorem seg_seg (l : List α) (off len a n : Nat) (h : a + n ≤ len) :
    seg (seg l off len) a n = seg l (off + a) n := by
  rw [seg, seg, List.drop_take, List.take_take, List.drop_drop, seg]
  congr 1
  omega

/-- A middle part is where its lengths say. -/
theorem seg_at (pre p post : List α) (off len : Nat) (ho : off = pre.length) (hl : len = p.length) :
    seg (pre ++ (p ++ post)) off len = p := by
  have h := seg_append_right pre (p ++ post) 0 p.length
  rw [Nat.add_zero] at h
  rw [ho, hl, h, seg_prefix p post p.length rfl]

/-- Where a stretch of a list is known to be a concatenation, each piece is read back whole. -/
theorem seg_piece (l : List α) (n len : Nat) (before : List (List α)) (p : List α)
    (after : List (List α)) (h : seg l n len = (before ++ p :: after).flatten) :
    seg l (n + before.flatten.length) p.length = p := by
  have hf : (before ++ p :: after).flatten = before.flatten ++ (p ++ after.flatten) := by simp
  have hle : (seg l n len).length ≤ len := by
    rw [seg, List.length_take]
    omega
  have hfit : before.flatten.length + p.length ≤ len := by
    rw [h, hf, List.length_append, List.length_append] at hle
    omega
  rw [← seg_seg l n len _ _ hfit, h, hf]
  have ha := seg_append_right before.flatten (p ++ after.flatten) 0 p.length
  rw [Nat.add_zero] at ha
  rw [ha, seg_append_left p _ 0 p.length (by omega), seg_full]

/-- Blocks of one width, end to end. -/
theorem blocks_length {β : Type*} (f : β → List α) (w : Nat) (hw : ∀ x, (f x).length = w)
    (xs : List β) : (xs.map f).flatten.length = w * xs.length := by
  induction xs with
  | nil => rfl
  | cons x xs ih =>
    rw [List.map_cons, List.flatten_cons, List.length_append, hw, ih, List.length_cons]
    ring

theorem seg_block {β : Type*} (f : β → List α) (w : Nat) (hw : ∀ x, (f x).length = w)
    (pre post : List α) (xs : List β) (i : Nat) (hi : i < xs.length) :
    seg (pre ++ ((xs.map f).flatten ++ post)) (pre.length + w * i) w = f xs[i] := by
  have hx : xs.take i ++ xs[i] :: xs.drop (i + 1) = xs := by
    rw [← List.drop_eq_getElem_cons hi, List.take_append_drop]
  have hsplit : pre ++ ((xs.map f).flatten ++ post) =
      ((pre :: (xs.take i).map f) ++ f xs[i] :: ((xs.drop (i + 1)).map f ++ [post])).flatten := by
    have hm : xs.map f = (xs.take i).map f ++ f xs[i] :: (xs.drop (i + 1)).map f := by
      rw [← List.map_cons, ← List.map_append, hx]
    rw [hm]
    simp only [List.flatten_append, List.flatten_cons, List.flatten_nil, List.cons_append,
      List.append_assoc, List.append_nil]
  have hb : (pre :: (xs.take i).map f).flatten.length = pre.length + w * i := by
    rw [List.flatten_cons, List.length_append, blocks_length f w hw, List.length_take,
      min_eq_left hi.le]
  have hs := seg_piece (pre ++ ((xs.map f).flatten ++ post)) 0 _ _ _ _
    (by rw [seg_full]; exact hsplit)
  rwa [hb, Nat.zero_add, hw] at hs

/-- A list cut from `off` on into consecutive pieces of the given widths. -/
def tiles (l : List α) : Nat → List Nat → List (List α)
  | _, [] => []
  | off, w :: ws => seg l off w :: tiles l (off + w) ws

/-- The pieces leave no gap and no overlap. -/
theorem tiles_flatten (l : List α) (off : Nat) (ws : List Nat) :
    (tiles l off ws).flatten = seg l off ws.sum := by
  induction ws generalizing off with
  | nil => simp [tiles]
  | cons w ws ih => rw [tiles, List.flatten_cons, ih, seg_join, List.sum_cons]

theorem tiles_whole (l : List α) (ws : List Nat) (h : ws.sum = l.length) :
    (tiles l 0 ws).flatten = l := by
  rw [tiles_flatten, h, seg_full]

/-- The list with the elements from `off` on replaced by `new`. -/
def overwrite (l : List α) (off : Nat) (new : List α) : List α :=
  l.take off ++ (new ++ l.drop (off + new.length))

theorem overwrite_length (l : List α) (off : Nat) (new : List α)
    (h : off + new.length ≤ l.length) : (overwrite l off new).length = l.length := by
  simp only [overwrite, List.length_append, List.length_take, List.length_drop]
  omega

theorem overwrite_mid (pre old post new : List α) (h : old.length = new.length) :
    overwrite (pre ++ (old ++ post)) pre.length new = pre ++ (new ++ post) := by
  rw [overwrite, ← h, List.take_left, ← List.drop_drop, List.drop_left, List.drop_left]

theorem overwrite_append (pre rest new : List α) :
    overwrite (pre ++ rest) pre.length new = pre ++ (new ++ rest.drop new.length) := by
  rw [overwrite, List.take_left, ← List.drop_drop, List.drop_left]

theorem seg_overwrite_front (l new : List α) (k n : Nat) :
    seg (overwrite l 0 new) (new.length + k) n = seg l (new.length + k) n := by
  rw [overwrite, List.take_zero, List.nil_append, seg_append_right, seg, seg, List.drop_drop,
    Nat.zero_add]

theorem overwrite_overwrite (l a b : List α) (off : Nat) (h : off + a.length ≤ l.length) :
    overwrite (overwrite l off a) (off + a.length) b = overwrite l off (a ++ b) := by
  have hp : (l.take off ++ a).length = off + a.length := by
    rw [List.length_append, List.length_take]
    omega
  have ha := overwrite_append (l.take off ++ a) (l.drop (off + a.length)) b
  rw [hp] at ha
  have he : overwrite l off a = l.take off ++ a ++ l.drop (off + a.length) := by
    rw [overwrite, List.append_assoc]
  rw [he, ha, overwrite, List.drop_drop, List.length_append, Nat.add_assoc]
  simp only [List.append_assoc]

theorem set_eq_overwrite (l : List α) (i : Nat) (x : α) (h : i < l.length) :
    l.set i x = overwrite l i [x] := by
  rw [List.set_eq_take_append_cons_drop, if_pos h, overwrite]
  rfl

theorem overwrite_all (old new : List α) (h : old.length = new.length) :
    overwrite old 0 new = new := by
  have hm := overwrite_mid [] old [] new h
  simpa using hm

end Segments
