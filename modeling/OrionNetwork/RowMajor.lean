import Mathlib.Data.List.Basic
import Mathlib.Data.Matrix.Basic
import Mathlib.Tactic

/-!
# Matrices in one buffer

The rows of a matrix stand one after the other in a list. A row is cut out by its offset, and
overwritten at it, which leaves the other rows as they are.
-/
namespace OrionNetwork.RowMajor

variable {α : Type*} {k c : ℕ} {l new : List α} {m : ℕ → ℕ → α} {a : ℕ}

def row (c : ℕ) (l : List α) (a : ℕ) : List α := (l.drop (a * c)).take c

def setRow (c : ℕ) (l : List α) (a : ℕ) (new : List α) : List α :=
  l.take (a * c) ++ new ++ l.drop (a * c + c)

/-- The buffer has `k` rows of `c` entries, those of the matrix. -/
structure Holds (k c : ℕ) (l : List α) (m : ℕ → ℕ → α) : Prop where
  length : l.length = k * c
  entry : ∀ r < k, ∀ j < c, l[r * c + j]? = some (m r j)

/-- The entries of a list in order. -/
structure Lists (c : ℕ) (l : List α) (v : ℕ → α) : Prop where
  length : l.length = c
  entry : ∀ j < c, l[j]? = some (v j)

theorem offset_le {r : ℕ} (hra : r < a) : r * c + c ≤ a * c := by
  rw [← Nat.succ_mul]
  exact Nat.mul_le_mul_right c hra

theorem Lists.map {β : Type*} {v : ℕ → α} (h : Lists c l v) (f : α → β) :
    Lists c (l.map f) fun j => f (v j) := by
  refine ⟨by rw [List.length_map, h.length], fun j hj => ?_⟩
  rw [List.getElem?_map, h.entry j hj]
  rfl

theorem Lists.zipWith {β γ : Type*} {l' : List β} {v : ℕ → α} {v' : ℕ → β} (h : Lists c l v)
    (h' : Lists c l' v') (f : α → β → γ) :
    Lists c (List.zipWith f l l') fun j => f (v j) (v' j) := by
  refine ⟨by rw [List.length_zipWith, h.length, h'.length, min_self], fun j hj => ?_⟩
  rw [List.getElem?_zipWith, h.entry j hj, h'.entry j hj]

theorem Holds.row (h : Holds k c l m) (ha : a < k) : Lists c (row c l a) (m a) := by
  have hend := offset_le (c := c) ha
  unfold RowMajor.row
  refine ⟨?_, fun j hj => ?_⟩
  · rw [List.length_take, List.length_drop, h.length]
    omega
  · rw [List.getElem?_take_of_lt hj, List.getElem?_drop, h.entry a ha j hj]

theorem Holds.setRow (h : Holds k c l m) (ha : a < k) {v : ℕ → α} (hnew : Lists c new v) :
    Holds k c (setRow c l a new) (Function.update m a v) := by
  have hend := offset_le (c := c) ha
  have hlength := h.length
  have hfirst : (l.take (a * c)).length = a * c := by
    rw [List.length_take]
    omega
  have hsecond : (l.take (a * c) ++ new).length = a * c + c := by
    rw [List.length_append, hfirst, hnew.length]
  unfold RowMajor.setRow
  refine ⟨?_, fun r hr j hj => ?_⟩
  · rw [List.length_append, hsecond, List.length_drop]
    omega
  · rcases lt_trichotomy r a with hra | rfl | har
    · have hbefore := offset_le (c := c) hra
      rw [Function.update_of_ne hra.ne, List.getElem?_append_left (by omega),
        List.getElem?_append_left (by omega), List.getElem?_take_of_lt (by omega),
        h.entry r hr j hj]
    · rw [Function.update_self, List.getElem?_append_left (by omega),
        List.getElem?_append_right (by omega), hfirst, Nat.add_sub_cancel_left, hnew.entry j hj]
    · have hbehind := offset_le (c := c) har
      rw [Function.update_of_ne har.ne', List.getElem?_append_right (by omega), hsecond,
        List.getElem?_drop, Nat.add_sub_cancel' (by omega), h.entry r hr j hj]

end OrionNetwork.RowMajor
