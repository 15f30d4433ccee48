import Mathlib.Data.List.Basic
import Mathlib.Tactic

/-!
# Flat memory

Cells are numbered from zero and always hold a value. A store replaces a run of
cells; a slice reads one. Reasoning about a buffer is reasoning about slices:
a store inside a slice is seen there, and a store outside of it is not.
-/
namespace OrionNetwork.ByteMemory

variable {α : Type*}

/-- The cells from `pos` on replaced by `xs`. -/
def store (memory : ℕ → α) (pos : ℕ) (xs : List α) : ℕ → α := fun i =>
  if h : pos ≤ i ∧ i < pos + xs.length then xs.get ⟨i - pos, by omega⟩ else memory i

/-- The cells from `lo` up to `hi`, without the latter. -/
def slice (memory : ℕ → α) (lo hi : ℕ) : List α := (List.range' lo (hi - lo)).map memory

variable {memory memory' : ℕ → α} {lo mid hi pos : ℕ} {xs ys : List α}

@[simp] theorem length_slice : (slice memory lo hi).length = hi - lo := by
  simp [slice]

@[simp] theorem slice_self : slice memory lo lo = [] := by
  simp [slice]

theorem slice_eq_nil (h : hi ≤ lo) : slice memory lo hi = [] := by
  simp [slice, Nat.sub_eq_zero_of_le h]

theorem slice_append (hlo : lo ≤ mid) (hhi : mid ≤ hi) :
    slice memory lo mid ++ slice memory mid hi = slice memory lo hi := by
  have hrange : List.range' lo (mid - lo) ++ List.range' mid (hi - mid) =
      List.range' lo (hi - lo) := by
    have h := List.range'_append_1 (s := lo) (m := mid - lo) (n := hi - mid)
    rw [show lo + (mid - lo) = mid by omega, show mid - lo + (hi - mid) = hi - lo by omega] at h
    exact h
  rw [slice, slice, slice, ← List.map_append, hrange]

theorem take_slice {n : ℕ} (h : lo + n ≤ hi) :
    (slice memory lo hi).take n = slice memory lo (lo + n) := by
  have hlen : (slice memory lo (lo + n)).length = n := by simp
  rw [← slice_append (Nat.le_add_right lo n) h, List.take_left' hlen]

theorem slice_congr (h : ∀ i, lo ≤ i → i < hi → memory i = memory' i) :
    slice memory lo hi = slice memory' lo hi := by
  apply List.map_congr_left
  intro i hi'
  rw [List.mem_range'_1] at hi'
  exact h i hi'.1 (by omega)

theorem store_outside {i : ℕ} (h : i < pos ∨ pos + xs.length ≤ i) :
    store memory pos xs i = memory i := by
  unfold store
  rw [dif_neg (by omega)]

/-- A store does not show in a slice next to it. -/
theorem slice_store_of_disjoint (h : hi ≤ pos ∨ pos + xs.length ≤ lo) :
    slice (store memory pos xs) lo hi = slice memory lo hi := by
  apply slice_congr
  intro i hlo hhi
  exact store_outside (by omega)

/-- What was stored is read back. -/
theorem slice_store : slice (store memory pos xs) pos (pos + xs.length) = xs := by
  apply List.ext_getElem
  · simp
  · intro i h₁ h₂
    have hin : pos ≤ pos + i ∧ pos + i < pos + xs.length := by
      simp only [length_slice] at h₁
      omega
    simp [slice, store, hin]

/-- Storing a list is storing its parts one after the other. -/
theorem store_append :
    store memory pos (xs ++ ys) = store (store memory pos xs) (pos + xs.length) ys := by
  ext i
  by_cases hright : pos + xs.length ≤ i ∧ i < pos + xs.length + ys.length
  · have hin : pos ≤ i ∧ i < pos + (xs ++ ys).length := by
      rw [List.length_append]
      omega
    have hout : ¬ i - pos < xs.length := by omega
    simp only [store, dif_pos hin, dif_pos hright, List.get_eq_getElem]
    rw [List.getElem_append_right (by omega)]
    congr 1
    omega
  · have houter : store (store memory pos xs) (pos + xs.length) ys i = store memory pos xs i :=
      store_outside (by omega)
    rw [houter]
    by_cases hleft : pos ≤ i ∧ i < pos + xs.length
    · have hin : pos ≤ i ∧ i < pos + (xs ++ ys).length := by
        rw [List.length_append]
        omega
      simp only [store, dif_pos hin, dif_pos hleft, List.get_eq_getElem]
      rw [List.getElem_append_left (by omega)]
    · have hboth : store memory pos (xs ++ ys) i = memory i :=
        store_outside (by rw [List.length_append]; omega)
      rw [hboth, store_outside (by omega)]

@[simp] theorem store_nil : store memory pos [] = memory := by
  ext i
  exact store_outside (by rw [List.length_nil]; omega)

/-- The beginning of a run overwritten after the run was stored. -/
theorem store_patch {zs : List α} (h : xs.length = ys.length) :
    store (store memory pos (xs ++ zs)) pos ys = store memory pos (ys ++ zs) := by
  rw [store_append, store_append, ← h]
  ext i
  by_cases hin : pos ≤ i ∧ i < pos + ys.length
  · have hleft : store (store memory pos ys) (pos + xs.length) zs i = store memory pos ys i :=
      store_outside (by omega)
    rw [hleft]
    simp [store, hin]
  · have hright : store (store (store memory pos xs) (pos + xs.length) zs) pos ys i =
        store (store memory pos xs) (pos + xs.length) zs i := store_outside (by omega)
    rw [hright]
    by_cases hzs : pos + xs.length ≤ i ∧ i < pos + xs.length + zs.length
    · simp [store, hzs]
    · rw [store_outside (by omega), store_outside (by omega), store_outside (by omega),
        store_outside (by omega)]

end OrionNetwork.ByteMemory
