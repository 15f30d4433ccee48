import OrionNetwork.ByteMemory

/-!
# Records in flat memory

A record is a run of cells of a fixed size. A list of records is written as the
cells of one after the other, so that the record with index `i` starts `i` sizes
after the first. Reading at such a place gives back the record, and a write next
to a record does not show in it.
-/
namespace OrionNetwork.RecordFiles
open ByteMemory

variable {α : Type*} {size : ℕ}

/-- The cells of the records, in order. -/
def asBytes (block : List (Fin size → α)) : List α := block.flatMap List.ofFn

/-- The record that starts at `pos`. -/
def readAt (memory : ℕ → α) (pos : ℕ) : Fin size → α := fun j => memory (pos + j)

/-- `count` records, the first of which starts at `pos`. -/
def readAll (memory : ℕ → α) (pos count : ℕ) : List (Fin size → α) :=
  (List.range count).map fun i => readAt memory (pos + i * size)

variable {memory : ℕ → α} {pos at' i : ℕ} {block : List (Fin size → α)} {r : Fin size → α}

@[simp] theorem length_asBytes (block : List (Fin size → α)) :
    (asBytes block).length = block.length * size := by
  induction block with
  | nil => simp [asBytes]
  | cons r block ih =>
    simp only [asBytes, List.flatMap_cons, List.length_append, List.length_ofFn,
      List.length_cons] at ih ⊢
    rw [ih]
    ring

/-- Cell `j` of record `i` in the cells of all records. -/
theorem getElem?_asBytes (h : block[i]? = some r) (j : Fin size) :
    (asBytes block)[i * size + j]? = some (r j) := by
  induction block generalizing i with
  | nil => cases h
  | cons first block ih =>
    simp only [asBytes, List.flatMap_cons]
    cases i with
    | zero =>
      simp only [List.getElem?_cons_zero, Option.some.injEq] at h
      subst h
      rw [Nat.zero_mul, Nat.zero_add, List.getElem?_append_left (by simp)]
      simp
    | succ i =>
      have hpast : (List.ofFn first).length ≤ (i + 1) * size + j := by
        rw [List.length_ofFn]
        nlinarith
      rw [List.getElem?_append_right hpast, List.length_ofFn]
      have hindex : (i + 1) * size + (j : ℕ) - size = i * size + j := by
        rw [Nat.add_mul, Nat.one_mul]
        omega
      rw [hindex]
      exact ih h

theorem store_eq_some {cells : List α} {k : ℕ} {a : α} (h : cells[k]? = some a) :
    store memory pos cells (pos + k) = a := by
  obtain ⟨hk, rfl⟩ := List.getElem?_eq_some_iff.mp h
  unfold store
  rw [dif_pos ⟨by omega, by omega⟩]
  simp

/-- A record that was written is read back. -/
theorem readAt_store (h : block[i]? = some r) :
    readAt (store memory pos (asBytes block)) (pos + i * size) = r := by
  funext j
  unfold readAt
  rw [Nat.add_assoc]
  exact store_eq_some (getElem?_asBytes h j)

/-- A write does not show in the records next to it. -/
theorem readAt_store_of_disjoint
    (h : at' + size ≤ pos ∨ pos + block.length * size ≤ at') :
    readAt (store memory pos (asBytes block)) at' = (readAt memory at' : Fin size → α) := by
  funext j
  unfold readAt
  have hj := j.isLt
  apply store_outside
  rw [length_asBytes]
  omega

@[simp] theorem length_readAll (memory : ℕ → α) (pos count : ℕ) :
    (readAll memory pos count : List (Fin size → α)).length = count := by
  simp [readAll]

theorem readAll_head {count : ℕ} (h : 0 < count) :
    (readAll memory pos count : List (Fin size → α))[0]? = some (readAt memory pos) := by
  simp [readAll, h]

theorem readAll_store (memory : ℕ → α) (pos : ℕ) (block : List (Fin size → α)) :
    readAll (store memory pos (asBytes block)) pos block.length = block := by
  apply List.ext_getElem?
  intro i
  by_cases hi : i < block.length
  · have hget : block[i]? = some block[i] := List.getElem?_eq_getElem hi
    rw [hget]
    simp only [readAll, List.getElem?_map, List.getElem?_range hi, Option.map_some]
    rw [readAt_store hget]
  · rw [List.getElem?_eq_none (by simpa using hi), List.getElem?_eq_none (by simpa using hi)]

end OrionNetwork.RecordFiles
