import Mathlib.Data.List.InsertIdx
import Mathlib.Tactic
import OrionNetwork.Collections

/-!
# Cells that may be uninitialized

An allocation is a list of cells, and a cell holds a value once it has been written. Access
outside of it, or to a value that was never written, is undefined, here `none`. A copy may
overlap itself. Lists are stored one behind the other, and what is outside of the range of an
operation stays as it is.
-/
namespace OrionNetwork.RawCells

variable {α : Type*}

def read (cells : List (Option α)) (i : ℕ) : Option α := cells[i]?.join

def write (cells : List (Option α)) (i : ℕ) (x : α) : Option (List (Option α)) :=
  if i < cells.length then some (cells.set i (some x)) else none

/-- All cells are read before the first is overwritten. -/
def moved (cells : List (Option α)) (src dst n : ℕ) : List (Option α) :=
  cells.take dst ++ (cells.drop src).take n ++ cells.drop (dst + n)

def copy (cells : List (Option α)) (src dst n : ℕ) : Option (List (Option α)) :=
  if src + n ≤ cells.length ∧ dst + n ≤ cells.length then some (moved cells src dst n) else none

def readSlice (cells : List (Option α)) (start n : ℕ) : Option (List α) :=
  if start + n ≤ cells.length then ((cells.drop start).take n).mapM id else none

def allocate (α : Type*) (n : ℕ) : List (Option α) := List.replicate n none

/-- Shorter, or with new cells at the end. -/
def reallocate (cells : List (Option α)) (n : ℕ) : List (Option α) :=
  cells.take n ++ List.replicate (n - cells.length) none

variable {cells cells' : List (Option α)} {start src dst n i : ℕ} {xs ys : List α} {x : α}

theorem length_allocate : (allocate α n).length = n := List.length_replicate

theorem length_reallocate : (reallocate cells n).length = n := by
  rw [reallocate, List.length_append, List.length_take, List.length_replicate]
  omega

theorem copy_eq (hsrc : src + n ≤ cells.length) (hdst : dst + n ≤ cells.length) :
    copy cells src dst n = some (moved cells src dst n) := if_pos ⟨hsrc, hdst⟩

theorem length_moved (hsrc : src + n ≤ cells.length) (hdst : dst + n ≤ cells.length) :
    (moved cells src dst n).length = cells.length := by
  simp only [moved, List.length_append, List.length_take, List.length_drop]
  omega

theorem getElem?_moved (hsrc : src + n ≤ cells.length) (hdst : dst + n ≤ cells.length) (j : ℕ) :
    (moved cells src dst n)[j]? =
      if dst ≤ j ∧ j < dst + n then cells[src + (j - dst)]? else cells[j]? := by
  have hfirst : (cells.take dst).length = dst := by rw [List.length_take]; omega
  have hmiddle : ((cells.drop src).take n).length = n := by
    rw [List.length_take, List.length_drop]
    omega
  have hboth : (cells.take dst ++ (cells.drop src).take n).length = dst + n := by
    rw [List.length_append, hfirst, hmiddle]
  unfold moved
  split_ifs with hj
  · rw [List.getElem?_append_left (by omega), List.getElem?_append_right (by omega), hfirst,
      List.getElem?_take_of_lt (by omega), List.getElem?_drop]
  · by_cases hlt : j < dst
    · rw [List.getElem?_append_left (by omega), List.getElem?_append_left (by omega),
        List.getElem?_take_of_lt hlt]
    · rw [List.getElem?_append_right (by omega), hboth, List.getElem?_drop]
      congr 1
      omega

/-- The values stand in a row from a cell on. -/
def Stores (cells : List (Option α)) (start : ℕ) (xs : List α) : Prop :=
  ∀ i < xs.length, cells[start + i]? = some xs[i]?

namespace Stores

theorem nil : Stores cells start [] := fun i hi => absurd hi (Nat.not_lt_zero i)

theorem append_iff : Stores cells start (xs ++ ys) ↔
    Stores cells start xs ∧ Stores cells (start + xs.length) ys := by
  constructor
  · intro h
    refine ⟨fun i hi => ?_, fun i hi => ?_⟩
    · rw [h i (by rw [List.length_append]; omega), List.getElem?_append_left hi]
    · rw [Nat.add_assoc, h (xs.length + i) (by rw [List.length_append]; omega),
        List.getElem?_append_right (Nat.le_add_right _ _), Nat.add_sub_cancel_left]
  · rintro ⟨hxs, hys⟩ i hi
    rw [List.length_append] at hi
    by_cases hlt : i < xs.length
    · rw [hxs i hlt, List.getElem?_append_left hlt]
    · have hright := hys (i - xs.length) (by omega)
      rw [Nat.add_assoc, Nat.add_sub_cancel' (by omega)] at hright
      rw [hright, List.getElem?_append_right (by omega)]

theorem singleton_iff : Stores cells start [x] ↔ cells[start]? = some (some x) := by
  constructor
  · intro h
    exact h 0 Nat.one_pos
  · intro h i hi
    rw [List.length_singleton, Nat.lt_one_iff] at hi
    rw [hi]
    exact h

theorem take (h : Stores cells start xs) (n : ℕ) : Stores cells start (xs.take n) := by
  rw [← List.take_append_drop n xs] at h
  exact (append_iff.mp h).1

theorem drop (h : Stores cells start xs) (hn : n ≤ xs.length) :
    Stores cells (start + n) (xs.drop n) := by
  rw [← List.take_append_drop n xs] at h
  have hright := (append_iff.mp h).2
  rwa [List.length_take, min_eq_left hn] at hright

/-- What is stored depends on its cells only. -/
theorem frame (h : Stores cells start xs)
    (hsame : ∀ j, start ≤ j → j < start + xs.length → cells'[j]? = cells[j]?) :
    Stores cells' start xs := by
  intro i hi
  rw [hsame _ (by omega) (by omega), h i hi]

theorem read (h : Stores cells start xs) (hi : i < xs.length) :
    RawCells.read cells (start + i) = xs[i]? := by
  rw [RawCells.read, h i hi]
  rfl

theorem readSlice (h : Stores cells start xs) (hfits : start + xs.length ≤ cells.length) :
    RawCells.readSlice cells start xs.length = some xs := by
  have hcells : (cells.drop start).take xs.length = xs.map some := by
    apply List.ext_getElem?
    intro i
    by_cases hi : i < xs.length
    · rw [List.getElem?_take_of_lt hi, List.getElem?_drop, h i hi, List.getElem?_map,
        List.getElem?_eq_getElem hi]
      rfl
    · rw [List.getElem?_eq_none (by rw [List.length_take]; omega),
        List.getElem?_eq_none (by rw [List.length_map]; omega)]
  rw [RawCells.readSlice, if_pos hfits, hcells]
  exact Collections.mapM_eq_some_iff.mpr (List.map_id _)

theorem write_same (hi : i < cells.length) : Stores (cells.set i (some x)) i [x] := by
  rw [singleton_iff, List.getElem?_set_self hi]

theorem write_other (h : Stores cells start xs) (hi : i < start ∨ start + xs.length ≤ i) :
    Stores (cells.set i (some x)) start xs :=
  h.frame fun j _ _ => List.getElem?_set_ne (by omega)

theorem moved_same (h : Stores cells src xs) (hsrc : src + xs.length ≤ cells.length)
    (hdst : dst + xs.length ≤ cells.length) : Stores (moved cells src dst xs.length) dst xs := by
  intro i hi
  rw [getElem?_moved hsrc hdst, if_pos (by omega), Nat.add_sub_cancel_left, h i hi]

theorem moved_other (h : Stores cells start xs) (hsrc : src + n ≤ cells.length)
    (hdst : dst + n ≤ cells.length) (hout : start + xs.length ≤ dst ∨ dst + n ≤ start) :
    Stores (moved cells src dst n) start xs := by
  refine h.frame fun j _ _ => ?_
  rw [getElem?_moved hsrc hdst, if_neg (by omega)]

theorem reallocate (h : Stores cells start xs) (hfits : start + xs.length ≤ n) :
    Stores (reallocate cells n) start xs := by
  intro i hi
  have hcell := h i hi
  rw [List.getElem?_eq_getElem hi] at hcell
  have hlt := (List.getElem?_eq_some_iff.mp hcell).1
  unfold RawCells.reallocate
  rw [List.getElem?_append_left (by rw [List.length_take]; omega),
    List.getElem?_take_of_lt (by omega), h i hi]

section Shifting

variable {index : ℕ}

/-- A gap is opened by moving what follows up by one cell. -/
theorem shift_up (h : Stores cells start xs) (hi : index ≤ xs.length)
    (hroom : start + xs.length < cells.length) :
    Stores (moved cells (start + index) (start + index + 1) (xs.length - index)) start
        (xs.take index) ∧
      Stores (moved cells (start + index) (start + index + 1) (xs.length - index))
        (start + index + 1) (xs.drop index) := by
  have hlength : (xs.drop index).length = xs.length - index := List.length_drop
  refine ⟨(h.take index).moved_other (by omega) (by omega) (.inl ?_), ?_⟩
  · rw [List.length_take]
    omega
  · rw [← hlength]
    exact (h.drop hi).moved_same (by omega) (by omega)

theorem insertIdx_eq (hi : index ≤ xs.length) (x : α) :
    xs.insertIdx index x = xs.take index ++ ([x] ++ xs.drop index) := by
  induction xs generalizing index with
  | nil =>
    rw [Nat.le_zero.mp hi]
    rfl
  | cons y xs ih =>
    cases index with
    | zero => rfl
    | succ index =>
      rw [List.insertIdx_succ_cons, ih (Nat.le_of_succ_le_succ hi)]
      rfl

/-- The gap is filled. -/
theorem fill (hleft : Stores cells start (xs.take index))
    (hright : Stores cells (start + index + 1) (xs.drop index)) (hi : index ≤ xs.length)
    (hroom : start + index < cells.length) :
    Stores (cells.set (start + index) (some x)) start (xs.insertIdx index x) := by
  have hlength : (xs.take index).length = index := by
    rw [List.length_take]
    omega
  rw [insertIdx_eq hi, append_iff, append_iff, hlength]
  exact ⟨hleft.write_other (.inr (by omega)), write_same hroom,
    hright.write_other (.inl (Nat.lt_succ_self _))⟩

/-- What follows is moved down over the value. -/
theorem shift_down (h : Stores cells start xs) (hi : index < xs.length)
    (hfits : start + xs.length ≤ cells.length) :
    Stores (moved cells (start + index + 1) (start + index) (xs.length - index - 1)) start
      (xs.eraseIdx index) := by
  have hlength : (xs.take index).length = index := by
    rw [List.length_take]
    omega
  have hrest : (xs.drop (index + 1)).length = xs.length - index - 1 := by
    rw [List.length_drop]
    omega
  rw [List.eraseIdx_eq_take_drop_succ, append_iff, hlength]
  refine ⟨(h.take index).moved_other (by omega) (by omega) (.inl ?_), ?_⟩
  · rw [hlength]
  · rw [← hrest]
    exact (h.drop (Nat.succ_le_of_lt hi)).moved_same (by rw [hrest]; omega) (by rw [hrest]; omega)

end Shifting

section Rows

variable {a b index : ℕ}

/-- Two lists in one allocation, changed at the same index. -/
theorem insert_rows (hxs : Stores cells a xs) (hys : Stores cells b ys)
    (hlength : xs.length = ys.length) (hi : index ≤ xs.length) (hab : a + xs.length + 1 ≤ b)
    (hb : b + ys.length + 1 ≤ cells.length) (x y : α) :
    ∃ c₁ c₂ c₃ c₄, copy cells (a + index) (a + index + 1) (xs.length - index) = some c₁ ∧
      copy c₁ (b + index) (b + index + 1) (xs.length - index) = some c₂ ∧
      write c₂ (a + index) x = some c₃ ∧ write c₃ (b + index) y = some c₄ ∧
      c₄.length = cells.length ∧ Stores c₄ a (xs.insertIdx index x) ∧
      Stores c₄ b (ys.insertIdx index y) := by
  have htake : (xs.take index).length = index := by rw [List.length_take]; omega
  have hdrop : (xs.drop index).length = xs.length - index := List.length_drop
  -- the gap of the first list
  obtain ⟨c₁, hc₁⟩ : ∃ c, c = moved cells (a + index) (a + index + 1) (xs.length - index) :=
    ⟨_, rfl⟩
  have hlen₁ : c₁.length = cells.length := hc₁ ▸ length_moved (by omega) (by omega)
  obtain ⟨hlow, hhigh⟩ := hxs.shift_up hi (by omega)
  have hys₁ : Stores c₁ b ys := hc₁ ▸ hys.moved_other (by omega) (by omega) (.inr (by omega))
  rw [← hc₁] at hlow hhigh
  -- the gap of the second list
  obtain ⟨c₂, hc₂⟩ : ∃ c, c = moved c₁ (b + index) (b + index + 1) (xs.length - index) :=
    ⟨_, rfl⟩
  have hlen₂ : c₂.length = c₁.length := hc₂ ▸ length_moved (by omega) (by omega)
  have hlow₂ : Stores c₂ a (xs.take index) :=
    hc₂ ▸ hlow.moved_other (by omega) (by omega) (.inl (by omega))
  have hhigh₂ : Stores c₂ (a + index + 1) (xs.drop index) :=
    hc₂ ▸ hhigh.moved_other (by omega) (by omega) (.inl (by omega))
  obtain ⟨hlow', hhigh'⟩ := hys₁.shift_up (show index ≤ ys.length by omega) (by omega)
  rw [← hlength, ← hc₂] at hlow' hhigh'
  have htake' : (ys.take index).length = index := by rw [List.length_take]; omega
  refine ⟨c₁, c₂, c₂.set (a + index) (some x),
    (c₂.set (a + index) (some x)).set (b + index) (some y), hc₁ ▸ copy_eq (by omega) (by omega),
    hc₂ ▸ copy_eq (by omega) (by omega), if_pos (by omega),
    if_pos (by rw [List.length_set]; omega), ?_, ?_, ?_⟩
  · rw [List.length_set, List.length_set, hlen₂, hlen₁]
  · refine (hlow₂.fill hhigh₂ hi (by omega)).write_other (.inr ?_)
    rw [List.length_insertIdx_of_le_length hi]
    omega
  · exact (hlow'.write_other (.inl (by omega))).fill (hhigh'.write_other (.inl (by omega)))
      (by omega) (by rw [List.length_set]; omega)

theorem erase_rows (hxs : Stores cells a xs) (hys : Stores cells b ys)
    (hlength : xs.length = ys.length) (hi : index < xs.length) (hab : a + xs.length ≤ b)
    (hb : b + ys.length ≤ cells.length) :
    ∃ c₁ c₂, copy cells (a + index + 1) (a + index) (xs.length - index - 1) = some c₁ ∧
      copy c₁ (b + index + 1) (b + index) (xs.length - index - 1) = some c₂ ∧
      c₂.length = cells.length ∧ Stores c₂ a (xs.eraseIdx index) ∧
      Stores c₂ b (ys.eraseIdx index) := by
  have herased : (xs.eraseIdx index).length = xs.length - 1 := List.length_eraseIdx_of_lt hi
  obtain ⟨c₁, hc₁⟩ : ∃ c, c = moved cells (a + index + 1) (a + index) (xs.length - index - 1) :=
    ⟨_, rfl⟩
  have hlen₁ : c₁.length = cells.length := hc₁ ▸ length_moved (by omega) (by omega)
  have hxs₁ : Stores c₁ a (xs.eraseIdx index) := hc₁ ▸ hxs.shift_down hi (by omega)
  have hys₁ : Stores c₁ b ys := hc₁ ▸ hys.moved_other (by omega) (by omega) (.inr (by omega))
  obtain ⟨c₂, hc₂⟩ : ∃ c, c = moved c₁ (b + index + 1) (b + index) (xs.length - index - 1) :=
    ⟨_, rfl⟩
  have hys₂ := hys₁.shift_down (show index < ys.length by omega) (by omega)
  rw [← hlength, ← hc₂] at hys₂
  refine ⟨c₁, c₂, hc₁ ▸ copy_eq (by omega) (by omega), hc₂ ▸ copy_eq (by omega) (by omega), ?_,
    hc₂ ▸ hxs₁.moved_other (by omega) (by omega) (.inl (by omega)), hys₂⟩
  rw [hc₂, length_moved (by omega) (by omega), hlen₁]

end Rows

end Stores

end OrionNetwork.RawCells
