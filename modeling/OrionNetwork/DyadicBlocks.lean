import Mathlib.Algebra.Ring.Parity
import Mathlib.Data.Nat.Log
import Mathlib.Tactic

/-!
# Dyadic blocks

A block of level `b` is a range of `2 ^ b` positions that starts at a multiple
of its size. The blocks around a position grow with the level, to the right or
to the left as the bits of the position say. A full binary tree over the
positions is stored in order: position `i` at index `2 * i`, and the node of a
block in the middle of what is below it.
-/
namespace OrionNetwork.DyadicBlocks

variable {k b c s t : ℕ}

/-- Where the block of level `b` around `k` starts. -/
def start (k b : ℕ) : ℕ := k / 2 ^ b * 2 ^ b

/-- The index of the node of a block. -/
def center (b s : ℕ) : ℕ := 2 * s + 2 ^ b - 1

@[simp] theorem start_zero (k : ℕ) : start k 0 = k := by simp [start]

@[simp] theorem center_zero (s : ℕ) : center 0 s = 2 * s := by simp [center]

theorem dvd_start (k b : ℕ) : 2 ^ b ∣ start k b := Nat.dvd_mul_left _ _

theorem start_le (k b : ℕ) : start k b ≤ k := Nat.div_mul_le_self k (2 ^ b)

theorem lt_start_add (k b : ℕ) : k < start k b + 2 ^ b := by
  have hdiv := Nat.div_add_mod k (2 ^ b)
  have hmod := Nat.mod_lt k (Nat.two_pow_pos b)
  rw [start, Nat.mul_comm]
  omega

theorem start_unique (hdvd : 2 ^ b ∣ s) (hle : s ≤ k) (hlt : k < s + 2 ^ b) : s = start k b := by
  obtain ⟨q, rfl⟩ := hdvd
  have hq : k / 2 ^ b = q := by
    rw [Nat.div_eq_iff (Nat.two_pow_pos b), Nat.mul_comm q]
    omega
  rw [start, hq, Nat.mul_comm]

theorem le_start (hdvd : 2 ^ b ∣ s) (hle : s ≤ k) : s ≤ start k b := by
  obtain ⟨q, rfl⟩ := hdvd
  have hq : q ≤ k / 2 ^ b := by
    rw [Nat.le_div_iff_mul_le (Nat.two_pow_pos b), Nat.mul_comm]
    exact hle
  rw [start, Nat.mul_comm]
  exact Nat.mul_le_mul_right _ hq

/-- Blocks of one level do not overlap. -/
theorem add_le_of_lt (hs : 2 ^ b ∣ s) (ht : 2 ^ b ∣ t) (hlt : s < t) : s + 2 ^ b ≤ t := by
  obtain ⟨q, rfl⟩ := hs
  obtain ⟨r, rfl⟩ := ht
  have hqr : q + 1 ≤ r := Nat.lt_of_mul_lt_mul_left hlt
  calc 2 ^ b * q + 2 ^ b = 2 ^ b * (q + 1) := by ring
    _ ≤ 2 ^ b * r := Nat.mul_le_mul_left _ hqr

theorem start_eq_zero (h : k < 2 ^ b) : start k b = 0 := by
  rw [start, Nat.div_eq_of_lt h, Nat.zero_mul]

theorem div_eq_of_start_eq {i : ℕ} (h : start i b = start k b) : i / 2 ^ b = k / 2 ^ b :=
  Nat.eq_of_mul_eq_mul_right (Nat.two_pow_pos b) h

theorem div_succ_of_start_add {i : ℕ} (h : start i b + 2 ^ b = start k b) :
    i / 2 ^ b + 1 = k / 2 ^ b := by
  apply Nat.eq_of_mul_eq_mul_right (Nat.two_pow_pos b)
  rw [Nat.succ_mul]
  exact h

theorem start_succ_of_even (h : k / 2 ^ b % 2 = 0) : start k (b + 1) = start k b := by
  have hdiv : k / 2 ^ (b + 1) = k / 2 ^ b / 2 := by rw [pow_succ, Nat.div_div_eq_div_mul]
  have htwo : k / 2 ^ b = 2 * (k / 2 ^ b / 2) := by omega
  rw [start, start, hdiv, pow_succ]
  nth_rewrite 2 [htwo]
  ring

theorem start_of_odd (h : k / 2 ^ b % 2 = 1) : start k b = start k (b + 1) + 2 ^ b := by
  have hdiv : k / 2 ^ (b + 1) = k / 2 ^ b / 2 := by rw [pow_succ, Nat.div_div_eq_div_mul]
  have htwo : k / 2 ^ b = 2 * (k / 2 ^ b / 2) + 1 := by omega
  rw [start, start, hdiv, pow_succ]
  nth_rewrite 1 [htwo]
  ring

theorem center_left (b s : ℕ) : center (b + 1) s = center b s + 2 ^ b := by
  have hpos := Nat.two_pow_pos b
  rw [center, center, pow_succ]
  omega

theorem center_right (b s : ℕ) : center (b + 1) s + 2 ^ b = center b (s + 2 ^ b) := by
  have hpos := Nat.two_pow_pos b
  rw [center, center, pow_succ]
  omega

/-- An index belongs to one block. -/
theorem center_injective (hs : 2 ^ b ∣ s) (ht : 2 ^ c ∣ t) (h : center b s = center c t) :
    b = c ∧ s = t := by
  -- the level is the number of times that two divides the successor of the index
  have hle : ∀ {b c s t : ℕ}, 2 ^ b ∣ s → 2 ^ c ∣ t → center b s = center c t → c ≤ b := by
    intro b c s t hs ht h
    by_contra hlt
    obtain ⟨d, rfl⟩ : ∃ d, c = b + 1 + d := ⟨c - (b + 1), by omega⟩
    obtain ⟨q, rfl⟩ := hs
    obtain ⟨r, rfl⟩ := ht
    have hb := Nat.two_pow_pos b
    have hc := Nat.two_pow_pos (b + 1 + d)
    rw [center, center] at h
    have heq : 2 * (2 ^ b * q) + 2 ^ b = 2 * (2 ^ (b + 1 + d) * r) + 2 ^ (b + 1 + d) := by omega
    have hsplit : 2 ^ (b + 1 + d) = 2 ^ b * (2 * 2 ^ d) := by ring
    rw [hsplit] at heq
    have hmul : 2 ^ b * (2 * q + 1) = 2 ^ b * (2 * (2 * 2 ^ d * r + 2 ^ d)) := by linarith
    have hodd := Nat.eq_of_mul_eq_mul_left hb hmul
    omega
  obtain rfl : b = c := le_antisymm (hle ht hs h.symm) (hle hs ht h)
  rw [center, center] at h
  exact ⟨rfl, by omega⟩

theorem exists_center (x : ℕ) : ∃ b s, 2 ^ b ∣ s ∧ center b s = x := by
  obtain ⟨b, r, hodd, hx⟩ := Nat.exists_eq_two_pow_mul_odd (n := x + 1) (by omega)
  obtain ⟨q, rfl⟩ := hodd
  refine ⟨b, 2 ^ b * q, Nat.dvd_mul_right _ _, ?_⟩
  have heq : 2 * (2 ^ b * q) + 2 ^ b = x + 1 := by rw [hx]; ring
  rw [center]
  omega

/-- Blocks that lie before a position do not reach it. -/
theorem center_lt_of_le (h : s + 2 ^ b ≤ k) : center b s + 1 < 2 * k := by
  have hpos := Nat.two_pow_pos b
  rw [center]
  omega

/-- A block whose node exists has leaves in its right half. -/
theorem half_le_of_center_le (h : center (b + 1) s ≤ 2 * k) : s + 2 ^ b ≤ k := by
  rw [center, pow_succ] at h
  omega

end OrionNetwork.DyadicBlocks
