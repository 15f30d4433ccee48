import OrionNetwork.CountingLoops
import Mathlib.Algebra.BigOperators.Group.Finset.Basic
import Mathlib.Algebra.BigOperators.Ring.Finset
import Mathlib.Algebra.CharP.Two

/-!
# Inversion in place by pivot exchanges

A square matrix stands for the linear relation between its inputs and outputs.
A pivot step on the diagonal makes an output of the input at that index and an
input of the output, and the matrix that does so is computed in place. After a
step for every index inputs and outputs have changed sides. In characteristic
two no signs appear. A matrix is a function of row and column.
-/
namespace OrionNetwork.PivotExchange
open Loops

/-- Matrices, of which a square at the origin matters. -/
abbrev Mat (F : Type*) := ℕ → ℕ → F

variable {F : Type*}

/-- The vector `x` with the entries below `n` taken from `y`. -/
def mixed (n : ℕ) (x y : ℕ → F) : ℕ → F := fun j => if j < n then y j else x j

theorem mixed_zero (x y : ℕ → F) : mixed 0 x y = x := by
  funext j
  simp [mixed]

theorem mixed_succ (n : ℕ) (x y : ℕ → F) :
    mixed (n + 1) x y = Function.update (mixed n x y) n (mixed n y x n) := by
  funext j
  by_cases hj : j = n
  · subst hj
    simp [mixed]
  · rw [Function.update_of_ne hj]
    unfold mixed
    rw [if_congr (show j < n + 1 ↔ j < n by omega) rfl rfl]

variable [Field F]

/-- The outputs of the first `k` inputs. -/
def apply (k : ℕ) (m : Mat F) (w : ℕ → F) (r : ℕ) : F := ∑ j ∈ Finset.range k, m r j * w j

/-- The pivot step at `i`. -/
def exchange (m : Mat F) (i : ℕ) : Mat F := fun r j =>
  if r = i then (if j = i then (m i i)⁻¹ else (m i i)⁻¹ * m i j)
  else if j = i then m r i * (m i i)⁻¹
  else m r j + m r i * ((m i i)⁻¹ * m i j)

/-- Inputs `x` and outputs `y`, with those below `n` exchanged, are related by `m`. -/
def Relates (k : ℕ) (m : Mat F) (n : ℕ) (x y : ℕ → F) : Prop :=
  ∀ r < k, mixed n y x r = apply k m (mixed n x y) r

/-- The two matrices have the same square. -/
def AgreeOn (k : ℕ) (m m' : Mat F) : Prop := ∀ r < k, ∀ j < k, m r j = m' r j

theorem apply_congr {k : ℕ} {m m' : Mat F} (h : AgreeOn k m m') {r : ℕ} (hr : r < k) (w : ℕ → F) :
    apply k m w r = apply k m' w r := by
  apply Finset.sum_congr rfl
  intro j hj
  rw [h r hr j (Finset.mem_range.mp hj)]

theorem Relates.congr {k n : ℕ} {m m' : Mat F} (h : AgreeOn k m m') {x y : ℕ → F} :
    Relates k m n x y ↔ Relates k m' n x y := by
  constructor
  · intro hrel r hr
    rw [hrel r hr, apply_congr h hr]
  · intro hrel r hr
    rw [hrel r hr, apply_congr h hr]

/-- The part of an output that does not come from the pivot column. -/
def others (k : ℕ) (m : Mat F) (w : ℕ → F) (i r : ℕ) : F :=
  ∑ j ∈ (Finset.range k).erase i, m r j * w j

theorem apply_eq_others {k i : ℕ} (hi : i < k) (m : Mat F) (w : ℕ → F) (r : ℕ) :
    apply k m w r = m r i * w i + others k m w i r :=
  (Finset.add_sum_erase _ (fun j => m r j * w j) (Finset.mem_range.mpr hi)).symm

theorem others_update (k : ℕ) (m : Mat F) (w : ℕ → F) (i r : ℕ) (a : F) :
    others k m (Function.update w i a) i r = others k m w i r := by
  apply Finset.sum_congr rfl
  intro j hj
  rw [Function.update_of_ne (Finset.ne_of_mem_erase hj)]

theorem others_exchange_self (k : ℕ) (m : Mat F) (w : ℕ → F) (i : ℕ) :
    others k (exchange m i) w i i = (m i i)⁻¹ * others k m w i i := by
  unfold others
  rw [Finset.mul_sum]
  apply Finset.sum_congr rfl
  intro j hj
  rw [exchange, if_pos rfl, if_neg (Finset.ne_of_mem_erase hj), mul_assoc]

theorem others_exchange {i r : ℕ} (hr : r ≠ i) (k : ℕ) (m : Mat F) (w : ℕ → F) :
    others k (exchange m i) w i r =
      others k m w i r + m r i * ((m i i)⁻¹ * others k m w i i) := by
  unfold others
  rw [Finset.mul_sum, Finset.mul_sum, ← Finset.sum_add_distrib]
  apply Finset.sum_congr rfl
  intro j hj
  rw [exchange, if_neg hr, if_neg (Finset.ne_of_mem_erase hj)]
  ring

theorem apply_single {k i : ℕ} (hi : i < k) (m : Mat F) (r : ℕ) :
    apply k m (Pi.single i 1) r = m r i := by
  unfold apply
  simp only [Pi.single_apply, mul_ite, mul_one, mul_zero]
  rw [Finset.sum_ite_eq', if_pos (Finset.mem_range.mpr hi)]

/-- Any vector can be put in, whatever has been exchanged. -/
theorem relates_input (k n : ℕ) (m : Mat F) (w : ℕ → F) :
    Relates k m n (mixed n w (apply k m w)) (mixed n (apply k m w) w) := by
  have hin : mixed n (mixed n w (apply k m w)) (mixed n (apply k m w) w) = w := by
    funext j
    unfold mixed
    split_ifs <;> rfl
  have hout : mixed n (mixed n (apply k m w) w) (mixed n w (apply k m w)) = apply k m w := by
    funext j
    unfold mixed
    split_ifs <;> rfl
  intro r _
  rw [hin, hout]

/-- An input that ends at `i` and has no outputs up to there is zero at `i`. -/
def LeadingAt (k : ℕ) (m : Mat F) (i : ℕ) : Prop :=
  ∀ x : ℕ → F, (∀ l, i < l → l < k → x l = 0) → (∀ r ≤ i, apply k m x r = 0) → x i = 0

def Leading (k : ℕ) (m : Mat F) : Prop :=
  ∀ i < k, ∀ x : ℕ → F, (∀ l, i < l → l < k → x l = 0) → (∀ r ≤ i, apply k m x r = 0) → x i = 0

/-- An input that ends at `i` and has no outputs up to there has none at all, if this is the
first `i` with such an input other than zero. -/
def InPlace (k : ℕ) (m : Mat F) : Prop :=
  ∀ i < k, (∀ l < i, LeadingAt k m l) → ∀ x : ℕ → F, (∀ l, i < l → l < k → x l = 0) →
    (∀ r ≤ i, apply k m x r = 0) → ∀ r < k, apply k m x r = 0

section Course

variable {k n i : ℕ} {m m' : Mat F}

/-- The column of the next pivot comes from an input of the first matrix. -/
theorem column_input (hi : i < k) (hrel : ∀ x y, Relates k m' i x y ↔ Relates k m 0 x y) :
    ∃ x : ℕ → F, x i = 1 ∧ (∀ l, i < l → x l = 0) ∧
      ∀ r < k, apply k m x r = if r < i then 0 else m' r i := by
  refine ⟨mixed i (Pi.single i 1) (apply k m' (Pi.single i 1)), ?_, fun l hl => ?_, fun r hr => ?_⟩
  · simp [mixed]
  · simp [mixed, show ¬ l < i by omega, show l ≠ i by omega]
  · have hplain := (hrel _ _).mp (relates_input k i m' (Pi.single i 1)) r hr
    rw [mixed_zero, mixed_zero] at hplain
    rw [← hplain]
    unfold mixed
    split_ifs with hri
    · exact Pi.single_eq_of_ne hri.ne 1
    · exact apply_single hi m' r

/-- Where the first matrix is regular up to the diagonal, the next pivot is not zero. -/
theorem pivot_ne_zero (hlead : LeadingAt k m i) (hi : i < k)
    (hrel : ∀ x y, Relates k m' i x y ↔ Relates k m 0 x y) : m' i i ≠ 0 := by
  intro hzero
  obtain ⟨x, hone, hend, hcol⟩ := column_input hi hrel
  have hnone : x i = 0 := by
    apply hlead x fun l hl _ => hend l hl
    intro r hr
    rw [hcol r (by omega)]
    split_ifs with hri
    · rfl
    · rw [show r = i by omega, hzero]
  rw [hone] at hnone
  exact one_ne_zero hnone

theorem leadingAt_of_pivot (hi : i < k) (hrel : ∀ x y, Relates k m' i x y ↔ Relates k m 0 x y)
    (hpivot : m' i i ≠ 0) : LeadingAt k m i := by
  intro x hend hrows
  have hplain : Relates k m 0 x (apply k m x) := by
    intro r _
    rw [mixed_zero, mixed_zero]
  have hrow := (hrel x _).mpr hplain i hi
  have hrest : others k m' (mixed i x (apply k m x)) i i = 0 := by
    apply Finset.sum_eq_zero
    intro j hj
    obtain ⟨hji, hj⟩ := Finset.mem_erase.mp hj
    have hin : mixed i x (apply k m x) j = 0 := by
      unfold mixed
      split_ifs with hlt
      · exact hrows j hlt.le
      · exact hend j (by omega) (Finset.mem_range.mp hj)
    rw [hin, mul_zero]
  have hout : mixed i (apply k m x) x i = apply k m x i := by simp [mixed]
  have hin : mixed i x (apply k m x) i = x i := by simp [mixed]
  rw [apply_eq_others hi, hrest, add_zero, hout, hin, hrows i le_rfl] at hrow
  exact (mul_eq_zero.mp hrow.symm).resolve_left hpivot

/-- The search for a pivot below the diagonal is in vain. -/
theorem column_eq_zero (hplace : InPlace k m) (hi : i < k) (hlead : ∀ l < i, LeadingAt k m l)
    (hrel : ∀ x y, Relates k m' i x y ↔ Relates k m 0 x y) (hpivot : m' i i = 0) {r : ℕ}
    (hir : i ≤ r) (hr : r < k) : m' r i = 0 := by
  obtain ⟨x, -, hend, hcol⟩ := column_input hi hrel
  have hnone := hplace i hi hlead x (fun l hl _ => hend l hl) (fun r hr => by
    rw [hcol r (by omega)]
    split_ifs with hri
    · rfl
    · rw [show r = i by omega, hpivot]) r hr
  rwa [hcol r hr, if_neg (by omega)] at hnone

/-- A row that is free of other inputs stays so. -/
theorem unit_row (hi : i < k) (hrel : ∀ x y, Relates k m' n x y ↔ Relates k m 0 x y)
    (hoff : ∀ l < k, l ≠ i → m i l = 0) :
    (i < n → m i i ≠ 0) ∧ ∀ j < k, j ≠ i → m' i j = 0 := by
  have hrow (w : ℕ → F) : mixed n (apply k m' w) w i = m i i * mixed n w (apply k m' w) i := by
    have hplain := (hrel _ _).mp (relates_input k n m' w) i hi
    rw [mixed_zero, mixed_zero, apply_eq_others hi] at hplain
    rw [hplain]
    unfold others
    rw [Finset.sum_eq_zero, add_zero]
    intro l hl
    obtain ⟨hli, hl⟩ := Finset.mem_erase.mp hl
    rw [hoff l (Finset.mem_range.mp hl) hli, zero_mul]
  by_cases hin : i < n
  · have hentry {j : ℕ} (hj : j < k) : (Pi.single j 1 : ℕ → F) i = m i i * m' i j := by
      have h := hrow (Pi.single j 1)
      unfold mixed at h
      rwa [if_pos hin, if_pos hin, apply_single hj] at h
    have hpivot : m i i ≠ 0 := by
      intro hzero
      have hone := hentry hi
      rw [hzero, zero_mul, Pi.single_eq_same] at hone
      exact one_ne_zero hone
    refine ⟨fun _ => hpivot, fun j hj hji => ?_⟩
    have hzero := hentry hj
    rw [Pi.single_eq_of_ne hji.symm] at hzero
    exact (mul_eq_zero.mp hzero.symm).resolve_left hpivot
  · refine ⟨fun h => absurd h hin, fun j hj hji => ?_⟩
    have h := hrow (Pi.single j 1)
    unfold mixed at h
    rwa [if_neg hin, if_neg hin, apply_single hj, Pi.single_eq_of_ne hji.symm, mul_zero] at h

/-- A row that is free of other inputs in the course of the steps was so before. -/
theorem row_of_unit (hi : i < k)
    (hrel : ∀ x y, Relates k m' i x y ↔ Relates k m 0 x y)
    (hoff : ∀ j < k, j ≠ i → m' i j = 0) {j : ℕ} (hj : j < k) :
    m i j = if j = i then m' i i else 0 := by
  let x : ℕ → F := fun l => if l = j then 1 else 0
  have hplain : Relates k m 0 x (apply k m x) := by
    intro r _
    rw [mixed_zero, mixed_zero]
  have hentry : apply k m x i = m i j := by
    unfold apply
    simp only [x, mul_ite, mul_one, mul_zero]
    rw [Finset.sum_ite_eq', if_pos (Finset.mem_range.mpr hj)]
  have hrow := (hrel x _).mpr hplain i hi
  rw [apply_eq_others hi] at hrow
  have hrest : others k m' (mixed i x (apply k m x)) i i = 0 := by
    apply Finset.sum_eq_zero
    intro l hl
    rw [hoff l (Finset.mem_range.mp (Finset.mem_of_mem_erase hl)) (Finset.ne_of_mem_erase hl),
      zero_mul]
  have hfirst : mixed i (apply k m x) x i = apply k m x i := by simp [mixed]
  have hsecond : mixed i x (apply k m x) i = x i := by simp [mixed]
  rw [hrest, add_zero, hfirst, hsecond, hentry] at hrow
  rw [hrow]
  by_cases hji : j = i
  · simp [x, hji]
  · simp [x, hji, Ne.symm hji]

/-- When everything has been exchanged, the matrix is the inverse. -/
theorem inverse_of_relates (hrel : ∀ x y, Relates k m' k x y ↔ Relates k m 0 x y)
    (w y : ℕ → F) : (∀ r < k, w r = apply k m' y r) ↔ ∀ r < k, y r = apply k m w r := by
  have hboth := hrel w y
  unfold Relates at hboth
  rw [mixed_zero, mixed_zero] at hboth
  rw [← hboth]
  have hinputs : ∀ r < k, mixed k y w r = w r := by
    intro r hr
    simp [mixed, hr]
  have houtputs : ∀ r, apply k m' (mixed k w y) r = apply k m' y r := by
    intro r
    apply Finset.sum_congr rfl
    intro j hj
    simp [mixed, Finset.mem_range.mp hj]
  constructor
  · intro h r hr
    rw [hinputs r hr, houtputs, h r hr]
  · intro h r hr
    rw [← hinputs r hr, h r hr, houtputs]

end Course

variable [CharP F 2]

/-- The row of the pivot, solved for the input. -/
theorem solve_pivot {p w z s : F} (hp : p ≠ 0) : w = p⁻¹ * z + p⁻¹ * s ↔ z = p * w + s := by
  constructor
  · intro h
    rw [h, mul_add, mul_inv_cancel_left₀ hp, mul_inv_cancel_left₀ hp, add_assoc,
      CharTwo.add_self_eq_zero, add_zero]
  · intro h
    rw [h, mul_add, inv_mul_cancel_left₀ hp, add_assoc, CharTwo.add_self_eq_zero, add_zero]

/-- A pivot step keeps the relation and changes the sides at `i`. -/
theorem exchange_iff {k i : ℕ} {m : Mat F} (hi : i < k) (hpivot : m i i ≠ 0) (z w : ℕ → F) :
    (∀ r < k, Function.update z i (w i) r =
        apply k (exchange m i) (Function.update w i (z i)) r) ↔
      ∀ r < k, z r = apply k m w r := by
  have hrow : w i = apply k (exchange m i) (Function.update w i (z i)) i ↔
      z i = apply k m w i := by
    rw [apply_eq_others hi, apply_eq_others hi, others_update, others_exchange_self,
      Function.update_self]
    rw [show exchange m i i i = (m i i)⁻¹ by simp [exchange]]
    exact solve_pivot hpivot
  have hother : ∀ r, r ≠ i → z i = apply k m w i →
      apply k (exchange m i) (Function.update w i (z i)) r = apply k m w r := by
    intro r hr hz
    have hsum := hz.trans (apply_eq_others hi m w i)
    have hw := (solve_pivot (s := others k m w i i) hpivot).mpr hsum
    rw [apply_eq_others hi, apply_eq_others hi, others_update, others_exchange hr,
      Function.update_self]
    rw [show exchange m i r i = m r i * (m i i)⁻¹ by simp [exchange, hr]]
    linear_combination -(m r i) * hw
  constructor
  · intro h r hr
    have hz : z i = apply k m w i := by
      apply hrow.mp
      have hi' := h i hi
      rwa [Function.update_self] at hi'
    by_cases hri : r = i
    · rw [hri]
      exact hz
    · have hr' := h r hr
      rwa [Function.update_of_ne hri, hother r hri hz] at hr'
  · intro h r hr
    by_cases hri : r = i
    · rw [hri, Function.update_self]
      exact hrow.mpr (h i hi)
    · rw [Function.update_of_ne hri, hother r hri (h i hi)]
      exact h r hr

theorem relates_exchange {k i : ℕ} {m : Mat F} (hi : i < k) (hpivot : m i i ≠ 0) (x y : ℕ → F) :
    Relates k (exchange m i) (i + 1) x y ↔ Relates k m i x y := by
  unfold Relates
  rw [mixed_succ, mixed_succ]
  exact exchange_iff hi hpivot (mixed i y x) (mixed i x y)

end OrionNetwork.PivotExchange
