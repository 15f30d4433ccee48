import OrionNetwork.PolynomialRows
import Mathlib.LinearAlgebra.Matrix.ToLinearEquiv

/-!
# Inversion by row operations

A row operation changes neither the inputs without output nor what a second matrix
says about the first, if it is done to both: that the first is the product of the
second and the original. Below the columns that are finished there is always
another pivot, if the matrix is regular, as otherwise the upper triangle could be
solved for an input without output.
-/
namespace OrionNetwork.GaussJordan
open PivotExchange PolynomialRows

variable {F : Type*} [Field F]

def square (k : ℕ) (m : Mat F) : Matrix (Fin k) (Fin k) F := Matrix.of fun r j => m r j

/-- Only the input zero has no outputs. -/
def Regular (k : ℕ) (m : Mat F) : Prop :=
  ∀ x : ℕ → F, (∀ r < k, apply k m x r = 0) → ∀ j < k, x j = 0

variable {k : ℕ} {m m' mx : Mat F}

theorem square_mulVec (m : Mat F) (x : ℕ → F) (r : Fin k) :
    (square k m).mulVec (fun j => x j) r = apply k m x r := by
  unfold apply
  rw [Finset.sum_range]
  rfl

theorem isUnit_square_iff : IsUnit (square k m) ↔ Regular k m := by
  rw [Matrix.isUnit_iff_isUnit_det, isUnit_iff_ne_zero, ne_eq, ← Matrix.exists_mulVec_eq_zero_iff]
  constructor
  · intro hnone x hx j hj
    by_contra hne
    refine hnone ⟨fun j => x j, fun hzero => hne (congrFun hzero ⟨j, hj⟩), funext fun r => ?_⟩
    rw [square_mulVec, hx r r.isLt]
    rfl
  · rintro hreg ⟨v, hne, hv⟩
    let x : ℕ → F := fun j => if h : j < k then v ⟨j, h⟩ else 0
    have hx : (fun j : Fin k => x j) = v := by
      funext j
      simp [x]
    refine hne (funext fun j => ?_)
    rw [← congrFun hx j]
    refine hreg x (fun r hr => ?_) j j.isLt
    rw [← square_mulVec m x ⟨r, hr⟩, hx, hv]
    rfl

/-- A matrix that gives the inputs back for the outputs. -/
theorem square_inverse {e : Mat F}
    (hinv : ∀ w y, (∀ r < k, w r = apply k e y r) ↔ ∀ r < k, y r = apply k m w r) :
    Regular k m ∧ square k e = (square k m)⁻¹ := by
  constructor
  · intro x hx j hj
    rw [(hinv x 0).mpr (fun r hr => (hx r hr).symm) j hj]
    exact Finset.sum_eq_zero fun l _ => mul_zero _
  · refine (Matrix.inv_eq_right_inv ?_).symm
    ext r j
    have hcol := (hinv (fun l => e l j) (Pi.single (j : ℕ) 1)).mp
      (fun l _ => (apply_single j.isLt e l).symm) r r.isLt
    rw [Matrix.mul_apply, Matrix.one_apply]
    calc ∑ l : Fin k, square k m r l * square k e l j
        = apply k m (fun l => e l j) r := by
          unfold apply
          rw [Finset.sum_range]
          rfl
      _ = (Pi.single (j : ℕ) 1 : ℕ → F) r := hcol.symm
      _ = if r = j then 1 else 0 := by rw [Pi.single_apply, if_congr Fin.ext_iff rfl rfl]

/-- A column with nothing beside the diagonal has nothing there in the inverse. -/
theorem column_clear {e : Mat F}
    (hinv : ∀ w y, (∀ r < k, w r = apply k e y r) ↔ ∀ r < k, y r = apply k m w r) {j : ℕ}
    (hj : j < k) (hclear : ∀ r < k, r ≠ j → m r j = 0) : ∀ r < k, r ≠ j → e r j = 0 := by
  have hcol : ∀ r < k, (Pi.single j 1 : ℕ → F) r = m j j * e r j := by
    intro r hr
    have hback := (hinv (Pi.single j 1) (Pi.single j (m j j))).mpr (fun l hl => by
      rw [apply_single hj]
      by_cases hlj : l = j
      · rw [hlj, Pi.single_eq_same]
      · rw [Pi.single_eq_of_ne hlj, hclear l hl hlj]) r hr
    rw [hback, apply_eq_others hj, Pi.single_eq_same, mul_comm]
    unfold others
    rw [Finset.sum_eq_zero, add_zero]
    intro l hl
    rw [Pi.single_eq_of_ne (Finset.ne_of_mem_erase hl), mul_zero]
  have hdiag : m j j ≠ 0 := by
    intro hzero
    have hone := hcol j hj
    rw [hzero, zero_mul, Pi.single_eq_same] at hone
    exact one_ne_zero hone
  intro r hr hrj
  have hzero := hcol r hr
  rw [Pi.single_eq_of_ne hrj] at hzero
  exact (mul_eq_zero.mp hzero.symm).resolve_left hdiag

/-- The first matrix is the product of the second and `mx`. -/
def Records (k : ℕ) (mx : Mat F) (s : Mat F × Mat F) : Prop :=
  ∀ r < k, ∀ j < k, s.1 r j = ∑ l ∈ Finset.range k, s.2 r l * mx l j

theorem Records.square_eq {s : Mat F × Mat F} (h : Records k mx s) :
    square k s.1 = square k s.2 * square k mx := by
  ext r j
  rw [Matrix.mul_apply]
  show s.1 r j = ∑ l : Fin k, s.2 r l * mx l j
  rw [h r r.isLt j j.isLt, Finset.sum_range]

/-- The second matrix has become the inverse when the first is the identity. -/
theorem Records.inverse {s : Mat F × Mat F} (h : Records k mx s) (hclear : Cleared k 0 s.1) :
    square k s.2 = (square k mx)⁻¹ := by
  have hone : square k s.1 = 1 := by
    ext r j
    rw [Matrix.one_apply, if_congr Fin.ext_iff rfl rfl]
    exact hclear j (Nat.zero_le _) j.isLt r r.isLt
  exact (Matrix.inv_eq_left_inv (h.square_eq.symm.trans hone)).symm

theorem Records.scaleRow {s : Mat F × Mat F} (h : Records k mx s) (i : ℕ) (a : F) :
    Records k mx (scaleRow s.1 i a, scaleRow s.2 i a) := by
  intro r hr j hj
  unfold PolynomialRows.scaleRow
  by_cases hri : r = i
  · subst hri
    simp only [Function.update_self, mul_assoc]
    rw [← Finset.mul_sum, h r hr j hj]
  · simp only [Function.update_of_ne hri]
    exact h r hr j hj

theorem Records.addRow {s : Mat F × Mat F} (h : Records k mx s) {i : ℕ} (hi : i < k)
    (chosen : ℕ → Prop) [DecidablePred chosen] (a : ℕ → F) :
    Records k mx (addRow s.1 i chosen a, addRow s.2 i chosen a) := by
  intro r hr j hj
  unfold PolynomialRows.addRow
  by_cases hchosen : chosen r
  · simp only [if_pos hchosen, add_mul, mul_assoc]
    rw [Finset.sum_add_distrib, ← Finset.mul_sum, h r hr j hj, h i hi j hj]
  · simp only [if_neg hchosen]
    exact h r hr j hj

theorem Regular.scaleRow (h : Regular k m) (i : ℕ) {a : F} (ha : a ≠ 0) :
    Regular k (scaleRow m i a) := by
  intro x hx
  refine h x fun r hr => ?_
  have hrow := hx r hr
  unfold apply PolynomialRows.scaleRow at hrow
  by_cases hri : r = i
  · subst hri
    simp only [Function.update_self, mul_assoc] at hrow
    rw [← Finset.mul_sum] at hrow
    exact (mul_eq_zero.mp hrow).resolve_left ha
  · simp only [Function.update_of_ne hri] at hrow
    exact hrow

theorem Regular.addRow (h : Regular k m) {i : ℕ} (hi : i < k) {chosen : ℕ → Prop}
    [DecidablePred chosen] (hother : ¬chosen i) (a : ℕ → F) :
    Regular k (addRow m i chosen a) := by
  intro x hx
  have hsource : apply k m x i = 0 := by
    have hrow := hx i hi
    unfold apply PolynomialRows.addRow at hrow
    simp only [if_neg hother] at hrow
    exact hrow
  refine h x fun r hr => ?_
  have hrow := hx r hr
  unfold apply PolynomialRows.addRow at hrow
  by_cases hchosen : chosen r
  · simp only [if_pos hchosen, add_mul, mul_assoc] at hrow
    rw [Finset.sum_add_distrib, ← Finset.mul_sum] at hrow
    change apply k m x r + a r * apply k m x i = 0 at hrow
    rwa [hsource, mul_zero, add_zero] at hrow
  · simp only [if_neg hchosen] at hrow
    exact hrow

/-- An input with given entries from `n` on and no outputs before, found from `n` down. -/
theorem solve {l n : ℕ} (h : Echelon k n m) (hn : n ≤ k) (w : ℕ → F) (hl : l ≤ n) :
    ∃ x : ℕ → F, (∀ j, n ≤ j → x j = w j) ∧ ∀ r, l ≤ r → r < n → apply k m x r = 0 := by
  induction hl using Nat.decreasingInduction with
  | self => exact ⟨w, fun _ _ => rfl, fun r hr hrn => by omega⟩
  | of_succ l hl ih =>
    obtain ⟨x, hx, hrows⟩ := ih
    obtain ⟨hone, hbelow⟩ := h l hl
    refine ⟨Function.update x l (x l - apply k m x l), fun j hj => ?_, fun r hlr hrn => ?_⟩
    · rw [Function.update_of_ne (by omega), hx j hj]
    · rw [apply_eq_others (show l < k by omega), others_update, Function.update_self]
      by_cases hrl : r = l
      · subst hrl
        rw [hone, one_mul, apply_eq_others (show r < k by omega), hone]
        ring
      · rw [hbelow r (by omega) (by omega), zero_mul, zero_add]
        have hrow := hrows r (by omega) hrn
        rwa [apply_eq_others (show l < k by omega), hbelow r (by omega) (by omega), zero_mul,
          zero_add] at hrow

/-- Behind the finished columns there is a pivot at the diagonal or below. -/
theorem exists_pivot (hreg : Regular k m) {i : ℕ} (h : Echelon k i m) (hi : i < k) :
    ∃ r, i ≤ r ∧ r < k ∧ m r i ≠ 0 := by
  by_contra hnone
  push Not at hnone
  obtain ⟨x, hx, hrows⟩ := solve h hi.le (Pi.single i 1) (Nat.zero_le i)
  have hzero : x i = 0 := by
    refine hreg x (fun r hr => ?_) i hi
    by_cases hri : r < i
    · exact hrows r (Nat.zero_le r) hri
    · unfold apply
      refine Finset.sum_eq_zero fun j hj => ?_
      by_cases hji : j < i
      · rw [(h j hji).2 r (by omega) hr, zero_mul]
      · rw [hx j (by omega)]
        by_cases heq : j = i
        · rw [heq, hnone r (by omega) hr, zero_mul]
        · rw [Pi.single_eq_of_ne heq, mul_zero]
  rw [hx i le_rfl, Pi.single_eq_same] at hzero
  exact one_ne_zero hzero

end OrionNetwork.GaussJordan
