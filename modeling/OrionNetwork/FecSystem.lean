import OrionNetwork.FecDecode
import OrionNetwork.FecSingular
import OrionNetwork.TriangularForm
import Mathlib.LinearAlgebra.Matrix.NonsingularInverse

/-!
# The system of the correction

The matrix that is inverted for a byte is brought to triangular form, and a pivot that is
missing stays zero on the diagonal. So all of the diagonal is one in the end if and only if the
system is regular. In terms of the code, no two polynomials of the degrees in question explain
the bytes that were received.
-/
namespace OrionNetwork.Fec
open Galois Loops PivotExchange PolynomialRows TriangularForm EvaluationCode Polynomial

section Standard

variable {k i p : ℕ} {mx : Mat Gf}

theorem pivotBelow_eq_some (hfind : pivotBelow mx k i = some p) : i ≤ p ∧ p < k ∧ mx p i ≠ 0 := by
  have hpivot := List.find?_some hfind
  have hmem := List.mem_range'_1.mp (List.mem_of_find?_eq_some hfind)
  exact ⟨hmem.1, by omega, by simpa using hpivot⟩

theorem pivotBelow_eq_none (hfind : pivotBelow mx k i = none) {r : ℕ} (hir : i ≤ r) (hr : r < k) :
    mx r i = 0 := by
  have hnone := List.find?_eq_none.mp hfind r (List.mem_range'_1.mpr ⟨hir, by omega⟩)
  simpa using hnone

/-- The row of the pivot comes to the diagonal. -/
theorem standardizeRound_some (hfind : pivotBelow mx k i = some p) (hi : i < k) :
    standardizeRound k i mx =
      addRow (scaleRow (fun r => mx (Equiv.swap i p r)) i (mx p i)⁻¹) i (fun r => i < r ∧ r < k)
        fun r => scaleRow (fun r => mx (Equiv.swap i p r)) i (mx p i)⁻¹ r i := by
  obtain ⟨hip, hp, hpivot⟩ := pivotBelow_eq_some hfind
  have hswapped : (if p ≠ i then matrixSwapRows mx i p else mx) =
      fun r => mx (Equiv.swap i p r) := by
    have hordered := swapped_eq mx p i
    rwa [min_eq_right hip, max_eq_left hip, Equiv.swap_comm] at hordered
  unfold standardizeRound
  rw [hfind]
  dsimp only
  rw [div_one hpivot, hswapped]
  dsimp only
  rw [forTo_addMulRows, show i + 1 + (k - (i + 1)) = k by omega]
  rfl

/-- A round takes care of its column and keeps what has no output. -/
theorem standardizeRound_keeps (hi : i < k) (h : Triangular k i mx) :
    Triangular k (i + 1) (standardizeRound k i mx) ∧
      ∀ x, Vanishes k (standardizeRound k i mx) x ↔ Vanishes k mx x := by
  cases hfind : pivotBelow mx k i with
  | none =>
    have hround : standardizeRound k i mx = mx := by
      unfold standardizeRound
      rw [hfind]
    rw [hround]
    exact ⟨h.skip (fun r hir hr => pivotBelow_eq_none hfind hir hr) hi, fun x => Iff.rfl⟩
  | some p =>
    obtain ⟨hip, hp, hpivot⟩ := pivotBelow_eq_some hfind
    rw [standardizeRound_some hfind hi]
    constructor
    · refine ((h.swap hi hip hp).scaleRow hi _).eliminate hi ?_ fun r => CharTwo.add_self_eq_zero _
      unfold scaleRow
      beta_reduce
      rw [Function.update_self, Equiv.swap_apply_left, inv_mul_cancel₀ hpivot]
    · intro x
      rw [vanishes_addRow hi (fun hself => lt_irrefl i hself.1),
        vanishes_scaleRow (inv_ne_zero hpivot), vanishes_swap hi hp]

theorem clearAbove_keeps (hi : i < k) (h : Triangular k k mx) :
    Triangular k k (forDown (fun j mx => matrixAddMulRows mx i j (mx j i)) i mx) ∧
      ∀ x, Vanishes k (forDown (fun j mx => matrixAddMulRows mx i j (mx j i)) i mx) x ↔
        Vanishes k mx x := by
  rw [forDown_addMulRows i le_rfl]
  refine ⟨h.addRow_above hi _, fun x => ?_⟩
  rw [vanishes_addRow hi]
  exact lt_irrefl i

theorem forward_spec (mx : Mat Gf) (k : ℕ) :
    Triangular k k (forTo (standardizeRound k) k mx) ∧
      ∀ x, Vanishes k (forTo (standardizeRound k) k mx) x ↔ Vanishes k mx x := by
  refine forTo_invariant (fun i t => Triangular k i t ∧ ∀ x, Vanishes k t x ↔ Vanishes k mx x)
    ⟨fun l hl => absurd hl (Nat.not_lt_zero l), fun x => Iff.rfl⟩ ?_
  intro i hi t ⟨htriangular, hsame⟩
  obtain ⟨hnext, hkept⟩ := standardizeRound_keeps hi htriangular
  exact ⟨hnext, fun x => (hkept x).trans (hsame x)⟩

/-- There are ones on the diagonal if and only if the matrix is regular. -/
theorem standardizeMatrix_diagonal_iff (mx : Mat Gf) (k : ℕ) :
    (∀ j < k, standardizeMatrix mx k j j = 1) ↔ Regular k mx := by
  obtain ⟨hforward, hvanishes⟩ := forward_spec mx k
  have hback := forDown_invariant
    (f := fun i mx => forDown (fun j mx => matrixAddMulRows mx i j (mx j i)) i mx) (n := k)
    (s := forTo (standardizeRound k) k mx)
    (fun _ t => Triangular k k t ∧ ∀ x, Vanishes k t x ↔ Vanishes k mx x)
    ⟨hforward, hvanishes⟩ (by
      intro i hi t ⟨htriangular, hsame⟩
      obtain ⟨hnext, hkept⟩ := clearAbove_keeps hi htriangular
      exact ⟨hnext, fun x => (hkept x).trans (hsame x)⟩)
  exact (diagonal_iff hback.1).trans (Regular.congr hback.2)

/-- A regular matrix becomes the identity. -/
theorem standardizeMatrix_cleared {mx : Mat Gf} {k : ℕ} (h : Regular k mx) :
    Cleared k 0 (standardizeMatrix mx k) := by
  obtain ⟨hforward, hvanishes⟩ := forward_spec mx k
  have hones := (diagonal_iff hforward).mpr ((Regular.congr hvanishes).mpr h)
  have hback := forDown_invariant
    (f := fun i mx => forDown (fun j mx => matrixAddMulRows mx i j (mx j i)) i mx) (n := k)
    (s := forTo (standardizeRound k) k mx)
    (fun i mx => Cleared k i mx ∧ Echelon k k mx)
    ⟨fun l hl hl' => absurd hl' (by omega), fun l hl => ⟨hones l hl, (hforward l hl).2⟩⟩ (by
      intro i hi t ⟨hclear, hech⟩
      rw [forDown_addMulRows i le_rfl]
      exact hclear.eliminate hech hi fun r => CharTwo.add_self_eq_zero (t r i))
  exact hback.1

theorem invertWithRound_fst (k i : ℕ) (s : Mat Gf × Mat Gf) :
    (invertWithRound k i s).1 = standardizeRound k i s.1 := by
  unfold invertWithRound standardizeRound
  cases pivotBelow s.1 k i with
  | none => rfl
  | some p =>
    dsimp only
    by_cases hpi : p ≠ i
    · rw [if_pos hpi, if_pos hpi]
      cases Gf.div 1 (s.1 p i) with
      | none => rfl
      | some inv => exact forTo_part Prod.fst (fun _ _ => rfl) _ _
    · rw [if_neg hpi, if_neg hpi]
      cases Gf.div 1 (s.1 p i) with
      | none => rfl
      | some inv => exact forTo_part Prod.fst (fun _ _ => rfl) _ _

theorem invertMatrixWith_fst (mx : Mat Gf) (k : ℕ) (out : Mat Gf) :
    (invertMatrixWith mx k out).1 = standardizeMatrix mx k := by
  unfold invertMatrixWith standardizeMatrix
  rw [forDown_part Prod.fst
    (g := fun i mx => forDown (fun j mx => matrixAddMulRows mx i j (mx j i)) i mx)
    fun i s => forDown_part Prod.fst (fun _ _ => rfl) i s,
    forTo_part Prod.fst (invertWithRound_fst k)]

/-- Both matrices get the same row operations. -/
theorem addMulBoth_tracks {s : Mat Gf × Mat Gf} {a b : ℕ} (ha : a < k)
    (h : Tracks k mx s.2 s.1) : Tracks k mx (addMulBoth s a b).2 (addMulBoth s a b).1 := by
  unfold addMulBoth
  dsimp only
  rw [matrixAddMulRows_eq, matrixAddMulRows_eq]
  exact h.addRow ha _ _

theorem invertWithRound_tracks {s : Mat Gf × Mat Gf} (hi : i < k) (h : Tracks k mx s.2 s.1) :
    Tracks k mx (invertWithRound k i s).2 (invertWithRound k i s).1 := by
  unfold invertWithRound
  cases hfind : pivotBelow s.1 k i with
  | none => exact h
  | some p =>
    obtain ⟨hip, hp, hpivot⟩ := pivotBelow_eq_some hfind
    have hswap : Tracks k mx
        (if p ≠ i then (matrixSwapRows s.1 i p, matrixSwapRows s.2 i p) else s).2
        (if p ≠ i then (matrixSwapRows s.1 i p, matrixSwapRows s.2 i p) else s).1 := by
      split_ifs
      · rw [matrixSwapRows_eq, matrixSwapRows_eq]
        exact h.swap hi hp
      · exact h
    dsimp only
    rw [div_one hpivot]
    have hscaled := hswap.scaleRow hi (s.1 p i)⁻¹
    refine forTo_invariant (fun _ (s : Mat Gf × Mat Gf) => Tracks k mx s.2 s.1) hscaled ?_
    intro t _ s hs
    exact addMulBoth_tracks hi hs

/-- The second matrix times the original is the first one throughout. -/
theorem invertMatrixWith_tracks {out : Mat Gf} (h : Tracks k mx out mx) :
    Tracks k mx (invertMatrixWith mx k out).2 (invertMatrixWith mx k out).1 := by
  unfold invertMatrixWith
  refine forDown_invariant (fun _ (s : Mat Gf × Mat Gf) => Tracks k mx s.2 s.1) ?_ fun i hi s hs => ?_
  · refine forTo_invariant (fun _ (s : Mat Gf × Mat Gf) => Tracks k mx s.2 s.1) h ?_
    intro i hi s hs
    exact invertWithRound_tracks hi hs
  · refine forDown_invariant (fun _ (s : Mat Gf × Mat Gf) => Tracks k mx s.2 s.1) hs ?_
    intro j _ s hs
    exact addMulBoth_tracks hi hs

end Standard

section Inverse

variable {k : ℕ} {mx out : Mat Gf}

/-- The square that the buffer holds. -/
def square (k : ℕ) (mx : Mat Gf) : Matrix (Fin k) (Fin k) Gf := Matrix.of fun i j => mx i j

theorem mulVec_square (x : ℕ → Gf) (r : Fin k) :
    (square k mx).mulVec (fun j => x j) r = apply k mx x r := by
  unfold square apply Matrix.mulVec dotProduct
  exact Fin.sum_univ_eq_sum_range (fun j => mx r j * x j) k

theorem tracks_iff {a b : Mat Gf} :
    Tracks k mx a b ↔ square k a * square k mx = square k b := by
  have hentry (r j : Fin k) :
      (square k a * square k mx) r j = apply k a (fun l => mx l j) r := by
    rw [Matrix.mul_apply]
    exact Fin.sum_univ_eq_sum_range (fun l => a r l * mx l j) k
  constructor
  · intro h
    ext r j
    rw [hentry]
    exact h r r.isLt j j.isLt
  · intro h r hr j hj
    rw [← hentry ⟨r, hr⟩ ⟨j, hj⟩, h]
    rfl

theorem regular_of_isUnit (h : IsUnit (square k mx)) : Regular k mx := by
  intro x hx j hj
  have hzero : (square k mx).mulVec (fun j => x j) = 0 := by
    funext r
    rw [mulVec_square]
    exact hx r r.isLt
  have hnone := Matrix.mulVec_injective_of_isUnit h (hzero.trans (Matrix.mulVec_zero _).symm)
  exact congrFun hnone ⟨j, hj⟩

theorem square_of_cleared (h : Cleared k 0 mx) : square k mx = 1 := by
  ext i j
  rw [Matrix.one_apply, if_congr Fin.ext_iff rfl rfl]
  exact h j (Nat.zero_le _) j.isLt i i.isLt

/-- An invertible matrix becomes the identity, and the identity beside it the inverse. -/
theorem invertMatrixWith_square (k : ℕ) (mx out : Mat Gf) (hout : square k out = 1)
    (h : IsUnit (square k mx)) :
    square k (invertMatrixWith mx k out).1 = 1 ∧
      square k (invertMatrixWith mx k out).2 = (square k mx)⁻¹ := by
  have htracks : Tracks k mx out mx := tracks_iff.mpr (by rw [hout, one_mul])
  have hone : square k (invertMatrixWith mx k out).1 = 1 := by
    rw [invertMatrixWith_fst]
    exact square_of_cleared (standardizeMatrix_cleared (regular_of_isUnit h))
  refine ⟨hone, ?_⟩
  have hproduct := tracks_iff.mp (invertMatrixWith_tracks htracks)
  rw [hone] at hproduct
  exact (Matrix.inv_eq_left_inv hproduct).symm

end Inverse

section Ambiguity

variable {allocs : Resources} {shares : List Share} {j : ℕ}

/-- The system of `berklekampWelch`. -/
def system (shares : List Share) (j : ℕ) (allocs : Resources) : Mat Gf := fun i c =>
  let x := evalPoint ((shares[i]?.map (·.number)).getD 0)
  let r := byte ((shares[i]?.map (·.data)).getD []) j
  if c < allocs.q then Gf.exp x c else Gf.exp x (c - allocs.q) * r

/-- The last assertion of `invert_matrix_with`. -/
def Solved (allocs : Resources) (shares : List Share) (j : ℕ) : Prop :=
  ∀ i < allocs.q + allocs.e, (invertMatrixWith (system shares j allocs) (allocs.q + allocs.e)
    fun i c => if i = c then 1 else 0).1 i i = 1

instance (allocs : Resources) (shares : List Share) (j : ℕ) : Decidable (Solved allocs shares j) :=
  Nat.decidableBallLT _ _

/-- There are polynomials of degree below `q` and `e`, not both zero, of which the first is at
all points the second times the byte. -/
def Ambiguous (allocs : Resources) (shares : List Share) (j : ℕ) : Prop :=
  ∃ p d : Gf[X], ¬ (p = 0 ∧ d = 0) ∧ p.degree < allocs.q ∧ d.degree < allocs.e ∧
    ∀ i < allocs.q + allocs.e,
      p.eval (evalPoint ((shares[i]?.map (·.number)).getD 0)) =
        d.eval (evalPoint ((shares[i]?.map (·.number)).getD 0)) *
          byte ((shares[i]?.map (·.data)).getD []) j

theorem apply_system (w : ℕ → Gf) (i : ℕ) :
    apply (allocs.q + allocs.e) (system shares j allocs) w i =
      (polynomial allocs.q w).eval (evalPoint ((shares[i]?.map (·.number)).getD 0)) +
        (polynomial allocs.e fun c => w (allocs.q + c)).eval
          (evalPoint ((shares[i]?.map (·.number)).getD 0)) *
            byte ((shares[i]?.map (·.data)).getD []) j := by
  unfold apply
  rw [Finset.sum_range_add, eval_polynomial, eval_polynomial, Finset.sum_mul]
  congr 1
  · apply Finset.sum_congr rfl
    intro c hc
    unfold system
    dsimp only
    rw [if_pos (Finset.mem_range.mp hc), Gf.exp_eq_pow, mul_comm]
  · apply Finset.sum_congr rfl
    intro c _
    unfold system
    dsimp only
    rw [if_neg (by omega), Gf.exp_eq_pow, Nat.add_sub_cancel_left]
    ring

theorem solved_iff : Solved allocs shares j ↔ ¬ Ambiguous allocs shares j := by
  unfold Solved
  rw [invertMatrixWith_fst, standardizeMatrix_diagonal_iff]
  constructor
  · rintro hregular ⟨p, d, hnonzero, hp, hd, heval⟩
    let w : ℕ → Gf := fun c => if c < allocs.q then p.coeff c else d.coeff (c - allocs.q)
    have hfirst : polynomial allocs.q w = p := by
      rw [← polynomial_coeff hp]
      apply Finset.sum_congr rfl
      intro c hc
      simp only [w]
      rw [if_pos (Finset.mem_range.mp hc)]
    have hsecond : (polynomial allocs.e fun c => w (allocs.q + c)) = d := by
      simp only [w, Nat.not_lt.mpr (Nat.le_add_right _ _), if_false, Nat.add_sub_cancel_left]
      exact polynomial_coeff hd
    have hvanishes : Vanishes (allocs.q + allocs.e) (system shares j allocs) w := by
      intro i hi
      rw [apply_system, hfirst, hsecond, heval i hi]
      exact CharTwo.add_self_eq_zero _
    have hw := hregular w hvanishes
    refine hnonzero ⟨?_, ?_⟩
    · rw [← hfirst]
      apply polynomial_eq_zero
      intro c hc
      exact hw c (by omega)
    · rw [← hsecond]
      apply polynomial_eq_zero
      intro c hc
      exact hw (allocs.q + c) (by omega)
  · intro hunique w hvanishes
    by_contra hsome
    push Not at hsome
    obtain ⟨c, hc, hne⟩ := hsome
    refine hunique ⟨polynomial allocs.q w, polynomial allocs.e fun c => w (allocs.q + c), ?_,
      degree_polynomial _ _, degree_polynomial _ _, fun i hi => ?_⟩
    · rintro ⟨hp, hd⟩
      by_cases hcq : c < allocs.q
      · rw [← coeff_polynomial hcq w, hp, coeff_zero] at hne
        exact hne rfl
      · have hcoeff := coeff_polynomial (show c - allocs.q < allocs.e by omega)
          fun c => w (allocs.q + c)
        rw [hd, coeff_zero, Nat.add_sub_cancel' (by omega)] at hcoeff
        exact hne hcoeff.symm
    · have hrow := hvanishes i hi
      rw [apply_system] at hrow
      exact CharTwo.add_eq_zero.mp hrow

theorem not_solved_iff : ¬ Solved allocs shares j ↔ Ambiguous allocs shares j := by
  rw [solved_iff, not_not]

end Ambiguity

end OrionNetwork.Fec
