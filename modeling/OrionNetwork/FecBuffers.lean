import OrionNetwork.FecSystem
import OrionNetwork.RowMajor

/-!
# Inversion in two buffers

The matrix and the one beside it are kept by rows in two vectors. Pivots are searched from the
diagonal down, rows are swapped and added in both vectors, first downwards and then upwards.
Buffer by buffer this is the inversion of the matrices that they hold. The arithmetic is that
of the field.
-/
namespace OrionNetwork.FecBuffers
open Galois Loops PivotExchange RowMajor

def matrixSwapRows (mx : List Gf) (c a b : ℕ) : List Gf :=
  setRow c (setRow c mx a (row c mx b)) b (row c mx a)

/-- `mul_slice_xor` of row `a` into row `b`. -/
def matrixAddMulRows (mx : List Gf) (c a b : ℕ) (fac : Gf) : List Gf :=
  setRow c mx b (List.zipWith (fun d s => d + fac * s) (row c mx b) (row c mx a))

/-- `mul_slice_in_place` of one row. -/
def mulRow (mx : List Gf) (c a : ℕ) (fac : Gf) : List Gf :=
  setRow c mx a ((row c mx a).map fun x => fac * x)

def pivotBelow (mx : List Gf) (k i : ℕ) : Option ℕ :=
  (List.range' i (k - i)).find? fun j => mx.getD (j * k + i) 0 ≠ 0

def addMulBoth (k : ℕ) (s : List Gf × List Gf) (a b : ℕ) : List Gf × List Gf :=
  let fac := s.1.getD (b * k + a) 0
  (matrixAddMulRows s.1 k a b fac, matrixAddMulRows s.2 k a b fac)

/-- Without a pivot the column is passed over. A pivot is not zero, so it has an inverse. -/
def invertWithRound (k i : ℕ) (s : List Gf × List Gf) : List Gf × List Gf :=
  match pivotBelow s.1 k i with
  | none => s
  | some pRow =>
    let pVal := s.1.getD (pRow * k + i) 0
    let s := if pRow ≠ i then (matrixSwapRows s.1 k i pRow, matrixSwapRows s.2 k i pRow) else s
    match Gf.div 1 pVal with
    | none => s
    | some inv =>
      forTo (fun t s => addMulBoth k s i (i + 1 + t)) (k - (i + 1))
        (mulRow s.1 k i inv, mulRow s.2 k i inv)

/-- Both buffers have to be squares. -/
def invertMatrixWith (mx : List Gf) (k : ℕ) (out : List Gf) : Option (List Gf × List Gf) :=
  if mx.length = k * k ∧ out.length = k * k then
    some (forDown (fun i s => forDown (fun j s => addMulBoth k s i j) i s) k
      (forTo (invertWithRound k) k (mx, out)))
  else none

section Refinement

variable {k i : ℕ} {mx : List Gf} {m : Mat Gf} {s : List Gf × List Gf} {t : Mat Gf × Mat Gf}

/-- The buffers hold the two matrices. -/
def HoldsBoth (k : ℕ) (s : List Gf × List Gf) (t : Mat Gf × Mat Gf) : Prop :=
  Holds k k s.1 t.1 ∧ Holds k k s.2 t.2

theorem getD_entry (h : Holds k k mx m) {r j : ℕ} (hr : r < k) (hj : j < k) :
    mx.getD (r * k + j) 0 = m r j := by
  rw [List.getD_eq_getElem?_getD, h.entry r hr j hj, Option.getD_some]

theorem holds_swap (h : Holds k k mx m) {a b : ℕ} (ha : a < k) (hb : b < k) (hab : a ≠ b) :
    Holds k k (matrixSwapRows mx k a b) (Fec.matrixSwapRows m a b) := by
  have hrows := (h.setRow ha (h.row hb)).setRow hb (h.row ha)
  have hsame : Function.update (Function.update m a (m b)) b (m a) = Fec.matrixSwapRows m a b := by
    funext r
    unfold Fec.matrixSwapRows
    by_cases hra : r = a
    · rw [if_pos hra, hra, Function.update_of_ne hab, Function.update_self]
    · by_cases hrb : r = b
      · rw [if_neg hra, if_pos hrb, hrb, Function.update_self]
      · rw [if_neg hra, if_neg hrb, Function.update_of_ne hrb, Function.update_of_ne hra]
  rwa [hsame] at hrows

theorem holds_addMul (h : Holds k k mx m) {a b : ℕ} (ha : a < k) (hb : b < k) (fac : Gf) :
    Holds k k (matrixAddMulRows mx k a b fac) (Fec.matrixAddMulRows m a b fac) :=
  h.setRow hb ((h.row hb).zipWith (h.row ha) _)

theorem holds_mulRow (h : Holds k k mx m) {a : ℕ} (ha : a < k) (fac : Gf) :
    Holds k k (mulRow mx k a fac) (Function.update m a fun j => fac * m a j) :=
  h.setRow ha ((h.row ha).map _)

theorem pivotBelow_eq (h : Holds k k mx m) (hi : i < k) :
    pivotBelow mx k i = Fec.pivotBelow m k i := by
  unfold pivotBelow Fec.pivotBelow
  apply List.find?_congr
  intro j hj
  obtain ⟨-, hjk⟩ := List.mem_range'_1.mp hj
  rw [getD_entry h (by omega) hi]

theorem holds_addMulBoth (h : HoldsBoth k s t) {a b : ℕ} (ha : a < k) (hb : b < k) :
    HoldsBoth k (addMulBoth k s a b) (Fec.addMulBoth t a b) := by
  unfold addMulBoth Fec.addMulBoth
  dsimp only
  rw [getD_entry h.1 hb ha]
  exact ⟨holds_addMul h.1 ha hb _, holds_addMul h.2 ha hb _⟩

theorem holds_invertWithRound (hi : i < k) (h : HoldsBoth k s t) :
    HoldsBoth k (invertWithRound k i s) (Fec.invertWithRound k i t) := by
  unfold invertWithRound Fec.invertWithRound
  rw [pivotBelow_eq h.1 hi]
  cases hfind : Fec.pivotBelow t.1 k i with
  | none => exact h
  | some p =>
    obtain ⟨hip, hp, -⟩ := Fec.pivotBelow_eq_some hfind
    dsimp only
    rw [getD_entry h.1 hp hi]
    have hswap : HoldsBoth k
        (if p ≠ i then (matrixSwapRows s.1 k i p, matrixSwapRows s.2 k i p) else s)
        (if p ≠ i then (Fec.matrixSwapRows t.1 i p, Fec.matrixSwapRows t.2 i p) else t) := by
      split_ifs with hpi
      · exact ⟨holds_swap h.1 hi hp (Ne.symm hpi), holds_swap h.2 hi hp (Ne.symm hpi)⟩
      · exact h
    cases Gf.div 1 (t.1 p i) with
    | none => exact hswap
    | some inv =>
      refine forTo_related (HoldsBoth k) ⟨holds_mulRow hswap.1 hi inv, holds_mulRow hswap.2 hi inv⟩
        fun r hr s t hst => ?_
      exact holds_addMulBoth hst hi (by omega)

theorem holds_invertMatrixWith {out : List Gf} {m' : Mat Gf} (hmx : Holds k k mx m)
    (hout : Holds k k out m') :
    ∃ s, invertMatrixWith mx k out = some s ∧ HoldsBoth k s (Fec.invertMatrixWith m k m') := by
  unfold invertMatrixWith Fec.invertMatrixWith
  rw [if_pos ⟨hmx.length, hout.length⟩]
  refine ⟨_, rfl, ?_⟩
  refine forDown_related (HoldsBoth k) ?_ fun i hi s t hst => ?_
  · refine forTo_related (HoldsBoth k) ⟨hmx, hout⟩ fun i hi s t hst => ?_
    exact holds_invertWithRound hi hst
  · refine forDown_related (HoldsBoth k) hst fun j hj s t hst => ?_
    exact holds_addMulBoth hst hi (by omega)

end Refinement

section Inverse

variable {k : ℕ} {mx out : List Gf}

/-- The matrix that a buffer holds. -/
def held (k : ℕ) (mx : List Gf) : Matrix (Fin k) (Fin k) Gf :=
  Matrix.of fun i j => mx.getD (i * k + j) 0

theorem holds_getD (h : mx.length = k * k) : Holds k k mx fun r j => mx.getD (r * k + j) 0 := by
  refine ⟨h, fun r hr j hj => ?_⟩
  have hend := offset_le (c := k) hr
  have hlt : r * k + j < mx.length := by omega
  rw [List.getElem?_eq_getElem hlt, List.getD_eq_getElem _ _ hlt]

theorem held_eq {m : Mat Gf} (h : Holds k k mx m) : held k mx = Fec.square k m := by
  ext i j
  exact getD_entry h i.isLt j.isLt

/-- For every invertible matrix, with the identity in the second buffer. -/
theorem invertMatrixWith_inverts (hmx : mx.length = k * k) (hout : out.length = k * k)
    (hone : held k out = 1) (hunit : IsUnit (held k mx)) :
    ∃ s, invertMatrixWith mx k out = some s ∧ s.1.length = k * k ∧ s.2.length = k * k ∧
      held k s.1 = 1 ∧ held k s.2 = (held k mx)⁻¹ := by
  obtain ⟨s, hs, hfirst, hsecond⟩ := holds_invertMatrixWith (holds_getD hmx) (holds_getD hout)
  rw [held_eq (holds_getD hout)] at hone
  rw [held_eq (holds_getD hmx)] at hunit ⊢
  obtain ⟨hidentity, hinverse⟩ := Fec.invertMatrixWith_square k _ _ hone hunit
  refine ⟨s, hs, hfirst.length, hsecond.length, ?_, ?_⟩
  · rw [held_eq hfirst, hidentity]
  · rw [held_eq hsecond, hinverse]

theorem held_exchange : held 2 [0, 1, 1, 0] * held 2 [0, 1, 1, 0] = 1 := by
  ext i j
  fin_cases i <;> fin_cases j <;> simp [held, Matrix.mul_apply, Fin.sum_univ_two]

theorem held_identity : held 2 [1, 0, 0, 1] = 1 := by
  ext i j
  fin_cases i <;> fin_cases j <;> rfl

/-- The matrix that exchanges two entries has to have its rows swapped. -/
theorem invertMatrixWith_exchange :
    ∃ s, invertMatrixWith [0, 1, 1, 0] 2 [1, 0, 0, 1] = some s ∧ s.1.length = 2 * 2 ∧
      s.2.length = 2 * 2 ∧ held 2 s.1 = 1 ∧ held 2 s.2 = (held 2 [0, 1, 1, 0])⁻¹ :=
  invertMatrixWith_inverts rfl rfl held_identity (IsUnit.of_mul_eq_one _ held_exchange)

end Inverse

end OrionNetwork.FecBuffers
