import OrionNetwork.FecDecode
import OrionNetwork.GaussJordan

/-!
# The two ways to invert a matrix

One way keeps the row operations in a second matrix, and inverts every regular
matrix. The other works in place. It is right as long as the pivots are on the
diagonal. A pivot from another row leaves the wrong row marked as unused, and in a
row with nothing but a pivot other than one the column of the pivot is not divided.
-/
namespace OrionNetwork.Fec
open Galois Loops PivotExchange PolynomialRows GaussJordan

variable {k i : ℕ} {mx : Mat Gf} {s : Mat Gf × Mat Gf}

theorem pivotBelow_some {m : Mat Gf} {p : ℕ} (h : pivotBelow m k i = some p) :
    i ≤ p ∧ p < k ∧ m p i ≠ 0 := by
  have hmem := List.mem_of_find?_eq_some h
  rw [List.mem_range'_1] at hmem
  have hne := List.find?_some h
  exact ⟨hmem.1, by omega, by simpa using hne⟩

theorem matrixSwapRows_self (m : Mat Gf) (a : ℕ) : matrixSwapRows m a a = m := by
  funext r
  unfold matrixSwapRows
  split_ifs with h
  · rw [h]
  · rfl

/-- The loops do the same to both matrices. -/
theorem forTo_addMulBoth (i n : ℕ) (s : Mat Gf × Mat Gf) :
    forTo (fun t s => addMulBoth s i (i + 1 + t)) n s =
      (addRow s.1 i (fun r => i < r ∧ r < i + 1 + n) fun r => s.1 r i,
        addRow s.2 i (fun r => i < r ∧ r < i + 1 + n) fun r => s.1 r i) := by
  induction n with
  | zero => rw [addRow_none fun r => by omega, addRow_none fun r => by omega, forTo]
  | succ n ih =>
    rw [forTo, ih]
    unfold addMulBoth
    dsimp only
    rw [addRow_of_not (by omega)]
    exact Prod.ext addMulRows_above addMulRows_above

theorem forDown_addMulBoth (i : ℕ) {n : ℕ} (hn : n ≤ i) (s : Mat Gf × Mat Gf) :
    forDown (fun j s => addMulBoth s i j) n s =
      (addRow s.1 i (fun r => r < n) fun r => s.1 r i,
        addRow s.2 i (fun r => r < n) fun r => s.1 r i) := by
  induction n generalizing s with
  | zero =>
    rw [addRow_none fun r => Nat.not_lt_zero r, addRow_none fun r => Nat.not_lt_zero r, forDown]
  | succ n ih =>
    have hkept : ∀ r, r < n → (addMulBoth s i n).1 r i = s.1 r i := by
      intro r hr
      unfold addMulBoth matrixAddMulRows
      dsimp only
      rw [Function.update_of_ne hr.ne]
    rw [forDown, ih (by omega)]
    exact Prod.ext (addRow_below (b := fun r => s.1 r i) hn hkept)
      (addRow_below (b := fun r => s.1 r i) hn hkept)

theorem regular_swap {m : Mat Gf} (h : Regular k m) {a b : ℕ} (ha : a < k) (hb : b < k) :
    Regular k (matrixSwapRows m a b) := by
  have hrow (x : ℕ → Gf) (r : ℕ) : apply k (matrixSwapRows m a b) x r =
      apply k m x (if r = a then b else if r = b then a else r) := by
    unfold apply matrixSwapRows
    split_ifs <;> rfl
  intro x hx
  refine h x fun r hr => ?_
  by_cases hra : r = a
  · subst hra
    have hother := hx b hb
    rw [hrow] at hother
    by_cases hbr : b = r
    · simpa [hbr] using hother
    · simpa [hbr] using hother
  · by_cases hrb : r = b
    · have hother := hx a ha
      rwa [hrow, if_pos rfl, ← hrb] at hother
    · have hsame := hx r hr
      rwa [hrow, if_neg hra, if_neg hrb] at hsame

theorem records_swap (h : Records k mx s) {a b : ℕ} (ha : a < k) (hb : b < k) :
    Records k mx (matrixSwapRows s.1 a b, matrixSwapRows s.2 a b) := by
  intro r hr j hj
  unfold matrixSwapRows
  dsimp only
  split_ifs
  · exact h b hb j hj
  · exact h a ha j hj
  · exact h r hr j hj

theorem echelon_swap {m : Mat Gf} (h : Echelon k i m) {p : ℕ} (hip : i ≤ p) (hp : p < k) :
    Echelon k i (matrixSwapRows m i p) := by
  intro l hl
  obtain ⟨hone, hbelow⟩ := h l hl
  unfold matrixSwapRows
  refine ⟨?_, fun r hlr hr => ?_⟩
  · rw [if_neg (by omega), if_neg (by omega), hone]
  · split_ifs
    · exact hbelow p (by omega) hp
    · exact hbelow i hl (by omega)
    · exact hbelow r hlr hr

/-- The rows below `n` are finished, and both matrices belong together. -/
structure Reducing (k : ℕ) (mx : Mat Gf) (n : ℕ) (s : Mat Gf × Mat Gf) : Prop where
  echelon : Echelon k n s.1
  regular : Regular k s.1
  records : Records k mx s

theorem Reducing.next (h : Reducing k mx i s) (hi : i < k) :
    Reducing k mx (i + 1) (invertWithRound k i s) := by
  obtain ⟨p, hfind⟩ : ∃ p, pivotBelow s.1 k i = some p := by
    rw [← Option.isSome_iff_exists, pivotBelow, List.find?_isSome]
    obtain ⟨r, hir, hr, hne⟩ := exists_pivot h.regular h.echelon hi
    exact ⟨r, List.mem_range'_1.mpr ⟨hir, by omega⟩, by simpa using hne⟩
  obtain ⟨hip, hp, hne⟩ := pivotBelow_some hfind
  have hswap : (if p ≠ i then (matrixSwapRows s.1 i p, matrixSwapRows s.2 i p) else s) =
      (matrixSwapRows s.1 i p, matrixSwapRows s.2 i p) := by
    split_ifs with hpi
    · rfl
    · rw [not_not.mp hpi, matrixSwapRows_self, matrixSwapRows_self]
  unfold invertWithRound
  simp only [hfind, div_one hne, hswap]
  rw [forTo_addMulBoth, show i + 1 + (k - (i + 1)) = k by omega]
  have hechelon := echelon_swap h.echelon hip hp
  have hregular := regular_swap h.regular hi hp
  have hrecords := records_swap h.records hi hp
  have hpivot : matrixSwapRows s.1 i p i i = s.1 p i := by
    unfold matrixSwapRows
    rw [if_pos rfl]
  generalize matrixSwapRows s.1 i p = m at *
  generalize matrixSwapRows s.2 i p = out at *
  have hone : scaleRow m i (s.1 p i)⁻¹ i i = 1 := by
    unfold scaleRow
    rw [Function.update_self, hpivot, inv_mul_cancel₀ hne]
  exact ⟨(hechelon.scaleRow hi _).eliminate hi hone fun r => CharTwo.add_self_eq_zero _,
    (hregular.scaleRow i (inv_ne_zero hne)).addRow hi (fun h => lt_irrefl i h.1) _,
    (hrecords.scaleRow i _).addRow hi _ _⟩

/-- With the row operations kept in a second matrix every regular matrix is inverted. -/
theorem invertMatrixWith_spec (hreg : Regular k mx) :
    square k (invertMatrixWith mx k fun i j => if i = j then 1 else 0).2 = (square k mx)⁻¹ := by
  have hforward : Reducing k mx k
      (forTo (invertWithRound k) k (mx, fun i j => if i = j then 1 else 0)) := by
    refine forTo_invariant (fun i s => Reducing k mx i s)
      ⟨fun l hl => absurd hl (Nat.not_lt_zero l), hreg, fun r hr j _ => ?_⟩
      fun i hi s h => h.next hi
    simp only [ite_mul, one_mul, zero_mul]
    rw [Finset.sum_ite_eq, if_pos (Finset.mem_range.mpr hr)]
  have hback := forDown_invariant (f := fun i s => forDown (fun j s => addMulBoth s i j) i s)
    (n := k) (s := forTo (invertWithRound k) k (mx, fun i j => if i = j then 1 else 0))
    (fun i s => Cleared k i s.1 ∧ Echelon k k s.1 ∧ Records k mx s)
    ⟨fun l hl hl' => absurd hl' (by omega), hforward.echelon, hforward.records⟩
    (by
      rintro i hi s ⟨hclear, hech, hrec⟩
      rw [forDown_addMulBoth i le_rfl]
      obtain ⟨hclear', hech'⟩ :=
        hclear.eliminate hech hi fun r => CharTwo.add_self_eq_zero (s.1 r i)
      exact ⟨hclear', hech', hrec.addRow hi _ _⟩)
  exact hback.2.2.inverse hback.1

/-- A matrix that can be inverted is replaced by its inverse, in both ways, and any other is
refused. -/
def Inverts (k : ℕ) (mx : Mat Gf) : Prop :=
  (IsUnit (square k mx) → ∃ inv, invertMatrix mx k = some inv ∧
    square k inv = (square k mx)⁻¹ ∧
    square k (invertMatrixWith mx k fun i j => if i = j then 1 else 0).2 = square k inv) ∧
  (¬IsUnit (square k mx) → invertMatrix mx k = none)

/-- A row with nothing but a number other than one on the diagonal has its column to itself. -/
def UnitRowsClear (k : ℕ) (mx : Mat Gf) : Prop :=
  ∀ i < k, (∀ j < k, j ≠ i → mx i j = 0) → mx i i ≠ 1 → ∀ r < k, r ≠ i → mx r i = 0

theorem Scaled.square_eq_iff {out e : Mat Gf} (h : Scaled k mx k out e)
    (hinv : ∀ w y, (∀ r < k, w r = apply k e y r) ↔ ∀ r < k, y r = apply k mx w r) :
    square k out = square k e ↔ UnitRowsClear k mx := by
  constructor
  · intro heq j hj hunit hne
    refine column_clear (fun w y => (hinv y w).symm) hj fun r hr hrj => ?_
    have hentry : out r j = e r j := congrFun (congrFun heq ⟨r, hr⟩) ⟨j, hj⟩
    rw [h r hr j hj, if_pos ⟨hrj, hj⟩, unitScale, if_pos hunit] at hentry
    by_contra hzero
    exact hne ((mul_eq_right₀ hzero).mp hentry)
  · intro hclear
    ext r j
    show out r j = e r j
    rw [h r r.isLt j j.isLt]
    split_ifs with hrj
    · unfold unitScale
      split_ifs with hunit
      · by_cases hone : mx j j = 1
        · rw [hone, one_mul]
        · rw [column_clear hinv j.isLt (hclear j j.isLt hunit hone) r r.isLt hrj.1, mul_zero]
      · rw [one_mul]
    · rfl

/-- As long as no pivot is taken from another row, inversion fails only for a row with nothing
but a pivot other than one. -/
theorem inverts_iff (hplace : InPlace k mx) :
    Inverts k mx ↔ (IsUnit (square k mx) → UnitRowsClear k mx) := by
  by_cases hlead : Leading k mx
  · obtain ⟨out, e, hout, hscaled, hinv⟩ := invertMatrix_of_leading hlead
    obtain ⟨hreg, he⟩ := square_inverse hinv
    have hunit : IsUnit (square k mx) := isUnit_square_iff.mpr hreg
    rw [← hscaled.square_eq_iff hinv, he]
    constructor
    · intro hinverts _
      obtain ⟨inv, hsome, hsquare, -⟩ := hinverts.1 hunit
      cases hout.symm.trans hsome
      exact hsquare
    · intro hsquare
      refine ⟨fun _ => ⟨out, hout, hsquare hunit, ?_⟩, fun h => absurd hunit h⟩
      rw [invertMatrixWith_spec hreg, hsquare hunit]
  · have hfirst : ∃ i, i < k ∧ ¬LeadingAt k mx i := by
      by_contra hnone
      push Not at hnone
      exact hlead hnone
    classical
    obtain ⟨hi, hnot⟩ := Nat.find_spec hfirst
    have hbefore : ∀ l < Nat.find hfirst, LeadingAt k mx l := by
      intro l hl
      by_contra h
      exact Nat.find_min hfirst hl ⟨by omega, h⟩
    have hsingular : ¬IsUnit (square k mx) := by
      rw [isUnit_square_iff]
      intro hreg
      apply hnot
      intro x hend hrows
      exact hreg x (hplace _ hi hbefore x hend hrows) _ hi
    exact iff_of_true ⟨fun h => absurd h hsingular,
      fun _ => invertMatrix_eq_none hplace hi hbefore hnot⟩ fun h => absurd h hsingular

section Sample

/-- The entries of a square of two rows. -/
def sampleSquare (a b c d : Gf) : Mat Gf := fun r j =>
  if r = 0 then (if j = 0 then a else b) else if j = 0 then c else d

theorem apply_sampleSquare (a b c d : Gf) (x : ℕ → Gf) (r : ℕ) :
    apply 2 (sampleSquare a b c d) x r =
      if r = 0 then a * x 0 + b * x 1 else c * x 0 + d * x 1 := by
  unfold apply sampleSquare
  rw [Finset.sum_range_succ, Finset.sum_range_one]
  by_cases hr : r = 0
  · simp [hr]
  · simp [hr]

/-- A first row `2 0` over a second row `1 1`. -/
theorem not_inverts_unitRow : ¬Inverts 2 (sampleSquare (.ofNat 2) 0 1 1) := by
  have htwo : (Gf.ofNat 2 : Gf) ≠ 0 := by decide
  have hplace : InPlace 2 (sampleSquare (.ofNat 2) 0 1 1) := by
    intro i hi _ x hend hrows r hr
    have hfirst := hrows 0 (Nat.zero_le i)
    rw [apply_sampleSquare, if_pos rfl, zero_mul, add_zero] at hfirst
    have hx : x 0 = 0 := (mul_eq_zero.mp hfirst).resolve_left htwo
    by_cases hi0 : i = 0
    · rw [apply_sampleSquare, hx, hend 1 (by omega) (by omega)]
      simp
    · exact hrows r (by omega)
  rw [inverts_iff hplace]
  intro hclear
  have hreg : Regular 2 (sampleSquare (.ofNat 2) 0 1 1) := by
    intro x hx j hj
    have hfirst := hx 0 (by omega)
    have hsecond := hx 1 (by omega)
    rw [apply_sampleSquare, if_pos rfl, zero_mul, add_zero] at hfirst
    have hx0 : x 0 = 0 := (mul_eq_zero.mp hfirst).resolve_left htwo
    rw [apply_sampleSquare, if_neg (by omega), hx0, mul_zero, zero_add, one_mul] at hsecond
    interval_cases j
    · exact hx0
    · exact hsecond
  have hone := hclear (isUnit_square_iff.mpr hreg) 0 (by omega) (by decide) (by decide) 1 (by omega)
    (by omega)
  exact absurd hone (by decide)

/-- The two rows of the identity in the other order. -/
theorem not_inverts_exchanged : ¬Inverts 2 (sampleSquare 0 1 1 0) := by
  intro h
  have hunit : IsUnit (square 2 (sampleSquare 0 1 1 0)) := by
    rw [isUnit_square_iff]
    intro x hx j hj
    have hfirst := hx 0 (by omega)
    have hsecond := hx 1 (by omega)
    rw [apply_sampleSquare, if_pos rfl, zero_mul, zero_add, one_mul] at hfirst
    rw [apply_sampleSquare, if_neg (by omega), zero_mul, add_zero, one_mul] at hsecond
    interval_cases j
    · exact hsecond
    · exact hfirst
  obtain ⟨inv, hsome, -⟩ := h.1 hunit
  have hnone : (invertMatrix (sampleSquare 0 1 1 0) 2).isNone = true := by decide +kernel
  rw [hsome] at hnone
  cases hnone

/-- An exchange does no harm where the search is in vain afterwards, and should be. -/
example : Inverts 2 (sampleSquare 0 0 1 0) := by
  have hsingular : ¬IsUnit (square 2 (sampleSquare 0 0 1 0)) := by
    rw [isUnit_square_iff]
    intro hreg
    have hzero := hreg (Pi.single 1 1) (fun r _ => by simp [apply_sampleSquare]) 1 (by omega)
    rw [Pi.single_eq_same] at hzero
    exact one_ne_zero hzero
  have hnone : (invertMatrix (sampleSquare 0 0 1 0) 2).isNone = true := by decide +kernel
  exact ⟨fun h => absurd h hsingular, fun _ => Option.isNone_iff_eq_none.mp hnone⟩

end Sample

end OrionNetwork.Fec
