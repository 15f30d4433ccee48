import OrionNetwork.EvaluationCode
import OrionNetwork.GaloisField

/-!
# Matrices of the erasure code

Inversion in place, and the inverse of a Vandermonde matrix. The sources keep a
matrix in one vector by rows; here it is a function of row and column. Inversion
looks for a pivot among the rows that were not used, and swaps it to the
diagonal. It stops early in a row that has only its pivot left, which is right
only if the pivot was one. For the matrices of the code the pivots are on the
diagonal, and such a row is a row of the identity.
-/
namespace OrionNetwork.Fec
open Galois Loops PivotExchange EvaluationCode

def matrixSwapRows (mx : Mat Gf) (a b : ℕ) : Mat Gf := fun r =>
  if r = a then mx b else if r = b then mx a else mx r

structure Inversion where
  mx : Mat Gf
  unusedRows : ℕ → Bool
  swaps : List (ℕ × ℕ)

/-- The pivot row divided by the pivot, which becomes its inverse. -/
def pivotRow (mx : Mat Gf) (i : ℕ) : Option (ℕ → Gf) :=
  if mx i i ≠ 1 then
    (Gf.div 1 (mx i i)).map fun c j => c * Function.update (mx i) i 1 j
  else some (mx i)

/-- The column of the pivot is cleared in the other rows, unless the pivot row
has no other entries. -/
def eliminate (k i : ℕ) (mx : Mat Gf) (row : ℕ → Gf) : Mat Gf :=
  if ∀ j < k, j ≠ i → row j = 0 then Function.update mx i row
  else fun r =>
    if r = i then row else fun j => Function.update (mx r) i 0 j + mx r i * row j

def invertRound (k i : ℕ) (s : Inversion) : Option Inversion :=
  match (List.range k).find? fun j => s.mx j i ≠ 0 && s.unusedRows j with
  | none => none
  | some pivot =>
    let mx := if pivot ≠ i then matrixSwapRows s.mx (min pivot i) (max pivot i) else s.mx
    let swaps := if pivot ≠ i then s.swaps ++ [(min pivot i, max pivot i)] else s.swaps
    match pivotRow mx i with
    | none => none
    | some row =>
      some {
        mx := eliminate k i mx row
        unusedRows := Function.update s.unusedRows pivot false
        swaps := swaps }

/-- Swaps are undone last to first. -/
def invertMatrix (mx : Mat Gf) (k : ℕ) : Option (Mat Gf) :=
  (tryTo (invertRound k) k ⟨mx, fun _ => true, []⟩).map fun s =>
    s.swaps.reverse.foldl (fun mx pair => matrixSwapRows mx pair.1 pair.2) s.mx

theorem div_one {c : Gf} (hc : c ≠ 0) : Gf.div 1 c = some c⁻¹ := by
  rw [Gf.div_eq 1 hc, one_div]

theorem pivotRow_eq {mx : Mat Gf} {i : ℕ} (hpivot : mx i i ≠ 0) :
    ∃ row, pivotRow mx i = some row ∧ ∀ j, row j = exchange mx i i j := by
  unfold pivotRow
  by_cases hone : mx i i = 1
  · refine ⟨mx i, if_neg (not_not.mpr hone), fun j => ?_⟩
    unfold exchange
    rw [if_pos rfl, hone, inv_one, one_mul]
    split_ifs with hj
    · rw [hj, hone]
    · rfl
  · refine ⟨fun j => (mx i i)⁻¹ * Function.update (mx i) i 1 j, ?_, fun j => ?_⟩
    · rw [if_pos hone, div_one hpivot]
      rfl
    · unfold exchange
      beta_reduce
      rw [if_pos rfl]
      split_ifs with hj
      · rw [hj, Function.update_self, mul_one]
      · rw [Function.update_of_ne hj]

/-- What a round leaves, when it stops early as well. -/
theorem eliminate_eq {k i : ℕ} {mx : Mat Gf} {row : ℕ → Gf} (hpivot : mx i i ≠ 0)
    (hrow : ∀ j, row j = exchange mx i i j) (r : ℕ) {j : ℕ} (hj : j < k) :
    eliminate k i mx row r j =
      if r ≠ i ∧ j = i ∧ ∀ l < k, l ≠ i → mx i l = 0 then mx r i else exchange mx i r j := by
  have hoff : ∀ l, l ≠ i → row l = (mx i i)⁻¹ * mx i l := by
    intro l hli
    rw [hrow, exchange, if_pos rfl, if_neg hli]
  have hstop : (∀ l < k, l ≠ i → row l = 0) ↔ ∀ l < k, l ≠ i → mx i l = 0 := by
    refine forall₃_congr fun l _ hli => ?_
    rw [hoff l hli, mul_eq_zero, or_iff_right (inv_ne_zero hpivot)]
  unfold eliminate
  rw [if_congr hstop rfl rfl]
  by_cases hri : r = i
  · have hpivotRow : ¬(r ≠ i ∧ j = i ∧ ∀ l < k, l ≠ i → mx i l = 0) := fun h => h.1 hri
    rw [if_neg hpivotRow, hri, ← hrow]
    split_ifs
    · rw [Function.update_self]
    · simp
  by_cases hclear : ∀ l < k, l ≠ i → mx i l = 0
  · rw [if_pos hclear, Function.update_of_ne hri]
    by_cases hji : j = i
    · rw [if_pos ⟨hri, hji, hclear⟩, hji]
    · have hother : ¬(r ≠ i ∧ j = i ∧ ∀ l < k, l ≠ i → mx i l = 0) := fun h => hji h.2.1
      rw [if_neg hother, exchange, if_neg hri, if_neg hji, hclear j hj hji, mul_zero, mul_zero,
        add_zero]
  · have hfull : ¬(r ≠ i ∧ j = i ∧ ∀ l < k, l ≠ i → mx i l = 0) := fun h => hclear h.2.2
    rw [if_neg hclear, if_neg hfull]
    unfold exchange
    simp only [if_neg hri]
    by_cases hji : j = i
    · rw [if_pos hji, hji, Function.update_self, zero_add, hrow, exchange, if_pos rfl, if_pos rfl]
    · rw [if_neg hji, Function.update_of_ne hji, hoff j hji]

/-- The number that is left out by stopping early in a row with only a pivot. -/
def unitScale (k : ℕ) (mx : Mat Gf) (i : ℕ) : Gf :=
  if ∀ l < k, l ≠ i → mx i l = 0 then mx i i else 1

/-- The columns below `n` differ from those of `e` by the numbers that were left out. -/
def Scaled (k : ℕ) (mx : Mat Gf) (n : ℕ) (m e : Mat Gf) : Prop :=
  ∀ r < k, ∀ j < k, m r j = if r ≠ j ∧ j < n then unitScale k mx j * e r j else e r j

theorem unitScale_ne_zero {k n j : ℕ} {mx e : Mat Gf} (hj : j < k) (hjn : j < n)
    (hrel : ∀ x y, Relates k e n x y ↔ Relates k mx 0 x y) : unitScale k mx j ≠ 0 := by
  unfold unitScale
  split_ifs with hunit
  · exact (unit_row hj hrel hunit).1 hjn
  · exact one_ne_zero

/-- The columns that are still to come are those of `e`. -/
theorem Scaled.column {k n i r : ℕ} {mx m e : Mat Gf} (h : Scaled k mx n m e) (hr : r < k)
    (hi : i < k) (hn : n ≤ i) : m r i = e r i := by
  rw [h r hr i hi, if_neg fun h => absurd h.2 (by omega)]

/-- Inversion stops early in the rows that had only a pivot from the beginning. -/
theorem Scaled.clear_iff {k i : ℕ} {mx m e : Mat Gf} (h : Scaled k mx i m e) (hi : i < k)
    (hrel : ∀ x y, Relates k e i x y ↔ Relates k mx 0 x y) :
    (∀ l < k, l ≠ i → m i l = 0) ↔ ∀ l < k, l ≠ i → mx i l = 0 := by
  constructor
  · intro hoff l hl hli
    have hunit : ∀ l < k, l ≠ i → e i l = 0 := by
      intro l hl hli
      have hzero := hoff l hl hli
      rw [h i hi l hl] at hzero
      split_ifs at hzero with hbelow
      · exact (mul_eq_zero.mp hzero).resolve_left (unitScale_ne_zero hl hbelow.2 hrel)
      · exact hzero
    rw [row_of_unit hi hrel hunit hl, if_neg hli]
  · intro hoff l hl hli
    rw [h i hi l hl, (unit_row hi hrel hoff).2 l hl hli, mul_zero, ite_self]

/-- One round, entry by entry: the pivot row, the column of the pivot, and the rest. -/
theorem Scaled.eliminate {k i : ℕ} {mx m e : Mat Gf} {row : ℕ → Gf} (h : Scaled k mx i m e)
    (hi : i < k) (hrel : ∀ x y, Relates k e i x y ↔ Relates k mx 0 x y) (hpivot : e i i ≠ 0)
    (hrow : ∀ j, row j = exchange m i i j) :
    Scaled k mx (i + 1) (eliminate k i m row) (exchange e i) := by
  have hcol : ∀ r < k, m r i = e r i := fun r hr => h.column hr hi le_rfl
  have hdiag := hcol i hi
  have hclear := h.clear_iff hi hrel
  intro r hr j hj
  rw [eliminate_eq (hdiag.trans_ne hpivot) hrow r hj]
  by_cases hri : r = i
  · subst hri
    rw [if_neg fun h => h.1 rfl]
    unfold exchange
    rw [if_pos rfl, if_pos rfl, hdiag, h r hr j hj]
    by_cases hjr : j = r
    · rw [if_pos hjr, if_pos hjr, if_neg fun h => h.1 hjr.symm]
    · rw [if_neg hjr, if_neg hjr, if_congr (show r ≠ j ∧ j < r + 1 ↔ r ≠ j ∧ j < r by omega) rfl
        rfl]
      split_ifs
      · ring
      · rfl
  by_cases hji : j = i
  · subst hji
    have hpast : r ≠ j ∧ j < j + 1 := ⟨hri, Nat.lt_succ_self j⟩
    have hentry (m : Mat Gf) : exchange m j r j = m r j * (m j j)⁻¹ := by
      unfold exchange
      rw [if_neg hri, if_pos rfl]
    rw [hcol r hr, if_pos hpast, hentry, hentry, hdiag, hcol r hr]
    unfold unitScale
    by_cases hunit : ∀ l < k, l ≠ j → mx j l = 0
    · have hpivotEntry : mx j j = e j j := by
        rw [row_of_unit hj hrel (unit_row hj hrel hunit).2 hj, if_pos rfl]
      rw [if_pos ⟨hri, rfl, hclear.mpr hunit⟩, if_pos hunit, hpivotEntry]
      field_simp
    · rw [if_neg fun h => hunit (hclear.mp h.2.2), if_neg hunit, one_mul]
  · rw [if_neg fun h => hji h.2.1]
    unfold exchange
    rw [if_neg hri, if_neg hji, if_neg hri, if_neg hji, hdiag, hcol r hr, h r hr j hj, h i hi j hj,
      if_congr (show r ≠ j ∧ j < i + 1 ↔ r ≠ j ∧ j < i by omega) rfl rfl,
      if_congr (show i ≠ j ∧ j < i ↔ j < i by omega) rfl rfl]
    by_cases hbelow : j < i
    · rw [if_pos hbelow]
      by_cases hrj : r = j
      · subst hrj
        rw [if_neg fun h => h.1 rfl, if_neg fun h => h.1 rfl]
        by_cases hunit : ∀ l < k, l ≠ r → mx r l = 0
        · rw [(unit_row hr hrel hunit).2 i hi (Ne.symm hri), zero_mul, zero_mul]
        · unfold unitScale
          rw [if_neg hunit, one_mul]
      · rw [if_pos ⟨hrj, hbelow⟩, if_pos ⟨hrj, hbelow⟩]
        ring
    · rw [if_neg hbelow, if_neg fun h => hbelow h.2, if_neg fun h => hbelow h.2]

/-- The rows that can be used in a round are the ones from the diagonal on. -/
theorem find_pivot {k i : ℕ} {s : Inversion} (hi : i < k)
    (hunused : ∀ j < k, s.unusedRows j = decide (i ≤ j)) (hpivot : s.mx i i ≠ 0) :
    ((List.range k).find? fun j => s.mx j i ≠ 0 && s.unusedRows j) = some i := by
  rw [List.find?_range_eq_some]
  refine ⟨?_, List.mem_range.mpr hi, ?_⟩
  · simp [hpivot, hunused i hi]
  · intro j hj
    rw [hunused j (by omega)]
    simp [show ¬ i ≤ j by omega]

/-- The course of the inversion as long as the pivots are on the diagonal. -/
structure Course (k : ℕ) (mx : Mat Gf) (n : ℕ) (s : Inversion) (e : Mat Gf) : Prop where
  swaps : s.swaps = []
  unusedRows : ∀ j < k, s.unusedRows j = decide (n ≤ j)
  scaled : Scaled k mx n s.mx e
  relates : ∀ x y, Relates k e n x y ↔ Relates k mx 0 x y

theorem Course.next {k i : ℕ} {mx e : Mat Gf} {s : Inversion} (h : Course k mx i s e) (hi : i < k)
    (hpivot : e i i ≠ 0) :
    ∃ t, invertRound k i s = some t ∧ Course k mx (i + 1) t (exchange e i) := by
  have hpivot' := (h.scaled.column hi hi le_rfl).trans_ne hpivot
  obtain ⟨row, hsome, hrow⟩ := pivotRow_eq hpivot'
  refine ⟨⟨Fec.eliminate k i s.mx row, Function.update s.unusedRows i false, s.swaps⟩, ?_,
    h.swaps, fun j hj => ?_, h.scaled.eliminate hi h.relates hpivot hrow, fun x y => ?_⟩
  · unfold invertRound
    simp only [find_pivot hi h.unusedRows hpivot', ne_eq, not_true_eq_false, if_false, hsome]
  · by_cases hji : j = i
    · simp [hji]
    · simp only [Function.update_of_ne hji, h.unusedRows j hj, decide_eq_decide]
      omega
  · rw [relates_exchange hi hpivot, h.relates]

theorem course {k n : ℕ} {mx : Mat Gf} (hn : n ≤ k) (hlead : ∀ l < n, LeadingAt k mx l) :
    ∃ s, tryTo (invertRound k) n ⟨mx, fun _ => true, []⟩ = some s ∧ ∃ e, Course k mx n s e := by
  refine tryTo_invariant (fun i s => ∃ e, Course k mx i s e) ⟨mx, rfl, fun _ _ => by simp,
    fun r _ j _ => by rw [if_neg fun h => Nat.not_lt_zero j h.2], fun _ _ => Iff.rfl⟩ ?_
  rintro i hi s ⟨e, h⟩
  have hpivot := pivot_ne_zero (hlead i hi) (by omega) h.relates
  obtain ⟨t, ht, hcourse⟩ := h.next (by omega) hpivot
  exact ⟨t, ht, _, hcourse⟩

/-- With all pivots on the diagonal inversion succeeds, and the result is the inverse up to
the numbers that were left out. -/
theorem invertMatrix_of_leading {k : ℕ} {mx : Mat Gf} (hlead : Leading k mx) :
    ∃ out e, invertMatrix mx k = some out ∧ Scaled k mx k out e ∧ ∀ w y,
      (∀ r < k, w r = apply k e y r) ↔ ∀ r < k, y r = apply k mx w r := by
  obtain ⟨s, hs, e, h⟩ := course le_rfl hlead
  refine ⟨s.mx, e, ?_, h.scaled, inverse_of_relates h.relates⟩
  unfold invertMatrix
  rw [hs, Option.map_some, h.swaps]
  rfl

/-- Inversion succeeds and gives the inverse, if no pivot is zero and no row is
a multiple of a row of the identity other than by one. -/
theorem invertMatrix_spec {k : ℕ} {mx : Mat Gf} (hlead : Leading k mx)
    (hsimple : ∀ i < k, (∀ j < k, j ≠ i → mx i j = 0) → mx i i = 1) :
    ∃ inv, invertMatrix mx k = some inv ∧ ∀ w y,
      (∀ r < k, w r = apply k inv y r) ↔ ∀ r < k, y r = apply k mx w r := by
  obtain ⟨out, e, hout, hscaled, hinv⟩ := invertMatrix_of_leading hlead
  have hagree : AgreeOn k out e := by
    intro r hr j hj
    have hone : unitScale k mx j = 1 := by
      unfold unitScale
      split_ifs with hunit
      · exact hsimple j hj hunit
      · rfl
    rw [hscaled r hr j hj, hone, one_mul, ite_self]
  refine ⟨out, hout, fun w y => ?_⟩
  rw [← hinv w y]
  refine forall₂_congr fun r hr => ?_
  rw [apply_congr hagree hr]

/-- Without any pivot at the diagonal and below, inversion gives up. -/
theorem invertMatrix_eq_none {k i : ℕ} {mx : Mat Gf} (hplace : InPlace k mx) (hi : i < k)
    (hlead : ∀ l < i, LeadingAt k mx l) (hnot : ¬LeadingAt k mx i) : invertMatrix mx k = none := by
  obtain ⟨s, hs, e, h⟩ := course hi.le hlead
  have hzero : e i i = 0 := by
    by_contra hpivot
    exact hnot (leadingAt_of_pivot hi h.relates hpivot)
  have hfind : ((List.range k).find? fun j => s.mx j i ≠ 0 && s.unusedRows j) = none := by
    rw [List.find?_eq_none]
    intro j hj
    rw [List.mem_range] at hj
    rw [h.scaled.column hj hi le_rfl, h.unusedRows j hj]
    by_cases hij : i ≤ j
    · simp [column_eq_zero hplace hi hlead h.relates hzero hij hj]
    · simp [hij]
  have hround : tryTo (invertRound k) (i + 1) ⟨mx, fun _ => true, []⟩ = none := by
    rw [tryTo, hs, Option.bind_some, invertRound, hfind]
  unfold invertMatrix
  rw [tryTo_eq_none hround hi, Option.map_none]

/-- The points of the encoder: zero and the powers of two. -/
def point (r : ℕ) : Gf := if r = 0 then 0 else Gf.power r

theorem point_injOn : Set.InjOn point (Finset.range 256) := by
  intro m hm n hn h
  rw [Finset.coe_range, Set.mem_Iio] at hm hn
  unfold point at h
  split_ifs at h with hm0 hn0
  · rw [hm0, hn0]
  · exact absurd h.symm (Gf.power_ne_zero n)
  · exact absurd h (Gf.power_ne_zero m)
  · exact Gf.power_inj ⟨by omega, by omega⟩ ⟨by omega, by omega⟩ h

/-- One more factor of the product over the points. The coefficients lie at the
end of the vector, without the leading one. -/
def productRound (k i : ℕ) (c : ℕ → Gf) : ℕ → Gf :=
  let first := k - 1 - (i - 1)
  let c := forTo (fun t c =>
    Function.update c (first + t) (c (first + t) + Gf.expAt i * c (first + t + 1))) (i - 1) c
  Function.update c (k - 1) (c (k - 1) + Gf.expAt i)

/-- The product without the factor of one point, and its value there. -/
def quotient (k : ℕ) (p : Gf) (c : ℕ → Gf) : (ℕ → Gf) × Gf :=
  forDown (fun i s =>
      (Function.update s.1 i (c (i + 1) + p * s.1 (i + 1)),
        (c (i + 1) + p * s.1 (i + 1)) + p * s.2))
    (k - 1) (Function.update (fun _ => 0) (k - 1) 1, 1)

def createInvertedVdm (k : ℕ) : Mat Gf :=
  if k = 1 then fun _ _ => 1
  else
    let c := forTo (fun i c => productRound k (i + 1) c) (k - 1) fun _ => 0
    fun col row =>
      let out := quotient k (if row ≠ 0 then Gf.expAt row else 0) c
      out.2⁻¹ * out.1 col

theorem forTo_ascending (first : ℕ) (p : Gf) (n : ℕ) (c : ℕ → Gf) (j : ℕ) :
    forTo (fun t c => Function.update c (first + t) (c (first + t) + p * c (first + t + 1))) n c j =
      if first ≤ j ∧ j < first + n then c j + p * c (j + 1) else c j := by
  induction n generalizing j with
  | zero =>
    rw [if_neg (by omega)]
    rfl
  | succ n ih =>
    rw [forTo]
    by_cases hj : j = first + n
    · subst hj
      rw [Function.update_self, ih, ih, if_neg (by omega), if_neg (by omega), if_pos (by omega)]
    · rw [Function.update_of_ne hj, ih]
      exact if_congr (by omega) rfl rfl

theorem productRound_eq {k i : ℕ} (hi : 0 < i) (hik : i < k) (hk : k ≤ 255) (c : ℕ → Gf) (j : ℕ) :
    productRound k i c j =
      if j = k - 1 then c j + Gf.power i
      else if k - i ≤ j ∧ j < k - 1 then c j + Gf.power i * c (j + 1) else c j := by
  unfold productRound
  simp only [Gf.expAt_eq (show i < 510 by omega)]
  by_cases hj : j = k - 1
  · rw [hj, Function.update_self, forTo_ascending, if_neg (by omega), if_pos rfl]
  · rw [Function.update_of_ne hj, forTo_ascending, if_neg hj]
    exact if_congr (by omega) rfl rfl

/-- After the round of `i` the vector holds the product up to the point `i`. Its
constant coefficient is zero, as zero is a point, and so needs no update. -/
theorem product_spec {k : ℕ} (hk : k ≤ 255) {i : ℕ} (hi : i < k) :
    (∀ j ≤ k - 1 - i, forTo (fun i c => productRound k (i + 1) c) i (fun _ => 0) j = 0) ∧
      ∀ z, z ^ (i + 1) + ∑ m ∈ Finset.range (i + 1),
          forTo (fun i c => productRound k (i + 1) c) i (fun _ => 0) (k - 1 - i + m) * z ^ m =
        ∏ l ∈ Finset.range (i + 1), (z + point l) := by
  induction i with
  | zero =>
    refine ⟨fun _ _ => rfl, fun z => ?_⟩
    simp [forTo, point]
  | succ i ih =>
    obtain ⟨hzero, hprod⟩ := ih (by omega)
    rw [forTo]
    generalize forTo (fun i c => productRound k (i + 1) c) i (fun _ => 0) = c at hzero hprod
    have hround := productRound_eq (k := k) (i := i + 1) (by omega) hi hk c
    constructor
    · intro j hj
      rw [hround, if_neg (by omega), if_neg (by omega)]
      exact hzero j (by omega)
    · intro z
      have hpoint : point (i + 1) = Gf.power (i + 1) := if_neg (Nat.succ_ne_zero i)
      have hlow : productRound k (i + 1) c (k - 1 - (i + 1) + 0) = 0 := by
        rw [hround, if_neg (by omega), if_neg (by omega)]
        exact hzero _ (by omega)
      have hhigh : productRound k (i + 1) c (k - 1 - (i + 1) + (i + 1)) =
          c (k - 1 - i + i) + Gf.power (i + 1) := by
        rw [hround, if_pos (by omega)]
        congr 2
        omega
      have hmid : ∀ m ∈ Finset.range i, productRound k (i + 1) c (k - 1 - (i + 1) + (m + 1)) =
          c (k - 1 - i + m) + Gf.power (i + 1) * c (k - 1 - i + (m + 1)) := by
        intro m hm
        rw [Finset.mem_range] at hm
        rw [hround, if_neg (by omega), if_pos (by omega)]
        have hindex : k - 1 - (i + 1) + (m + 1) = k - 1 - i + m := by omega
        rw [hindex, Nat.add_assoc]
      rw [Finset.prod_range_succ, ← hprod, hpoint, Finset.sum_range_succ', hlow,
        Finset.sum_range_succ, hhigh, Finset.sum_congr rfl fun m hm => by rw [hmid m hm]]
      -- the product by the new factor, coefficient by coefficient
      have hsplit : ∑ m ∈ Finset.range i,
            (c (k - 1 - i + m) + Gf.power (i + 1) * c (k - 1 - i + (m + 1))) * z ^ (m + 1) =
          z * ∑ m ∈ Finset.range i, c (k - 1 - i + m) * z ^ m +
            Gf.power (i + 1) * ∑ m ∈ Finset.range i, c (k - 1 - i + (m + 1)) * z ^ (m + 1) := by
        rw [Finset.mul_sum, Finset.mul_sum, ← Finset.sum_add_distrib]
        apply Finset.sum_congr rfl
        intro m _
        ring
      have htop := Finset.sum_range_succ (fun m => c (k - 1 - i + m) * z ^ m) i
      have hbottom := Finset.sum_range_succ' (fun m => c (k - 1 - i + m) * z ^ m) i
      rw [hzero (k - 1 - i + 0) (by omega), zero_mul, add_zero] at hbottom
      linear_combination hsplit - z * htop - Gf.power (i + 1) * hbottom

theorem quotient_spec {k : ℕ} (hk : 0 < k) (p : Gf) (c : ℕ → Gf) :
    (quotient k p c).1 (k - 1) = 1 ∧
      (∀ l < k - 1, (quotient k p c).1 l = c (l + 1) + p * (quotient k p c).1 (l + 1)) ∧
      (quotient k p c).2 = ∑ m ∈ Finset.range k, (quotient k p c).1 m * p ^ m := by
  have hloop := forDown_invariant
    (f := fun i s =>
      (Function.update s.1 i (c (i + 1) + p * s.1 (i + 1)),
        (c (i + 1) + p * s.1 (i + 1)) + p * s.2))
    (n := k - 1) (s := (Function.update (fun _ => (0 : Gf)) (k - 1) 1, 1))
    (fun i s => s.1 (k - 1) = 1 ∧ (∀ l, i ≤ l → l < k - 1 → s.1 l = c (l + 1) + p * s.1 (l + 1)) ∧
      s.2 = ∑ m ∈ Finset.range (k - i), s.1 (i + m) * p ^ m)
    ⟨by simp, fun l hl hl' => absurd hl (by omega), by
      rw [show k - (k - 1) = 1 by omega]
      simp⟩
    (by
      rintro i hi ⟨b, t⟩ ⟨hlead, hstep, hvalue⟩
      simp only at hlead hstep hvalue ⊢
      refine ⟨?_, ?_, ?_⟩
      · rw [Function.update_of_ne (by omega), hlead]
      · intro l hl hl'
        rw [Function.update_of_ne (show l + 1 ≠ i by omega)]
        by_cases hli : l = i
        · rw [hli, Function.update_self]
        · rw [Function.update_of_ne hli]
          exact hstep l (by omega) hl'
      · have hkept : ∀ m ∈ Finset.range (k - (i + 1)),
            Function.update b i (c (i + 1) + p * b (i + 1)) (i + (m + 1)) * p ^ (m + 1) =
              p * (b (i + 1 + m) * p ^ m) := by
          intro m _
          rw [Function.update_of_ne (by omega), show i + (m + 1) = i + 1 + m by omega]
          ring
        rw [show k - i = k - (i + 1) + 1 by omega, Finset.sum_range_succ',
          Finset.sum_congr rfl hkept, ← Finset.mul_sum, ← hvalue]
        simp only [Nat.add_zero, Function.update_self, pow_zero, mul_one]
        ring)
  obtain ⟨hlead, hstep, hvalue⟩ := hloop
  refine ⟨hlead, fun l hl => hstep l (Nat.zero_le l) hl, ?_⟩
  rw [Nat.sub_zero] at hvalue
  simp only [Nat.zero_add] at hvalue
  exact hvalue

/-- Division by a linear factor, from the top coefficient down. -/
theorem horner {k : ℕ} {p : Gf} {b c : ℕ → Gf} (hlead : b (k - 1) = 1)
    (hstep : ∀ l < k - 1, b l = c (l + 1) + p * b (l + 1)) (z : Gf) {n : ℕ} (hn : n < k) :
    (z + p) * ∑ m ∈ Finset.range (n + 1), b (k - 1 - n + m) * z ^ m =
      z ^ (n + 1) + ∑ m ∈ Finset.range (n + 1), c (k - 1 - n + m) * z ^ m +
        (c (k - 1 - n) + p * b (k - 1 - n)) := by
  induction n with
  | zero =>
    simp only [Nat.zero_add, Finset.sum_range_one, Nat.sub_zero, Nat.add_zero, pow_zero, mul_one,
      pow_one, hlead]
    have htwice := CharTwo.add_self_eq_zero (c (k - 1))
    linear_combination -htwice
  | succ n ih =>
    have hprev := ih (by omega)
    have hb := hstep (k - 1 - (n + 1)) (by omega)
    rw [show k - 1 - (n + 1) + 1 = k - 1 - n by omega] at hb
    have hshift : ∀ a : ℕ → Gf, ∑ m ∈ Finset.range (n + 2), a (k - 1 - (n + 1) + m) * z ^ m =
        a (k - 1 - (n + 1)) + z * ∑ m ∈ Finset.range (n + 1), a (k - 1 - n + m) * z ^ m := by
      intro a
      rw [Finset.sum_range_succ', Finset.mul_sum, Nat.add_zero, pow_zero, mul_one, add_comm]
      congr 1
      apply Finset.sum_congr rfl
      intro m _
      rw [show k - 1 - (n + 1) + (m + 1) = k - 1 - n + m by omega]
      ring
    rw [hshift b, hshift c]
    have htwice := CharTwo.add_self_eq_zero (z * b (k - 1 - (n + 1)))
    have htwice' := CharTwo.add_self_eq_zero (c (k - 1 - (n + 1)))
    linear_combination z * hprev + htwice - htwice' - z * hb

/-- The columns of the inverse are the polynomials that are one at their own
point and zero at the others. -/
theorem createInvertedVdm_spec {k : ℕ} (hk : 0 < k) (hle : k ≤ 255) {row r : ℕ} (hrow : row < k)
    (hr : r < k) :
    ∑ i ∈ Finset.range k, createInvertedVdm k i row * point r ^ i = if r = row then 1 else 0 := by
  unfold createInvertedVdm
  by_cases hone : k = 1
  · rw [if_pos hone, hone, if_pos (by omega)]
    simp
  rw [if_neg hone]
  have hpoint : (if row ≠ 0 then Gf.expAt row else 0) = point row := by
    unfold point
    rw [Gf.expAt_eq (by omega)]
    split_ifs <;> first | rfl | contradiction
  simp only [hpoint]
  obtain ⟨-, hprod⟩ := product_spec hle (show k - 1 < k by omega)
  generalize forTo (fun i c => productRound k (i + 1) c) (k - 1) (fun _ => 0) = c at hprod ⊢
  obtain ⟨hlead, hstep, hvalue⟩ := quotient_spec hk (point row) c
  generalize quotient k (point row) c = out at hlead hstep hvalue ⊢
  obtain ⟨b, t⟩ := out
  simp only at hlead hstep hvalue ⊢
  have hdivide : ∀ z, (z + point row) * ∑ m ∈ Finset.range k, b m * z ^ m =
      ∏ l ∈ Finset.range k, (z + point l) + (c 0 + point row * b 0) := by
    intro z
    have hfactor := horner hlead hstep z (show k - 1 < k by omega)
    have hproduct := hprod z
    simp only [Nat.sub_self, Nat.zero_add, Nat.sub_add_cancel hk] at hfactor hproduct
    rw [hfactor, hproduct]
  have hroot : ∀ l < k, ∏ j ∈ Finset.range k, (point l + point j) = 0 := by
    intro l hl
    exact Finset.prod_eq_zero (Finset.mem_range.mpr hl) (CharTwo.add_self_eq_zero _)
  have hrest : c 0 + point row * b 0 = 0 := by
    have hself := hdivide (point row)
    rw [hroot row hrow, CharTwo.add_self_eq_zero, zero_mul, zero_add] at hself
    exact hself.symm
  have hother : ∀ l < k, l ≠ row → ∑ m ∈ Finset.range k, b m * point l ^ m = 0 := by
    intro l hl hne
    have hl' := hdivide (point l)
    rw [hroot l hl, hrest, add_zero] at hl'
    apply (mul_eq_zero.mp hl').resolve_left
    rw [CharTwo.add_eq_zero]
    intro heq
    exact hne (point_injOn (by simp; omega) (by simp; omega) heq)
  have hvalue_ne : t ≠ 0 := by
    intro hzero
    have hpoly : polynomial k b = 0 := by
      apply Polynomial.eq_zero_of_degree_lt_of_eval_index_eq_zero (Finset.range k) (v := point)
      · apply point_injOn.mono
        intro l hl
        simp only [Finset.coe_range, Set.mem_Iio] at hl ⊢
        omega
      · rw [Finset.card_range]
        exact degree_polynomial k b
      · intro l hl
        rw [eval_polynomial]
        by_cases hl' : l = row
        · rw [hl', ← hvalue, hzero]
        · exact hother l (Finset.mem_range.mp hl) hl'
    have hcoeff := coeff_polynomial (show k - 1 < k by omega) b
    rw [hpoly, Polynomial.coeff_zero, hlead] at hcoeff
    exact zero_ne_one hcoeff
  simp only [mul_assoc]
  rw [← Finset.mul_sum]
  split_ifs with h
  · rw [h, ← hvalue, inv_mul_cancel₀ hvalue_ne]
  · rw [hother r hr h, mul_zero]

end OrionNetwork.Fec
