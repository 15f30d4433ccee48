import OrionNetwork.FecRebuild
import OrionNetwork.PolynomialRows

/-!
# The syndrome of the shares

The columns of a Vandermonde matrix that belong to the shares are brought to
standard form, with the identity on the left, and what is on the right gives the
checks: one for each share behind the first `required`. Shares of a codeword pass
all of them.
-/
namespace OrionNetwork.Fec
open Galois Loops PivotExchange EvaluationCode PolynomialRows

/-- Row `a` times `fac` is added to row `b`. -/
def matrixAddMulRows (mx : Mat Gf) (a b : ℕ) (fac : Gf) : Mat Gf :=
  Function.update mx b fun j => mx b j + fac * mx a j

/-- The first row from the diagonal on with an entry in the column. -/
def pivotBelow (mx : Mat Gf) (r i : ℕ) : Option ℕ :=
  (List.range' i (r - i)).find? fun j => mx j i ≠ 0

/-- A column without a pivot is skipped. The pivot is not zero, so the division
does not fail. -/
def standardizeRound (r i : ℕ) (mx : Mat Gf) : Mat Gf :=
  match pivotBelow mx r i with
  | none => mx
  | some pRow =>
    let pVal := mx pRow i
    let mx := if pRow ≠ i then matrixSwapRows mx i pRow else mx
    match Gf.div 1 pVal with
    | none => mx
    | some inv =>
      forTo (fun t mx => matrixAddMulRows mx i (i + 1 + t) (mx (i + 1 + t) i)) (r - (i + 1))
        (Function.update mx i fun j => inv * mx i j)

def standardizeMatrix (mx : Mat Gf) (r : ℕ) : Mat Gf :=
  forDown (fun i mx => forDown (fun j mx => matrixAddMulRows mx i j (mx j i)) i mx) r
    (forTo (standardizeRound r) r mx)

/-- A row for each column behind the square, and the size of the result. -/
def parityMatrix (mx : Mat Gf) (r c : ℕ) : Mat Gf × ℕ × ℕ :=
  (fun i j => if j < r then mx j (i + r) else if j = i + r then 1 else 0, c - r, c)

/-- The numbers that have a share, in ascending order. -/
def keepers (f : Fec) (shares : List Share) : List ℕ :=
  (List.range f.total).filter fun col => shares.any fun s => s.number = col

def syndromeMatrix (f : Fec) (shares : List Share) : Mat Gf × ℕ × ℕ :=
  parityMatrix
    (standardizeMatrix (fun row j => f.vandMatrix row ((f.keepers shares).getD j 0)) f.required)
    f.required shares.length

section Standard

variable {k : ℕ} {mx : Mat Gf}

theorem matrixAddMulRows_eq (mx : Mat Gf) (a b : ℕ) (fac : Gf) :
    matrixAddMulRows mx a b fac = addRow mx a (· = b) fun _ => fac := by
  funext r j
  unfold matrixAddMulRows addRow
  split_ifs with hr
  · rw [hr, Function.update_self]
  · rw [Function.update_of_ne hr]

/-- A row is added to row `i + 1 + n` after the rows before, with the factor that stands there. -/
theorem addMulRows_above {i n : ℕ} {mx : Mat Gf} {a : ℕ → Gf} :
    matrixAddMulRows (addRow mx i (fun r => i < r ∧ r < i + 1 + n) a) i (i + 1 + n)
        (a (i + 1 + n)) =
      addRow mx i (fun r => i < r ∧ r < i + 1 + (n + 1)) a := by
  rw [matrixAddMulRows_eq]
  refine addRow_addRow (by omega) (fun r => by omega) (fun r hr => by omega) (fun _ _ => rfl) ?_
  rintro r rfl
  rfl

theorem forTo_addMulRows (i n : ℕ) (mx : Mat Gf) :
    forTo (fun t mx => matrixAddMulRows mx i (i + 1 + t) (mx (i + 1 + t) i)) n mx =
      addRow mx i (fun r => i < r ∧ r < i + 1 + n) fun r => mx r i := by
  induction n with
  | zero => exact (addRow_none fun r => by omega).symm
  | succ n ih =>
    rw [forTo, ih, addRow_of_not (by omega)]
    exact addMulRows_above

/-- The rows above are reached from the lower ones on. -/
theorem addRow_below {i n : ℕ} (hn : n < i) {mx : Mat Gf} {a b : ℕ → Gf}
    (ha : ∀ r, r < n → a r = b r) :
    addRow (matrixAddMulRows mx i n (b n)) i (fun r => r < n) a =
      addRow mx i (fun r => r < n + 1) b := by
  rw [matrixAddMulRows_eq]
  refine addRow_addRow (by omega) (fun r => by omega) (fun r hr => by omega) ?_ ha
  rintro r rfl
  rfl

theorem forDown_addMulRows (i : ℕ) {n : ℕ} (hn : n ≤ i) (mx : Mat Gf) :
    forDown (fun j mx => matrixAddMulRows mx i j (mx j i)) n mx =
      addRow mx i (fun r => r < n) fun r => mx r i := by
  induction n generalizing mx with
  | zero => exact (addRow_none fun r => Nat.not_lt_zero r).symm
  | succ n ih =>
    rw [forDown, ih (by omega)]
    refine addRow_below (b := fun r => mx r i) hn fun r hr => ?_
    rw [matrixAddMulRows, Function.update_of_ne hr.ne]

/-- The pivot is on the diagonal, so no rows are swapped. -/
theorem standardizeRound_eq {i : ℕ} (hi : i < k) (hpivot : mx i i ≠ 0) :
    standardizeRound k i mx =
      addRow (scaleRow mx i (mx i i)⁻¹) i (fun r => i < r ∧ r < k)
        fun r => scaleRow mx i (mx i i)⁻¹ r i := by
  have hfind : pivotBelow mx k i = some i := by
    unfold pivotBelow
    obtain ⟨n, hn⟩ : ∃ n, k - i = n + 1 := ⟨k - i - 1, by omega⟩
    rw [hn, List.range'_succ, List.find?_cons_of_pos (by simpa using hpivot)]
  unfold standardizeRound
  simp only [hfind, ne_eq, not_true_eq_false, if_false, div_one hpivot]
  rw [forTo_addMulRows, show i + 1 + (k - (i + 1)) = k by omega]
  rfl

variable {x : ℕ → Gf} {c : ℕ}

/-- The identity appears on the left, and the rows stay values of polynomials. -/
theorem standardizeMatrix_spec (hgraded : Graded x c k mx) (hkc : k ≤ c)
    (hinj : Set.InjOn x (Finset.range c)) :
    Bounded x c k (standardizeMatrix mx k) ∧ Cleared k 0 (standardizeMatrix mx k) := by
  have hforward : Graded x c k (forTo (standardizeRound k) k mx) ∧
      Echelon k k (forTo (standardizeRound k) k mx) := by
    refine forTo_invariant (fun i mx => Graded x c k mx ∧ Echelon k i mx)
      ⟨hgraded, fun l hl => absurd hl (Nat.not_lt_zero l)⟩ ?_
    intro i hi mx ⟨hrows, hech⟩
    have hpivot : mx i i ≠ 0 :=
      hrows.diagonal_ne_zero hkc hinj hi fun l hl => (hech l hl).2 i hl hi
    have hone : scaleRow mx i (mx i i)⁻¹ i i = 1 := by
      unfold scaleRow
      rw [Function.update_self, inv_mul_cancel₀ hpivot]
    rw [standardizeRound_eq hi hpivot]
    constructor
    · exact (hrows.scaleRow i (inv_ne_zero hpivot)).addRow hi (fun r hr => hr.1) _
    · exact (hech.scaleRow hi _).eliminate hi hone fun r => CharTwo.add_self_eq_zero _
  have hback := forDown_invariant
    (f := fun i mx => forDown (fun j mx => matrixAddMulRows mx i j (mx j i)) i mx) (n := k)
    (s := forTo (standardizeRound k) k mx)
    (fun i mx => Bounded x c k mx ∧ Cleared k i mx ∧ Echelon k k mx)
    ⟨hforward.1.bounded, fun l hl hl' => absurd hl' (by omega), hforward.2⟩
    (by
      intro i hi mx ⟨hrows, hclear, hech⟩
      rw [forDown_addMulRows i le_rfl]
      obtain ⟨hclear', hech'⟩ := hclear.eliminate hech hi fun r => CharTwo.add_self_eq_zero (mx r i)
      exact ⟨hrows.addRow hi _ _, hclear', hech'⟩)
  exact ⟨hback.1, hback.2.1⟩

/-- A check compares a value with the interpolation from the first ones. -/
theorem apply_parityMatrix (v : ℕ → Gf) {i : ℕ} (hi : i < c - k) :
    apply c (parityMatrix mx k c).1 v i = (∑ j ∈ Finset.range k, v j * mx j (i + k)) + v (i + k) := by
  have hterms : ∀ j ∈ Finset.range c, (parityMatrix mx k c).1 i j * v j =
      (if j < k then v j * mx j (i + k) else 0) + if j = i + k then v (i + k) else 0 := by
    intro j _
    simp only [parityMatrix]
    by_cases hjk : j < k
    · rw [if_pos hjk, if_pos hjk, if_neg (by omega), add_zero, mul_comm]
    · rw [if_neg hjk, if_neg hjk, zero_add]
      by_cases hji : j = i + k
      · rw [if_pos hji, if_pos hji, hji, one_mul]
      · rw [if_neg hji, if_neg hji, zero_mul]
  have hsquare : (Finset.range c).filter (fun j => j < k) = Finset.range k := by
    ext j
    simp only [Finset.mem_filter, Finset.mem_range]
    omega
  unfold apply
  rw [Finset.sum_congr rfl hterms, Finset.sum_add_distrib, ← Finset.sum_filter, hsquare,
    Finset.sum_ite_eq', if_pos (Finset.mem_range.mpr (by omega))]

/-- Values of a polynomial pass the checks. -/
theorem parityMatrix_standard (hbounded : Bounded x c k mx) (hclear : Cleared k 0 mx) (hkc : k ≤ c)
    (hinj : Set.InjOn x (Finset.range c)) {p : Polynomial Gf} (hp : p.degree < k) {i : ℕ}
    (hi : i < c - k) : apply c (parityMatrix mx k c).1 (fun j => p.eval (x j)) i = 0 := by
  rw [apply_parityMatrix _ hi,
    ← hbounded.interpolate hclear hkc hinj hp (show i + k < c by omega)]
  exact CharTwo.add_self_eq_zero _

end Standard

theorem newVandMatrix_eq (row : ℕ) {col : ℕ} (hcol : col ≠ 0) :
    newVandMatrix row col = Gf.power (row * (col - 1)) := by
  have hbase : (fun g => Gf.ofNat 2 * g)^[row] 1 = Gf.power row := by
    rw [mul_left_iterate_apply_one, Gf.power_eq_pow row]
    rfl
  unfold newVandMatrix
  rw [if_neg hcol, hbase, mul_left_iterate_apply_one, Gf.power_pow]

/-- The matrix uses the points of the encoder divided by two, which does not change
the degree of the rows. -/
theorem graded_newVandMatrix (number : ℕ → ℕ) (c k : ℕ) :
    Graded (fun j => point (number j)) c k fun row j => newVandMatrix row (number j) := by
  intro r _
  refine ⟨Polynomial.C ((Gf.power r)⁻¹) * Polynomial.X ^ r,
    Polynomial.degree_C_mul_X_pow r (inv_ne_zero (Gf.power_ne_zero r)), fun j _ => ?_⟩
  rw [Polynomial.eval_mul, Polynomial.eval_C, Polynomial.eval_pow, Polynomial.eval_X]
  beta_reduce
  by_cases hzero : number j = 0
  · unfold newVandMatrix point
    rw [if_pos hzero, if_pos hzero]
    by_cases hr : r = 0
    · rw [if_pos hr, hr, pow_zero, Gf.power_zero, inv_one, mul_one]
    · rw [if_neg hr, zero_pow hr, mul_zero]
  · rw [newVandMatrix_eq r hzero, point, if_neg hzero, Gf.power_pow,
      eq_inv_mul_iff_mul_eq₀ (Gf.power_ne_zero r), Gf.power_mul_power]
    congr 1
    obtain ⟨n, hn⟩ := Nat.exists_eq_succ_of_ne_zero hzero
    rw [hn, Nat.succ_eq_add_one, Nat.add_sub_cancel]
    ring

section Syndrome

variable {required total size parityLen : ℕ} {f : Fec} {data parity : List Gf}
  {shares : List Share}

/-- Shares in ascending order have the columns of their numbers. -/
theorem keepers_eq (hsorted : (shares.map (·.number)).Pairwise (· < ·))
    (hlt : ∀ s ∈ shares, s.number < f.total) : f.keepers shares = shares.map (·.number) := by
  have hascending : (f.keepers shares).Pairwise (· < ·) :=
    List.pairwise_lt_range.sublist List.filter_sublist
  have hperm : (f.keepers shares).Perm (shares.map (·.number)) := by
    rw [List.perm_ext_iff_of_nodup (hascending.imp fun h => h.ne) (hsorted.imp fun h => h.ne)]
    intro n
    unfold keepers
    rw [List.mem_filter, List.mem_range, List.any_eq_true, List.mem_map]
    constructor
    · rintro ⟨-, s, hs, hn⟩
      exact ⟨s, hs, by simpa using hn⟩
    · rintro ⟨s, hs, rfl⟩
      exact ⟨hlt s hs, s, hs, by simp⟩
  exact hperm.eq_of_pairwise' (hascending.imp fun h => h.le) (hsorted.imp fun h => h.le)

theorem getD_number {j : ℕ} (hj : j < shares.length) :
    (shares.map (·.number)).getD j 0 = shares[j].number := by
  rw [List.getD_eq_getElem _ _ (by simpa using hj), List.getElem_map]

/-- The points of the shares are distinct. -/
theorem injOn_point_number (hnodup : (shares.map (·.number)).Nodup)
    (hlt : ∀ s ∈ shares, s.number < 256) :
    Set.InjOn (fun j => point ((shares.map (·.number)).getD j 0)) (Finset.range shares.length) := by
  intro a ha b hb hab
  rw [Finset.coe_range, Set.mem_Iio] at ha hb
  beta_reduce at hab
  rw [getD_number ha, getD_number hb] at hab
  have hsame := point_injOn (by simpa using hlt _ (List.getElem_mem ha))
    (by simpa using hlt _ (List.getElem_mem hb)) hab
  have ha' : a < (shares.map (·.number)).length := by simpa using ha
  have hb' : b < (shares.map (·.number)).length := by simpa using hb
  have hget : (shares.map (·.number))[a] = (shares.map (·.number))[b] := by
    rw [List.getElem_map, List.getElem_map, hsame]
  exact hnodup.getElem_inj_iff.mp hget

end Syndrome

end OrionNetwork.Fec
