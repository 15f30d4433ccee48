import OrionNetwork.EvaluationCode

/-!
# Reduction of rows of polynomial values

A Vandermonde matrix has in row `r` the values of a polynomial of degree `r`. Row
operations that add a row only to later ones keep this, so the entry on the
diagonal cannot vanish when the entries before it do. Once the square on the left
is the identity, its rows carry the interpolation of every value from those at the
first points.
-/
namespace OrionNetwork.PolynomialRows
open PivotExchange Polynomial

variable {F : Type*} [Field F]

/-- The row has the values of a polynomial at the first `c` points. -/
def Values (x : ℕ → F) (c : ℕ) (row : ℕ → F) (p : F[X]) : Prop := ∀ j < c, row j = p.eval (x j)

/-- The rows have values of polynomials of degree below `k`. -/
def Bounded (x : ℕ → F) (c k : ℕ) (m : Mat F) : Prop :=
  ∀ r < k, ∃ p : F[X], p.degree < k ∧ Values x c (m r) p

/-- The degree is the number of the row. -/
def Graded (x : ℕ → F) (c k : ℕ) (m : Mat F) : Prop :=
  ∀ r < k, ∃ p : F[X], p.degree = r ∧ Values x c (m r) p

/-- The first `n` columns have ones on the diagonal and zeros below it. -/
def Echelon (k n : ℕ) (m : Mat F) : Prop :=
  ∀ l < n, m l l = 1 ∧ ∀ r, l < r → r < k → m r l = 0

/-- The columns from `n` up to `k` are those of the identity. -/
def Cleared (k n : ℕ) (m : Mat F) : Prop :=
  ∀ l, n ≤ l → l < k → ∀ r < k, m r l = if r = l then 1 else 0

def scaleRow (m : Mat F) (i : ℕ) (a : F) : Mat F := Function.update m i fun j => a * m i j

/-- Multiples of row `i` are added to the chosen rows. -/
def addRow (m : Mat F) (i : ℕ) (chosen : ℕ → Prop) [DecidablePred chosen] (a : ℕ → F) : Mat F :=
  fun r j => if chosen r then m r j + a r * m i j else m r j

variable {x : ℕ → F} {c k : ℕ} {m : Mat F}

theorem addRow_of_not {i r : ℕ} {chosen : ℕ → Prop} [DecidablePred chosen] {a : ℕ → F}
    (hr : ¬chosen r) : addRow m i chosen a r = m r := by
  funext j
  exact if_neg hr

theorem addRow_none {i : ℕ} {chosen : ℕ → Prop} [DecidablePred chosen] {a : ℕ → F}
    (h : ∀ r, ¬chosen r) : addRow m i chosen a = m := by
  funext r
  exact addRow_of_not (h r)

/-- Multiples of the same row are added to other rows first and then to these. -/
theorem addRow_addRow {i : ℕ} {first second both : ℕ → Prop} [DecidablePred first]
    [DecidablePred second] [DecidablePred both] {a a' b : ℕ → F} (hi : ¬first i)
    (hboth : ∀ r, both r ↔ first r ∨ second r) (hapart : ∀ r, second r → ¬first r)
    (ha : ∀ r, first r → a r = b r) (ha' : ∀ r, second r → a' r = b r) :
    addRow (addRow m i first a) i second a' = addRow m i both b := by
  funext r j
  unfold addRow
  rw [if_neg hi, if_congr (hboth r) rfl rfl]
  by_cases hsecond : second r
  · rw [if_pos hsecond, if_neg (hapart r hsecond), if_pos (.inr hsecond), ha' r hsecond]
  · by_cases hfirst : first r
    · rw [if_neg hsecond, if_pos hfirst, if_pos (.inl hfirst), ha r hfirst]
    · rw [if_neg hsecond, if_neg hfirst, if_neg (by simp [hsecond, hfirst])]

theorem Values.smul {row : ℕ → F} {p : F[X]} (h : Values x c row p) (a : F) :
    Values x c (fun j => a * row j) (C a * p) := by
  intro j hj
  beta_reduce
  rw [eval_mul, eval_C, h j hj]

theorem Values.add {row row' : ℕ → F} {p p' : F[X]} (h : Values x c row p)
    (h' : Values x c row' p') : Values x c (fun j => row j + row' j) (p + p') := by
  intro j hj
  beta_reduce
  rw [eval_add, h j hj, h' j hj]

theorem degree_multiple_le (a : F) (p : F[X]) : (C a * p).degree ≤ p.degree := by
  rw [← smul_eq_C_mul]
  exact degree_smul_le a p

theorem Graded.bounded (h : Graded x c k m) : Bounded x c k m := by
  intro r hr
  obtain ⟨p, hp, hvalues⟩ := h r hr
  refine ⟨p, ?_, hvalues⟩
  rw [hp]
  exact_mod_cast hr

/-- With zeros before the diagonal and on it there would be more roots than the
degree allows. -/
theorem Graded.diagonal_ne_zero (h : Graded x c k m) (hkc : k ≤ c)
    (hinj : Set.InjOn x (Finset.range c)) {i : ℕ} (hi : i < k) (hbefore : ∀ l < i, m i l = 0) :
    m i i ≠ 0 := by
  intro hzero
  obtain ⟨p, hdegree, hvalues⟩ := h i hi
  have hp : p = 0 := by
    apply eq_zero_of_degree_lt_of_eval_index_eq_zero (Finset.range (i + 1)) (v := x)
    · apply hinj.mono
      intro l hl
      simp only [Finset.coe_range, Set.mem_Iio] at hl ⊢
      omega
    · rw [hdegree, Finset.card_range]
      exact_mod_cast Nat.lt_succ_self i
    · intro l hl
      rw [Finset.mem_range] at hl
      rw [← hvalues l (by omega)]
      by_cases hli : l = i
      · rw [hli, hzero]
      · exact hbefore l (by omega)
  rw [hp, degree_zero] at hdegree
  exact WithBot.bot_ne_coe hdegree

theorem Graded.scaleRow (h : Graded x c k m) (i : ℕ) {a : F} (ha : a ≠ 0) :
    Graded x c k (scaleRow m i a) := by
  intro r hr
  obtain ⟨p, hdegree, hvalues⟩ := h r hr
  unfold PolynomialRows.scaleRow
  by_cases hri : r = i
  · subst hri
    rw [Function.update_self]
    exact ⟨C a * p, by rw [degree_C_mul ha, hdegree], hvalues.smul a⟩
  · rw [Function.update_of_ne hri]
    exact ⟨p, hdegree, hvalues⟩

/-- A row is added to later ones. -/
theorem Graded.addRow (h : Graded x c k m) {i : ℕ} (hi : i < k) {chosen : ℕ → Prop}
    [DecidablePred chosen] (hlater : ∀ r, chosen r → i < r) (a : ℕ → F) :
    Graded x c k (addRow m i chosen a) := by
  intro r hr
  obtain ⟨p, hdegree, hvalues⟩ := h r hr
  obtain ⟨q, hdegree', hvalues'⟩ := h i hi
  unfold PolynomialRows.addRow
  by_cases hchosen : chosen r
  · simp only [if_pos hchosen]
    refine ⟨p + C (a r) * q, ?_, hvalues.add (hvalues'.smul (a r))⟩
    rw [degree_add_eq_left_of_degree_lt, hdegree]
    calc (C (a r) * q).degree ≤ q.degree := degree_multiple_le (a r) q
      _ = i := hdegree'
      _ < r := by exact_mod_cast hlater r hchosen
      _ = p.degree := hdegree.symm
  · simp only [if_neg hchosen]
    exact ⟨p, hdegree, hvalues⟩

theorem Bounded.addRow (h : Bounded x c k m) {i : ℕ} (hi : i < k) (chosen : ℕ → Prop)
    [DecidablePred chosen] (a : ℕ → F) : Bounded x c k (addRow m i chosen a) := by
  intro r hr
  obtain ⟨p, hdegree, hvalues⟩ := h r hr
  obtain ⟨q, hdegree', hvalues'⟩ := h i hi
  unfold PolynomialRows.addRow
  by_cases hchosen : chosen r
  · simp only [if_pos hchosen]
    refine ⟨p + C (a r) * q, ?_, hvalues.add (hvalues'.smul (a r))⟩
    apply lt_of_le_of_lt (degree_add_le _ _)
    exact max_lt hdegree (lt_of_le_of_lt (degree_multiple_le (a r) q) hdegree')
  · simp only [if_neg hchosen]
    exact ⟨p, hdegree, hvalues⟩

/-- One more column with a one on the diagonal and zeros below it. -/
theorem Echelon.eliminate {n : ℕ} (h : Echelon k n m) (hn : n < k) {a : ℕ → F}
    (hone : m n n = 1) (ha : ∀ r, m r n + a r = 0) :
    Echelon k (n + 1) (PolynomialRows.addRow m n (fun r => n < r ∧ r < k) a) := by
  intro l hl
  unfold PolynomialRows.addRow
  rw [if_neg (by omega)]
  by_cases hln : l = n
  · subst hln
    refine ⟨hone, fun r hlr hr => ?_⟩
    rw [if_pos ⟨hlr, hr⟩, hone, mul_one, ha]
  · refine ⟨(h l (by omega)).1, fun r hlr hr => ?_⟩
    rw [(h l (by omega)).2 r hlr hr, (h l (by omega)).2 n (by omega) hn, mul_zero, add_zero,
      ite_self]

theorem Echelon.scaleRow {n : ℕ} (h : Echelon k n m) (hn : n < k) (a : F) :
    Echelon k n (scaleRow m n a) := by
  intro l hl
  unfold PolynomialRows.scaleRow
  refine ⟨?_, fun r hlr hr => ?_⟩
  · rw [Function.update_of_ne (by omega)]
    exact (h l hl).1
  · by_cases hrn : r = n
    · subst hrn
      rw [Function.update_self, (h l hl).2 r hlr hr, mul_zero]
    · rw [Function.update_of_ne hrn]
      exact (h l hl).2 r hlr hr

/-- Row `n` has become one of the identity, and clears its column above. -/
theorem Cleared.eliminate {n : ℕ} (h : Cleared k (n + 1) m) (hech : Echelon k k m) (hn : n < k)
    {a : ℕ → F} (ha : ∀ r, m r n + a r = 0) :
    Cleared k n (PolynomialRows.addRow m n (fun r => r < n) a) ∧
      Echelon k k (PolynomialRows.addRow m n (fun r => r < n) a) := by
  have hrow : ∀ l < k, m n l = if n = l then 1 else 0 := by
    intro l hl
    by_cases hnl : n < l
    · exact h l hnl hl n hn
    · by_cases heq : n = l
      · rw [← heq, if_pos rfl]
        exact (hech n hn).1
      · rw [if_neg heq]
        exact (hech l hl).2 n (by omega) hn
  unfold PolynomialRows.addRow
  constructor
  · intro l hnl hl r hr
    beta_reduce
    rw [hrow l hl]
    by_cases heq : n = l
    · subst heq
      by_cases hrn : r < n
      · rw [if_pos hrn, if_pos rfl, mul_one, ha, if_neg (by omega)]
      · rw [if_neg hrn]
        by_cases hrn' : r = n
        · rw [hrn', if_pos rfl]
          exact (hech n hn).1
        · rw [if_neg hrn']
          exact (hech n hn).2 r (by omega) hr
    · rw [if_neg heq, mul_zero, add_zero, ite_self]
      exact h l (by omega) hl r hr
  · intro l hl
    beta_reduce
    rw [hrow l hl]
    refine ⟨?_, fun r hlr hr => ?_⟩
    · split_ifs
      · omega
      · rw [mul_zero, add_zero]
        exact (hech l hl).1
      · exact (hech l hl).1
    · split_ifs
      · omega
      · rw [mul_zero, add_zero]
        exact (hech l hl).2 r hlr hr
      · exact (hech l hl).2 r hlr hr

/-- The values at the first `k` points determine the others. -/
theorem Bounded.interpolate (h : Bounded x c k m) (hclear : Cleared k 0 m) (hkc : k ≤ c)
    (hinj : Set.InjOn x (Finset.range c)) {p : F[X]} (hp : p.degree < k) {j : ℕ} (hj : j < c) :
    p.eval (x j) = ∑ r ∈ Finset.range k, p.eval (x r) * m r j := by
  choose! q hdegree hvalues using h
  let s := ∑ r ∈ Finset.range k, C (p.eval (x r)) * q r
  have heval : ∀ l < c, s.eval (x l) = ∑ r ∈ Finset.range k, p.eval (x r) * m r l := by
    intro l hl
    rw [eval_finsetSum]
    apply Finset.sum_congr rfl
    intro r hr
    rw [eval_mul, eval_C, hvalues r (Finset.mem_range.mp hr) l hl]
  have hsame : p = s := by
    apply eq_of_degrees_lt_of_eval_index_eq (Finset.range k) (v := x)
    · apply hinj.mono
      intro l hl
      simp only [Finset.coe_range, Set.mem_Iio] at hl ⊢
      omega
    · rw [Finset.card_range]
      exact hp
    · rw [Finset.card_range, ← mem_degreeLT]
      apply Submodule.sum_mem
      intro r hr
      rw [← smul_eq_C_mul]
      apply Submodule.smul_mem
      rw [mem_degreeLT]
      exact hdegree r (Finset.mem_range.mp hr)
    · intro l hl
      have hl' := Finset.mem_range.mp hl
      rw [heval l (by omega), Finset.sum_eq_single_of_mem l hl]
      · rw [hclear l (Nat.zero_le l) hl' l hl', if_pos rfl, mul_one]
      · intro r hr hrl
        rw [hclear l (Nat.zero_le l) hl' r (Finset.mem_range.mp hr), if_neg hrl, mul_zero]
  rw [← heval j hj, ← hsame]

end OrionNetwork.PolynomialRows
