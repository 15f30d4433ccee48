import OrionNetwork.PivotExchange
import Mathlib.LinearAlgebra.Lagrange

/-!
# Systematic codes by polynomial evaluation

The symbols of a codeword are the values of a polynomial of degree below `k` at
distinct points, and the first `k` of them are the message. Any `k` symbols that
are zero make all of them zero. So the square matrix of any `k` symbols, with
each message symbol in its own row, can be inverted on the diagonal, and its
inverse has no zero in the row of a symbol that is missing.

A repair overwrites the missing message symbols one after the other, and reads
what it has already overwritten.
-/
namespace OrionNetwork.EvaluationCode
open Loops PivotExchange Polynomial

variable {F : Type*} [Field F]

/-- A polynomial given by its coefficients. -/
noncomputable def polynomial (k : ℕ) (b : ℕ → F) : F[X] :=
  ∑ m ∈ Finset.range k, C (b m) * X ^ m

theorem eval_polynomial (k : ℕ) (b : ℕ → F) (z : F) :
    (polynomial k b).eval z = ∑ m ∈ Finset.range k, b m * z ^ m := by
  simp [polynomial, eval_finsetSum]

theorem degree_polynomial (k : ℕ) (b : ℕ → F) : (polynomial k b).degree < k := by
  rw [← mem_degreeLT]
  apply Submodule.sum_mem
  intro m hm
  rw [mem_degreeLT]
  apply lt_of_le_of_lt (degree_C_mul_X_pow_le m (b m))
  exact_mod_cast Finset.mem_range.mp hm

theorem coeff_polynomial {k m : ℕ} (hm : m < k) (b : ℕ → F) : (polynomial k b).coeff m = b m := by
  simp [polynomial, coeff_X_pow, hm]

theorem polynomial_coeff {k : ℕ} {p : F[X]} (hp : p.degree < k) : polynomial k p.coeff = p := by
  ext m
  by_cases hm : m < k
  · exact coeff_polynomial hm _
  · rw [coeff_eq_zero_of_degree_lt, coeff_eq_zero_of_degree_lt]
    · exact hp.trans_le (by exact_mod_cast Nat.le_of_not_lt hm)
    · exact (degree_polynomial k _).trans_le (by exact_mod_cast Nat.le_of_not_lt hm)

theorem polynomial_eq_zero {k : ℕ} {b : ℕ → F} (hb : ∀ m < k, b m = 0) : polynomial k b = 0 := by
  apply Finset.sum_eq_zero
  intro m hm
  rw [hb m (Finset.mem_range.mp hm), C_0, zero_mul]

/-- `enc` maps messages of length `k` to codewords of length `n`, the values at
the points `x`. -/
structure Systematic (enc : Mat F) (x : ℕ → F) (k n : ℕ) : Prop where
  le : k ≤ n
  injOn : Set.InjOn x (Finset.range n)
  identity : ∀ r < k, ∀ j < k, enc r j = if r = j then 1 else 0
  evaluates : ∀ d, ∃ p : F[X], p.degree < k ∧ ∀ r < n, p.eval (x r) = apply k enc d r

/-- The symbol at each place of a message: itself, or one from behind the message. -/
structure Selection (k n : ℕ) (slot : ℕ → ℕ) : Prop where
  lt : ∀ r < k, slot r < n
  injOn : Set.InjOn slot (Finset.range k)
  own : ∀ r < k, slot r = r ∨ k ≤ slot r

/-- The rows of the selected symbols. -/
def select (enc : Mat F) (slot : ℕ → ℕ) : Mat F := fun r => enc (slot r)

/-- Values at distinct points belong to one polynomial of low degree. -/
theorem existsUnique_polynomial {k : ℕ} {x : ℕ → F} (hinj : Set.InjOn x (Finset.range k)) (d : ℕ → F) :
    ∃! p : F[X], p.degree < k ∧ ∀ j < k, p.eval (x j) = d j := by
  refine ⟨Lagrange.interpolate (Finset.range k) x d, ⟨?_, fun j hj => ?_⟩, ?_⟩
  · simpa using Lagrange.degree_interpolate_lt d hinj
  · exact Lagrange.eval_interpolate_at_node d hinj (Finset.mem_range.mpr hj)
  · rintro p ⟨hdegree, heval⟩
    apply Lagrange.eq_interpolate_of_eval_eq d hinj
    · rwa [Finset.card_range]
    · intro j hj
      exact heval j (Finset.mem_range.mp hj)

namespace Systematic

variable {enc : Mat F} {x : ℕ → F} {k n : ℕ} {slot : ℕ → ℕ} {d : ℕ → F}

theorem apply_message (hc : Systematic enc x k n) {r : ℕ} (hr : r < k) : apply k enc d r = d r := by
  have hterms : ∀ j ∈ Finset.range k, enc r j * d j = if r = j then d j else 0 := by
    intro j hj
    rw [hc.identity r hr j (Finset.mem_range.mp hj), ite_mul, one_mul, zero_mul]
  unfold apply
  rw [Finset.sum_congr rfl hterms, Finset.sum_ite_eq, if_pos (Finset.mem_range.mpr hr)]

/-- A codeword has the values of the polynomial through its message. -/
theorem apply_eq_eval (hc : Systematic enc x k n) {p : F[X]}
    (hdegree : p.degree < k) (heval : ∀ j < k, p.eval (x j) = d j) {r : ℕ} (hr : r < n) :
    apply k enc d r = p.eval (x r) := by
  obtain ⟨q, hq, hvalues⟩ := hc.evaluates d
  have hkn := hc.le
  have hinj : Set.InjOn x (Finset.range k) := by
    apply hc.injOn.mono
    intro j hj
    simp only [Finset.coe_range, Set.mem_Iio] at hj ⊢
    omega
  have hsame := (existsUnique_polynomial hinj d).unique ⟨hdegree, heval⟩
    ⟨hq, fun j hj => by rw [hvalues j (by omega), hc.apply_message hj]⟩
  rw [hsame, hvalues r hr]

/-- A polynomial of degree below `k` with `k` roots is zero. -/
theorem apply_eq_zero (hc : Systematic enc x k n) {s : Finset ℕ} (hs : s ⊆ Finset.range n)
    (hcard : k ≤ s.card) (hzero : ∀ r ∈ s, apply k enc d r = 0) {r : ℕ} (hr : r < n) :
    apply k enc d r = 0 := by
  obtain ⟨p, hdegree, heval⟩ := hc.evaluates d
  have hp : p = 0 := by
    apply eq_zero_of_degree_lt_of_eval_index_eq_zero s (v := x)
    · exact hc.injOn.mono (Finset.coe_subset.mpr hs)
    · exact lt_of_lt_of_le hdegree (by exact_mod_cast hcard)
    · intro i hi
      rw [heval i (Finset.mem_range.mp (hs hi)), hzero i hi]
  rw [← heval r hr, hp, eval_zero]

/-- The same for `k` symbols that are listed without repetition. -/
theorem apply_eq_zero_of_injOn (hc : Systematic enc x k n) {g : ℕ → ℕ} (hlt : ∀ r < k, g r < n)
    (hinj : Set.InjOn g (Finset.range k)) (hzero : ∀ r < k, apply k enc d (g r) = 0) {r : ℕ}
    (hr : r < n) : apply k enc d r = 0 := by
  apply hc.apply_eq_zero (s := (Finset.range k).image g) _ _ _ hr
  · intro l hl
    obtain ⟨r, hr, rfl⟩ := Finset.mem_image.mp hl
    exact Finset.mem_range.mpr (hlt r (Finset.mem_range.mp hr))
  · rw [Finset.card_image_of_injOn hinj, Finset.card_range]
  · intro l hl
    obtain ⟨r, hr, rfl⟩ := Finset.mem_image.mp hl
    exact hzero r (Finset.mem_range.mp hr)

/-- The selected symbols up to `i` and those of the message behind it are `k` many. -/
theorem leading (hc : Systematic enc x k n) (hsel : Selection k n slot) :
    Leading k (select enc slot) := by
  intro i hi w hend hrows
  have hkn := hc.le
  let g := fun r => if r ≤ i then slot r else r
  have hall : apply k enc w i = 0 := by
    apply hc.apply_eq_zero_of_injOn (g := g) _ _ _ (by omega)
    · intro r hr
      simp only [g]
      split_ifs
      · exact hsel.lt r hr
      · omega
    · intro r hr r' hr' heq
      rw [Finset.coe_range, Set.mem_Iio] at hr hr'
      have hown := hsel.own r hr
      have hown' := hsel.own r' hr'
      simp only [g] at heq
      split_ifs at heq
      · exact hsel.injOn (by simpa using hr) (by simpa using hr') heq
      · omega
      · omega
      · exact heq
    · intro r hr
      simp only [g]
      split_ifs with hri
      · exact hrows r hri
      · rw [hc.apply_message hr]
        exact hend r (by omega) hr
  rwa [hc.apply_message hi] at hall

/-- A symbol from behind the message depends on more than one message symbol,
unless there is only one. -/
theorem simple (hc : Systematic enc x k n) (hsel : Selection k n slot) {i : ℕ} (hi : i < k)
    (hoff : ∀ j < k, j ≠ i → select enc slot i j = 0) : select enc slot i i = 1 := by
  rcases hsel.own i hi with hown | hother
  · change enc (slot i) i = 1
    rw [hown, hc.identity i hi i hi, if_pos rfl]
  by_cases hone : k = 1
  · -- all values of a constant are equal
    obtain ⟨p, hdegree, heval⟩ := hc.evaluates fun _ => 1
    have hconst := eq_C_of_degree_le_zero (p := p) (by
      rw [hone] at hdegree
      exact Nat.WithBot.lt_one_iff_le_zero.mp hdegree)
    have hvalue : ∀ r < n, enc r 0 = p.coeff 0 := by
      intro r hr
      have hr' := heval r hr
      rw [hconst, eval_C, hone] at hr'
      simpa [apply] using hr'.symm
    have hkn := hc.le
    have hi0 : i = 0 := by omega
    change enc (slot i) i = 1
    rw [hi0, hvalue (slot 0) (hsel.lt 0 (by omega)), ← hvalue 0 (by omega),
      hc.identity 0 (by omega) 0 (by omega), if_pos rfl]
  · -- a message with a single symbol, which is not seen at the slot
    exfalso
    obtain ⟨j, hj, hji⟩ : ∃ j < k, j ≠ i := by
      by_cases hi0 : i = 0
      · exact ⟨1, by omega, by omega⟩
      · exact ⟨0, by omega, by omega⟩
    let d : ℕ → F := fun l => if l = j then 1 else 0
    have hcolumn : ∀ r, apply k enc d r = enc r j := by
      intro r
      unfold apply
      simp only [d, mul_ite, mul_one, mul_zero]
      rw [Finset.sum_ite_eq', if_pos (Finset.mem_range.mpr hj)]
    let g := fun r => if r = j then slot i else r
    have hkn := hc.le
    have hall : apply k enc d j = 0 := by
      apply hc.apply_eq_zero_of_injOn (g := g) _ _ _ (by omega)
      · intro r hr
        simp only [g]
        split_ifs
        · exact hsel.lt i hi
        · omega
      · intro r hr r' hr' heq
        rw [Finset.coe_range, Set.mem_Iio] at hr hr'
        simp only [g] at heq
        split_ifs at heq <;> omega
      · intro r hr
        simp only [g]
        split_ifs with hrj
        · rw [hcolumn]
          exact hoff j hj hji
        · rw [hc.apply_message hr]
          exact if_neg hrj
    rw [hc.apply_message hj] at hall
    simp [d] at hall

/-- If the entry were zero, the column would be a message with `k` symbols zero,
among them the missing one, and one symbol not zero. -/
theorem inverse_ne_zero (hc : Systematic enc x k n) (hsel : Selection k n slot) {inv : Mat F}
    (hinv : ∀ w y, (∀ r < k, w r = apply k inv y r) ↔ ∀ r < k, y r = apply k (select enc slot) w r)
    {a b : ℕ} (ha : a < k) (hb : b < k) (hmissing : k ≤ slot b) : inv b a ≠ 0 := by
  intro hentry
  let y : ℕ → F := fun r => if r = a then 1 else 0
  have hcolumn : ∀ r, apply k inv y r = inv r a := by
    intro r
    unfold apply
    simp only [y, mul_ite, mul_one, mul_zero]
    rw [Finset.sum_ite_eq', if_pos (Finset.mem_range.mpr ha)]
  have hrows := (hinv (fun r => inv r a) y).mp fun r _ => (hcolumn r).symm
  let g := fun r => if r = a then b else slot r
  have hkn := hc.le
  have hall : apply k enc (fun r => inv r a) (slot a) = 0 := by
    apply hc.apply_eq_zero_of_injOn (g := g) _ _ _ (hsel.lt a ha)
    · intro r hr
      simp only [g]
      split_ifs
      · omega
      · exact hsel.lt r hr
    · -- the place `b` is not among the selected symbols, since its own is missing
      have hfresh : ∀ r < k, slot r ≠ b := by
        intro r hr hrb
        rcases hsel.own r hr with hown | hother
        · rw [← hrb, hown, hown] at hmissing
          omega
        · omega
      intro r hr r' hr' heq
      rw [Finset.coe_range, Set.mem_Iio] at hr hr'
      simp only [g] at heq
      split_ifs at heq with hra hra'
      · rw [hra, hra']
      · exact absurd heq.symm (hfresh r' hr')
      · exact absurd heq (hfresh r hr)
      · exact hsel.injOn (by simpa using hr) (by simpa using hr') heq
    · intro r hr
      simp only [g]
      split_ifs with hra
      · rw [hc.apply_message hb]
        exact hentry
      · have hrow := hrows r hr
        rw [show y r = 0 from if_neg hra] at hrow
        exact hrow.symm
  have hone := hrows a ha
  rw [show y a = 1 by simp [y]] at hone
  exact one_ne_zero (hone.trans hall)

end Systematic

/-- The places from 0 up to `n` that miss their symbol are overwritten by the
output of `inv` there. -/
def repair (k : ℕ) (inv : Mat F) (missing : ℕ → Prop) [DecidablePred missing] (n : ℕ)
    (v : ℕ → F) : ℕ → F :=
  forTo (fun i v => if missing i then Function.update v i (apply k inv v i) else v) n v

section Repair

variable {k : ℕ} {inv : Mat F} {missing : ℕ → Prop} [DecidablePred missing] {v : ℕ → F}

theorem repair_of_le {n j : ℕ} (h : n ≤ j) : repair k inv missing n v j = v j := by
  induction n with
  | zero => rfl
  | succ n ih =>
    have hkept := ih (Nat.le_of_succ_le h)
    unfold repair at hkept ⊢
    rw [forTo]
    split_ifs
    · rw [Function.update_of_ne (by omega), hkept]
    · exact hkept

theorem repair_succ (n : ℕ) : repair k inv missing (n + 1) v n =
    if missing n then apply k inv (repair k inv missing n v) n else v n := by
  have hkept : repair k inv missing n v n = v n := repair_of_le (le_refl n)
  unfold repair at hkept ⊢
  rw [forTo]
  split_ifs
  · rw [Function.update_self]
  · exact hkept

/-- Later rounds leave a place alone. -/
theorem repair_of_lt {n j : ℕ} (h : j < n) :
    repair k inv missing n v j = repair k inv missing (j + 1) v j := by
  induction n with
  | zero => omega
  | succ n ih =>
    by_cases hj : j = n
    · rw [hj]
    · rw [← ih (by omega)]
      unfold repair
      rw [forTo]
      split_ifs
      · rw [Function.update_of_ne hj]
      · rfl

end Repair

namespace Systematic

variable {enc : Mat F} {x : ℕ → F} {k n : ℕ} {slot : ℕ → ℕ} {d : ℕ → F} {inv : Mat F}

theorem apply_own (hc : Systematic enc x k n) (hsel : Selection k n slot) {i : ℕ} (hi : i < k)
    (hpresent : ¬ k ≤ slot i) : apply k (select enc slot) d i = d i := by
  have hslot := (hsel.own i hi).resolve_right hpresent
  change apply k enc d (slot i) = d i
  rw [hslot, hc.apply_message hi]

/-- When every missing place but the last holds its message symbol already, the
rounds only read what they should. -/
theorem repair_of_agree (hc : Systematic enc x k n) (hsel : Selection k n slot)
    (hinv : ∀ r < k, d r = apply k inv (apply k (select enc slot) d) r)
    (hagree : ∀ i < k, k ≤ slot i → (∃ j, i < j ∧ j < k ∧ k ≤ slot j) →
      apply k (select enc slot) d i = d i) {m : ℕ} (hm : m ≤ k) {j : ℕ} (hj : j < m) :
    repair k inv (fun i => k ≤ slot i) m (apply k (select enc slot) d) j = d j := by
  induction m generalizing j with
  | zero => omega
  | succ m ih =>
    rw [repair_of_lt hj]
    by_cases hjm : j < m
    · rw [← repair_of_lt hjm]
      exact ih (by omega) hjm
    · have hjm : j = m := by omega
      subst hjm
      rw [repair_succ]
      split_ifs with hmissing
      · rw [hinv j (by omega)]
        -- what was overwritten before has not changed
        apply Finset.sum_congr rfl
        intro i hi
        rw [Finset.mem_range] at hi
        congr 1
        by_cases hij : i < j
        · rw [ih (by omega) hij]
          by_cases hi' : k ≤ slot i
          · exact (hagree i hi hi' ⟨j, hij, by omega, hmissing⟩).symm
          · exact (hc.apply_own hsel hi hi').symm
        · exact repair_of_le (by omega)
      · exact hc.apply_own hsel (by omega) hmissing

/-- The first missing place that does not hold its message symbol spoils the
next missing one, since the entry of the inverse between them is not zero. -/
theorem agree_of_repair (hc : Systematic enc x k n) (hsel : Selection k n slot)
    (hinv : ∀ w y, (∀ r < k, w r = apply k inv y r) ↔
      ∀ r < k, y r = apply k (select enc slot) w r)
    (hfinal : ∀ r < k,
      repair k inv (fun i => k ≤ slot i) k (apply k (select enc slot) d) r = d r) {i : ℕ}
    (hi : i < k) (hmissing : k ≤ slot i) (hlater : ∃ j, i < j ∧ j < k ∧ k ≤ slot j) :
    apply k (select enc slot) d i = d i := by
  induction i using Nat.strong_induction_on with
  | _ i ih =>
    have hsome : ∃ j, i < j ∧ k ≤ slot j := by
      obtain ⟨j, hij, -, hj⟩ := hlater
      exact ⟨j, hij, hj⟩
    let b := Nat.find hsome
    obtain ⟨hib, hb⟩ : i < b ∧ k ≤ slot b := Nat.find_spec hsome
    have hbk : b < k := by
      obtain ⟨j, hij, hjk, hj⟩ := hlater
      have hle : b ≤ j := Nat.find_min' hsome ⟨hij, hj⟩
      omega
    -- all places below the round of `b` hold their message symbols by then
    have hround : d b = apply k inv
        (repair k inv (fun i => k ≤ slot i) b (apply k (select enc slot) d)) b := by
      rw [← hfinal b hbk, repair_of_lt hbk, repair_succ, if_pos hb]
    have hplain : d b = apply k inv (apply k (select enc slot) d) b :=
      (hinv d _).mpr (fun _ _ => rfl) b hbk
    have hread : ∀ j < k, j ≠ i →
        repair k inv (fun i => k ≤ slot i) b (apply k (select enc slot) d) j =
          apply k (select enc slot) d j := by
      intro j hj hji
      by_cases hjb : j < b
      · rw [repair_of_lt hjb, ← repair_of_lt hj, hfinal j hj]
        by_cases hj' : k ≤ slot j
        · have hlt : j < i := by
            by_contra hge
            exact Nat.find_min hsome hjb ⟨by omega, hj'⟩
          exact (ih j hlt hj hj' ⟨i, hlt, hi, hmissing⟩).symm
        · exact (hc.apply_own hsel hj hj').symm
      · exact repair_of_le (by omega)
    have hread_i : repair k inv (fun i => k ≤ slot i) b (apply k (select enc slot) d) i = d i := by
      rw [repair_of_lt hib, ← repair_of_lt hi, hfinal i hi]
    have hrest : others k inv (repair k inv (fun i => k ≤ slot i) b
          (apply k (select enc slot) d)) i b =
        others k inv (apply k (select enc slot) d) i b := by
      apply Finset.sum_congr rfl
      intro j hj
      rw [hread j (Finset.mem_range.mp (Finset.mem_of_mem_erase hj)) (Finset.ne_of_mem_erase hj)]
    rw [apply_eq_others hi, hread_i, hrest] at hround
    rw [apply_eq_others hi] at hplain
    have hentry := hc.inverse_ne_zero hsel hinv hi hbk hb
    have hsame := add_right_cancel (hplain.symm.trans hround)
    exact mul_left_cancel₀ hentry hsame

theorem repair_iff (hc : Systematic enc x k n) (hsel : Selection k n slot)
    (hinv : ∀ w y, (∀ r < k, w r = apply k inv y r) ↔
      ∀ r < k, y r = apply k (select enc slot) w r) :
    (∀ r < k, repair k inv (fun i => k ≤ slot i) k (apply k (select enc slot) d) r = d r) ↔
      ∀ i < k, k ≤ slot i → (∃ j, i < j ∧ j < k ∧ k ≤ slot j) →
        apply k (select enc slot) d i = d i := by
  constructor
  · intro hfinal i hi hmissing hlater
    exact hc.agree_of_repair hsel hinv hfinal hi hmissing hlater
  · intro hagree r hr
    have hplain := (hinv d _).mpr fun _ _ => rfl
    exact hc.repair_of_agree hsel hplain hagree le_rfl hr

end Systematic

end OrionNetwork.EvaluationCode
