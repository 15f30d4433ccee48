import OrionNetwork.CoefficientLists
import OrionNetwork.FecDecode

/-!
# Division of polynomials

Lists are divided like polynomials on paper. In every round a multiple of the divisor cancels
the leading coefficient of the dividend, which is then dropped also when it was zero before.
The quotient has a zero in front, and comes out highest first.
-/
namespace OrionNetwork.Fec.Poly
open Galois Polynomial CoefficientLists

theorem trim_eq (p : Poly) : trim p = (p.reverse.dropWhile fun x => x = 0).reverse := rfl

theorem sanitize_of_trim {p : Poly} (h : trim p = []) : sanitize p = [0] := by
  unfold sanitize
  rw [← trim_eq, h]

theorem sanitize_of_ne {p : Poly} (h : trim p ≠ []) : sanitize p = trim p := by
  unfold sanitize
  rw [← trim_eq]
  split
  · contradiction
  · rfl

theorem value_sanitize (p : Poly) : value (sanitize p) = value p := by
  by_cases h : trim p = []
  · rw [sanitize_of_trim h, value_eq_zero_iff.mpr h]
    exact value_replicate 1
  · rw [sanitize_of_ne h, value_trim]

theorem sanitize_ne_nil (p : Poly) : sanitize p ≠ [] := by
  by_cases h : trim p = []
  · rw [sanitize_of_trim h]
    exact List.cons_ne_nil _ _
  · rwa [sanitize_of_ne h]

theorem length_sanitize_le {p : Poly} {n : ℕ} (hp : p.length ≤ n) (hn : 0 < n) :
    (sanitize p).length ≤ n := by
  by_cases h : trim p = []
  · rw [sanitize_of_trim h]
    exact hn
  · rw [sanitize_of_ne h]
    exact (List.rdropWhile_prefix _ p).length_le.trans hp

theorem value_add {a b : Poly} (h : b.length = a.length) :
    value (add a b) = value a + value b := by
  induction a generalizing b with
  | nil =>
    rw [List.eq_nil_of_length_eq_zero h]
    simp [add]
  | cons x a ih =>
    cases b with
    | nil => contradiction
    | cons y b =>
      rw [add, value_cons, ih (Nat.succ_injective h), value_cons, value_cons, C_add]
      ring

/-- The leading coefficients of two lists of one length. -/
theorem add_concat {a b : Poly} (h : b.length = a.length) (x y : Gf) :
    add (a ++ [x]) (b ++ [y]) = add a b ++ [x + y] := by
  induction a generalizing b with
  | nil =>
    rw [List.eq_nil_of_length_eq_zero h]
    rfl
  | cons z a ih =>
    cases b with
    | nil => contradiction
    | cons w b => rw [List.cons_append, List.cons_append, add, ih (Nat.succ_injective h)]; rfl

section Division

variable {b p q : Poly} {x y : Gf}

/-- What is subtracted in a round: the divisor times a coefficient, moved up. -/
def subtrahend (b : Poly) (coef : Gf) (n : ℕ) : Poly :=
  List.replicate (n - (b.scale coef).length) 0 ++ b.scale coef

theorem length_scale (coef : Gf) : (b.scale coef).length = b.length := List.length_map _

theorem length_subtrahend (coef : Gf) {n : ℕ} (hn : b.length ≤ n) :
    (subtrahend b coef n).length = n := by
  rw [subtrahend, List.length_append, List.length_replicate, length_scale]
  omega

theorem value_subtrahend (coef : Gf) (n : ℕ) :
    value (subtrahend b coef n) = X ^ (n - b.length) * (C coef * value b) := by
  rw [subtrahend, value_shift, length_scale]
  congr 1
  exact value_scale coef b

/-- The leading coefficient is cancelled. -/
theorem add_subtrahend (hy : y ≠ 0) (hle : b.length ≤ p.length) :
    ∃ r : Poly, add (p ++ [x]) (subtrahend (b ++ [y]) (x / y) (p.length + 1)) = r ++ [0] ∧
      r.length = p.length := by
  have hscale : scale (b ++ [y]) (x / y) = scale b (x / y) ++ [x] := by
    unfold scale
    rw [List.map_append, List.map_singleton, div_mul_cancel₀ x hy]
  have hlength : (subtrahend b (x / y) p.length).length = p.length := length_subtrahend _ hle
  have hsubtrahend : subtrahend (b ++ [y]) (x / y) (p.length + 1) =
      subtrahend b (x / y) p.length ++ [x] := by
    unfold subtrahend
    rw [hscale, List.length_append, List.length_singleton, Nat.add_sub_add_right,
      ← List.append_assoc]
  refine ⟨add p (subtrahend b (x / y) p.length), ?_, length_add _ _⟩
  rw [hsubtrahend, add_concat hlength, CharTwo.add_self_eq_zero]

/-- What a round leaves of the dividend. -/
def reduced (b p : Poly) (coef : Gf) : Poly := (p.add (subtrahend b coef p.length)).dropLast

theorem divLoop_succ (hy : y ≠ 0) (hle : b.length ≤ p.length) (hq : q.length < 256) (n : ℕ) :
    divLoop (b ++ [y]) (n + 1) q (p ++ [x]) =
      divLoop (b ++ [y]) n (q ++ [x / y]) (reduced (b ++ [y]) (p ++ [x]) (x / y)) := by
  rw [divLoop, if_pos (by simpa using hle), List.getLast?_concat, List.getLast?_concat,
    Option.getD_some, Option.getD_some, Gf.div_eq x hy]
  simp only [push, if_pos hq]
  rfl

theorem length_reduced (coef : Gf) : (reduced b p coef).length = p.length - 1 := by
  rw [reduced, List.length_dropLast, length_add]

/-- One round moves a multiple of the divisor from the dividend to the quotient. -/
theorem value_reduced (hy : y ≠ 0) (hle : b.length ≤ p.length) :
    value (reduced (b ++ [y]) (p ++ [x]) (x / y)) =
      value (p ++ [x]) + X ^ (p.length - b.length) * (C (x / y) * value (b ++ [y])) := by
  obtain ⟨r, hr, -⟩ := add_subtrahend (x := x) hy hle
  have hlength : (p ++ [x]).length = p.length + 1 := List.length_append
  have hvalue : value (r ++ [0]) = value r := value_append_zeros r 1
  rw [reduced, hlength, hr, List.dropLast_concat, ← hvalue, ← hr, value_add, value_subtrahend,
    List.length_append, List.length_singleton, Nat.add_sub_add_right]
  rw [length_subtrahend _ (by simpa using hle), hlength]

theorem divLoop_done (hlt : p.length ≤ b.length) (n : ℕ) :
    divLoop (b ++ [y]) n q p = some (q, p) := by
  cases n with
  | zero => rw [divLoop]
  | succ n => rw [divLoop, if_neg (by simp; omega)]

/-- The quotient so far times the power still missing, and what is left of the dividend. -/
theorem divLoop_spec (hy : y ≠ 0) {n : ℕ} (hn : p.length ≤ n) (hfits : q.length + p.length ≤ 256) :
    ∃ q' r, divLoop (b ++ [y]) n q p = some (q', r) ∧ r.length ≤ b.length ∧
      value q.reverse * X ^ (p.length - b.length) * value (b ++ [y]) + value p =
        value q'.reverse * value (b ++ [y]) + value r := by
  induction n generalizing q p with
  | zero =>
    refine ⟨q, p, rfl, by omega, ?_⟩
    rw [Nat.sub_eq_zero_of_le (by omega), pow_zero, mul_one]
  | succ n ih =>
    by_cases hlt : p.length ≤ b.length
    · refine ⟨q, p, divLoop_done hlt _, hlt, ?_⟩
      rw [Nat.sub_eq_zero_of_le hlt, pow_zero, mul_one]
    obtain ⟨p, x, rfl⟩ : ∃ p' x, p = p' ++ [x] :=
      (List.eq_nil_or_concat' p).resolve_left (by rintro rfl; exact hlt (Nat.zero_le _))
    rw [List.length_append, List.length_singleton] at hn hfits hlt
    have hle : b.length ≤ p.length := by omega
    have hlength : (reduced (b ++ [y]) (p ++ [x]) (x / y)).length = p.length := by
      rw [length_reduced, List.length_append, List.length_singleton, Nat.add_sub_cancel]
    obtain ⟨q', r, hloop, hr, hvalue⟩ := ih (q := q ++ [x / y])
      (p := reduced (b ++ [y]) (p ++ [x]) (x / y)) (by omega)
      (by rw [hlength, List.length_append, List.length_singleton]; omega)
    have hpower : p.length + 1 - b.length = p.length - b.length + 1 := by omega
    refine ⟨q', r, by rw [divLoop_succ hy hle (by omega), hloop], hr, ?_⟩
    rw [← hvalue, hlength, value_reduced hy hle, List.reverse_concat, value_cons,
      List.length_append, List.length_singleton, hpower]
    -- the multiple is added on both sides, and twice is nothing
    have htwice : ∀ f : Gf[X], f + f = 0 := CharTwo.add_self_eq_zero
    linear_combination -htwice (X ^ (p.length - b.length) * (C (x / y) * value (b ++ [y])))

theorem div_spec {a b : Poly} (ha : a.length ≤ 255) (hb : value b ≠ 0) :
    ∃ q r, div a b = some (q, r) ∧ value a = value q * value b + value r ∧
      (value r).degree < (value b).degree := by
  have htrim : trim b ≠ [] := mt value_eq_zero_iff.mpr hb
  obtain ⟨m, y, hy, hm⟩ := (trim_cases b).resolve_left htrim
  have hdivisor : sanitize b = m ++ [y] := by rw [sanitize_of_ne htrim, hm]
  have hlength := length_sanitize_le ha (by decide)
  obtain ⟨q, r, hloop, hr, hvalue⟩ :=
    divLoop_spec (b := m) (q := [0]) (p := sanitize a) hy le_rfl (by simp; omega)
  have hvalueB : value b = value (m ++ [y]) := by rw [← value_sanitize, hdivisor]
  refine ⟨sanitize q.reverse, sanitize r, ?_, ?_, ?_⟩
  · have hne : (m ++ [y]).isEmpty = false := List.isEmpty_eq_false_iff.mpr (by simp)
    have hne' : (sanitize a).isEmpty = false := List.isEmpty_eq_false_iff.mpr (sanitize_ne_nil a)
    unfold div
    simp only [hne, hne', Bool.false_eq_true, if_false, hdivisor, hloop, Option.map_some]
  · have hplaceholder : value ([0] : Poly).reverse = 0 := value_replicate 1
    rw [hplaceholder, zero_mul, zero_mul, zero_add, value_sanitize] at hvalue
    rw [value_sanitize, value_sanitize, hvalueB, ← hvalue]
  · rw [value_sanitize, hvalueB, degree_value_concat hy]
    exact (degree_value_lt r).trans_le (by exact_mod_cast hr)

/-- Without a leading coefficient there is no quotient. -/
theorem div_zero (a : Poly) {b : Poly} (hb : value b = 0) : div a b = none := by
  have hdivisor := sanitize_of_trim (value_eq_zero_iff.mp hb)
  have hne : (sanitize a).isEmpty = false := List.isEmpty_eq_false_iff.mpr (sanitize_ne_nil a)
  obtain ⟨n, hn⟩ := Nat.exists_eq_succ_of_ne_zero (List.length_pos_of_ne_nil (sanitize_ne_nil a)).ne'
  unfold div
  simp only [hdivisor, hne, List.isEmpty_cons, Bool.false_eq_true, if_false, hn]
  rw [divLoop, if_pos (by simp [hn])]
  rfl

end Division

end OrionNetwork.Fec.Poly
