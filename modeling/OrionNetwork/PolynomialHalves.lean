import Mathlib.Algebra.Polynomial.Div
import Mathlib.Tactic

/-!
# Polynomials modulo the halves of a modulus

A list stands for a polynomial modulo `X ^ m - γ`. Where `γ` is a square, the modulus
splits in two, and so does the list: the first half plus and minus a multiple of the
second. A list of moduli is split into a list of twice as many moduli of half the size
in this way, and joined again.
-/
namespace OrionNetwork.PolynomialHalves

open Polynomial

section Coefficients

variable {R : Type*} [CommRing R]

/-- The polynomial with these coefficients, the constant one first. -/
noncomputable def ofCoeffs : List R → R[X]
  | [] => 0
  | a :: l => C a + X * ofCoeffs l

@[simp] theorem ofCoeffs_nil : ofCoeffs ([] : List R) = 0 := rfl

@[simp] theorem ofCoeffs_cons (a : R) (l : List R) : ofCoeffs (a :: l) = C a + X * ofCoeffs l := rfl

theorem ofCoeffs_append (l r : List R) :
    ofCoeffs (l ++ r) = ofCoeffs l + X ^ l.length * ofCoeffs r := by
  induction l with
  | nil => simp
  | cons a l ih =>
    rw [List.cons_append, ofCoeffs_cons, ofCoeffs_cons, ih, List.length_cons, pow_succ]
    ring

theorem ofCoeffs_map_mul (s : R) (l : List R) : ofCoeffs (l.map (s * ·)) = C s * ofCoeffs l := by
  induction l with
  | nil => simp
  | cons a l ih =>
    rw [List.map_cons, ofCoeffs_cons, ofCoeffs_cons, ih, C_mul]
    ring

theorem ofCoeffs_replicate_zero (n : ℕ) : ofCoeffs (List.replicate n (0 : R)) = 0 := by
  induction n with
  | zero => rfl
  | succ n ih => rw [List.replicate_succ, ofCoeffs_cons, ih, C_0, mul_zero, add_zero]

theorem ofCoeffs_map {S : Type*} [CommRing S] (φ : R →+* S) (l : List R) :
    ofCoeffs (l.map φ) = (ofCoeffs l).map φ := by
  induction l with
  | nil => simp
  | cons a l ih => simp [ih]

theorem ofCoeffs_zipWith (s t : R) {l r : List R} (h : l.length = r.length) :
    ofCoeffs (List.zipWith (fun a b => s * a + t * b) l r) =
      C s * ofCoeffs l + C t * ofCoeffs r := by
  induction l generalizing r with
  | nil =>
    rw [List.length_eq_zero_iff.mp h.symm]
    simp
  | cons a l ih =>
    cases r with
    | nil => cases h
    | cons b r =>
      rw [List.zipWith_cons_cons, ofCoeffs_cons, ofCoeffs_cons, ofCoeffs_cons,
        ih (Nat.succ_injective h), C_add, C_mul, C_mul]
      ring

theorem coeff_ofCoeffs (l : List R) (i : ℕ) : (ofCoeffs l).coeff i = l.getD i 0 := by
  induction l generalizing i with
  | nil => simp
  | cons a l ih =>
    cases i with
    | zero => simp
    | succ i => simp [ih]

theorem degree_ofCoeffs_lt (l : List R) : (ofCoeffs l).degree < l.length := by
  rw [degree_lt_iff_coeff_zero]
  intro i hi
  rw [coeff_ofCoeffs, List.getD_eq_getElem?_getD, List.getElem?_eq_none hi, Option.getD_none]

end Coefficients

section Residues

variable {R : Type*} [CommRing R] {m : ℕ} {γ z : R} {f g : R[X]} {l r : List R}

/-- The list stands for the polynomial modulo `X ^ m - γ`. -/
structure Residue (m : ℕ) (γ : R) (f : R[X]) (l : List R) : Prop where
  length : l.length = m
  dvd : X ^ m - C γ ∣ f - ofCoeffs l

theorem Residue.refl (l : List R) (γ : R) : Residue l.length γ (ofCoeffs l) l :=
  ⟨rfl, by rw [sub_self]; exact dvd_zero _⟩

theorem Residue.congr {l' : List R} (h : Residue m γ f l) (hlength : l'.length = m)
    (heq : ofCoeffs l' = ofCoeffs l) : Residue m γ f l' :=
  ⟨hlength, heq ▸ h.dvd⟩

theorem Residue.map {S : Type*} [CommRing S] (φ : R →+* S) (h : Residue m γ f l) :
    Residue m (φ γ) (f.map φ) (l.map φ) := by
  refine ⟨by rw [List.length_map, h.length], ?_⟩
  have hdvd := Polynomial.map_dvd φ h.dvd
  rwa [Polynomial.map_sub, Polynomial.map_sub, Polynomial.map_pow, map_X, map_C, ← ofCoeffs_map]
    at hdvd

/-- Sums with fixed factors, on both sides. -/
theorem Residue.combine (s t : R) (hl : Residue m γ f l) (hr : Residue m γ g r) :
    Residue m γ (C s * f + C t * g) (List.zipWith (fun a b => s * a + t * b) l r) := by
  refine ⟨by rw [List.length_zipWith, hl.length, hr.length, min_self], ?_⟩
  rw [ofCoeffs_zipWith s t (hl.length.trans hr.length.symm)]
  have hsub : C s * f + C t * g - (C s * ofCoeffs l + C t * ofCoeffs r) =
      C s * (f - ofCoeffs l) + C t * (g - ofCoeffs r) := by ring
  rw [hsub]
  exact dvd_add (hl.dvd.mul_left _) (hr.dvd.mul_left _)

theorem Residue.split_add (h : Residue (2 * m) (z * z) f (l ++ r)) (hl : l.length = m)
    (hr : r.length = m) : Residue m z f (List.zipWith (fun a b => 1 * a + z * b) l r) := by
  refine ⟨by rw [List.length_zipWith, hl, hr, min_self], ?_⟩
  obtain ⟨q, hq⟩ := h.dvd
  refine ⟨(X ^ m + C z) * q + ofCoeffs r, ?_⟩
  rw [ofCoeffs_append, hl] at hq
  rw [ofCoeffs_zipWith _ _ (hl.trans hr.symm), C_1, sub_eq_iff_eq_add.mp hq, C_mul, two_mul, pow_add]
  ring

theorem Residue.split_sub (h : Residue (2 * m) (z * z) f (l ++ r)) (hl : l.length = m)
    (hr : r.length = m) : Residue m (-z) f (List.zipWith (fun a b => 1 * a + -z * b) l r) := by
  rw [← neg_mul_neg z z] at h
  exact h.split_add hl hr

/-- The two halves are put together to twice the polynomial. -/
theorem Residue.join {w : R} (hw : w * z = 1) (hl : Residue m z f l) (hr : Residue m (-z) f r) :
    Residue (2 * m) (z * z) (2 * f) (List.zipWith (fun a b => 1 * a + 1 * b) l r ++
      List.zipWith (fun a b => w * a + -w * b) l r) := by
  have hlen := hl.length.trans hr.length.symm
  constructor
  · rw [List.length_append, List.length_zipWith, List.length_zipWith, hl.length, hr.length]
    omega
  obtain ⟨u, hu⟩ := hl.dvd
  obtain ⟨v, hv⟩ := hr.dvd
  refine ⟨C w * (u - v), ?_⟩
  have hunit : C w * C z = (1 : R[X]) := by rw [← C_mul, hw, C_1]
  have hof : ofCoeffs l = f - (X ^ m - C z) * u := by rw [← hu]; ring
  have hor : ofCoeffs r = f - (X ^ m + C z) * v := by
    rw [C_neg, sub_neg_eq_add] at hv
    rw [← hv]
    ring
  rw [ofCoeffs_append, ofCoeffs_zipWith _ _ hlen, ofCoeffs_zipWith _ _ hlen, List.length_zipWith,
    hl.length, hr.length, min_self, hof, hor, C_1, C_neg, C_mul, two_mul m, pow_add]
  linear_combination (u * (C z - X ^ m) - v * (C z + X ^ m)) * hunit

theorem Residue.scale (h : Residue m γ f l) (s : R) :
    Residue m γ (C s * f) (l.map (s * ·)) := by
  refine ⟨by rw [List.length_map, h.length], ?_⟩
  rw [ofCoeffs_map_mul, ← mul_sub]
  exact Dvd.dvd.mul_left h.dvd _

/-- The product of two linear polynomials. -/
theorem Residue.mul {a0 a1 b0 b1 : R} (ha : Residue 2 γ f [a0, a1]) (hb : Residue 2 γ g [b0, b1]) :
    Residue 2 γ (f * g) [a0 * b0 + γ * (a1 * b1), a0 * b1 + a1 * b0] := by
  refine ⟨rfl, ?_⟩
  obtain ⟨u, hu⟩ := ha.dvd
  obtain ⟨v, hv⟩ := hb.dvd
  rw [sub_eq_iff_eq_add] at hu hv
  refine ⟨u * g + v * ofCoeffs [a0, a1] + C (a1 * b1), ?_⟩
  rw [hu, hv]
  simp only [ofCoeffs_cons, ofCoeffs_nil, C_add, C_mul]
  ring

/-- The coefficients of the list are those of the remainder. -/
theorem Residue.coeff_modByMonic [Nontrivial R] (h : Residue m γ f l) (hm : m ≠ 0) (i : ℕ) :
    (f %ₘ (X ^ m - C γ)).coeff i = l.getD i 0 := by
  obtain ⟨q, hq⟩ := h.dvd
  have hrest : f %ₘ (X ^ m - C γ) = ofCoeffs l := by
    apply (div_modByMonic_unique q (ofCoeffs l) (monic_X_pow_sub_C γ hm) ⟨?_, ?_⟩).2
    · rw [← hq]
      ring
    · rw [degree_X_pow_sub_C (Nat.pos_of_ne_zero hm), ← h.length]
      exact degree_ofCoeffs_lt l
  rw [hrest, coeff_ofCoeffs]

/-- The modulus of the negacyclic product. -/
theorem Residue.coeff_modByMonic_add_one [Nontrivial R] (h : Residue m (-1) f l) (hm : m ≠ 0)
    (i : ℕ) : (f %ₘ (X ^ m + 1)).coeff i = l.getD i 0 := by
  have hcoeff := h.coeff_modByMonic hm i
  rwa [C_neg, C_1, sub_neg_eq_add] at hcoeff

end Residues

section Splitting

variable {R α : Type} [CommRing R] {P : R → List α → Prop} {zs : List R} {v : List α}

/-- The list is a sequence of chunks, one for each value. -/
def Split {ζ : Type} (P : ζ → List α → Prop) (zs : List ζ) (v : List α) : Prop :=
  ∃ chunks : List (List α), v = chunks.flatten ∧ List.Forall₂ P zs chunks

def Halves (P : R → List α → Prop) (z : R) (chunk : List α) : Prop :=
  ∃ l r, chunk = l ++ r ∧ P z l ∧ P (-z) r

/-- The moduli after a split. -/
def halve (zs : List R) : List R := zs.flatMap fun z => [z, -z]

theorem Split.halves (h : Split (Halves P) zs v) : Split P (halve zs) v := by
  obtain ⟨chunks, rfl, h⟩ := h
  induction h with
  | nil => exact ⟨[], rfl, List.Forall₂.nil⟩
  | @cons z chunk zs chunks hchunk _ ih =>
    obtain ⟨l, r, rfl, hl, hr⟩ := hchunk
    obtain ⟨rest, hrest, hall⟩ := ih
    refine ⟨l :: r :: rest, ?_, List.Forall₂.cons hl (List.Forall₂.cons hr hall)⟩
    rw [List.flatten_cons, hrest, List.flatten_cons, List.flatten_cons, List.append_assoc]

theorem Split.of_halve (h : Split P (halve zs) v) : Split (Halves P) zs v := by
  induction zs generalizing v with
  | nil =>
    obtain ⟨chunks, rfl, h⟩ := h
    cases h
    exact ⟨[], rfl, List.Forall₂.nil⟩
  | cons z zs ih =>
    obtain ⟨chunks, rfl, h⟩ := h
    cases h with
    | cons hl h =>
      cases h with
      | @cons _ r _ chunks hr h =>
        obtain ⟨rest, hrest, hall⟩ := ih ⟨chunks, rfl, h⟩
        refine ⟨_ :: rest, ?_, List.Forall₂.cons ⟨_, _, rfl, hl, hr⟩ hall⟩
        rw [List.flatten_cons, List.flatten_cons, List.flatten_cons, hrest, List.append_assoc]

theorem Split.mono {ζ : Type} {P P' : ζ → List α → Prop} {zs : List ζ} (h : Split P zs v)
    (hP : ∀ z chunk, P z chunk → P' z chunk) : Split P' zs v := by
  obtain ⟨chunks, hv, h⟩ := h
  exact ⟨chunks, hv, h.imp hP⟩

omit [CommRing R] in
theorem split_map {ζ : Type} {g : ζ → R} {zs : List ζ} :
    Split P (zs.map g) v ↔ Split (fun z => P (g z)) zs v := by
  unfold Split
  simp only [List.forall₂_map_left_iff]

theorem split_cons_iff {ζ : Type} {P : ζ → List α → Prop} {z : ζ} {zs : List ζ} :
    Split P (z :: zs) v ↔ ∃ l r, v = l ++ r ∧ P z l ∧ Split P zs r := by
  constructor
  · rintro ⟨chunks, rfl, h⟩
    cases h with
    | @cons _ l _ chunks hl h => exact ⟨l, chunks.flatten, List.flatten_cons, hl, chunks, rfl, h⟩
  · rintro ⟨l, _, rfl, hl, chunks, rfl, h⟩
    exact ⟨l :: chunks, List.flatten_cons.symm, List.Forall₂.cons hl h⟩

theorem Split.zipWith {ζ β δ : Type} {P : ζ → List α → Prop} {Q : ζ → List β → Prop}
    {S : ζ → List δ → Prop} {zs : List ζ} {v : List α} {w : List β} (f : α → β → δ)
    (hv : Split P zs v) (hw : Split Q zs w) (h : ∀ z l r, P z l → Q z r →
      l.length = r.length ∧ S z (List.zipWith f l r)) : Split S zs (List.zipWith f v w) := by
  obtain ⟨chunks, rfl, hv⟩ := hv
  induction hv generalizing w with
  | nil =>
    obtain ⟨_, rfl, hw⟩ := hw
    cases hw
    exact ⟨[], rfl, List.Forall₂.nil⟩
  | cons hl _ ih =>
    obtain ⟨r, w, rfl, hr, hw⟩ := split_cons_iff.mp hw
    obtain ⟨hlength, hS⟩ := h _ _ _ hl hr
    rw [List.flatten_cons, List.zipWith_append hlength]
    exact split_cons_iff.mpr ⟨_, _, rfl, hS, ih hw⟩

/-- Every pair of chunks comes from the split of one. -/
theorem exists_join {m : ℕ} {z w two : R} (hw : w * z = 1) (htwo : two * 2 = 1) {l r : List R}
    (hl : l.length = m) (hr : r.length = m) :
    ∃ v : List R, v.length = 2 * m ∧
      ∀ f, Residue (2 * m) (z * z) f v → Residue m z f l ∧ Residue m (-z) f r := by
  have hlen := hl.trans hr.symm
  have hlength (s t : R) : (List.zipWith (fun a b => s * a + t * b) l r).length = m := by
    rw [List.length_zipWith, hl, hr, min_self]
  have hunit : C w * C z = (1 : R[X]) := by rw [← C_mul, hw, C_1]
  have hhalf : C two * 2 = (1 : R[X]) := by rw [← C_1, ← htwo, C_mul]; rfl
  refine ⟨List.zipWith (fun a b => two * a + two * b) l r ++
    List.zipWith (fun a b => two * w * a + -(two * w) * b) l r, ?_, fun f hf => ⟨?_, ?_⟩⟩
  · rw [List.length_append, hlength, hlength, two_mul]
  · refine (hf.split_add (hlength _ _) (hlength _ _)).congr hl ?_
    rw [ofCoeffs_zipWith _ _ ((hlength _ _).trans (hlength _ _).symm), ofCoeffs_zipWith _ _ hlen,
      ofCoeffs_zipWith _ _ hlen, C_1, C_neg, C_mul]
    linear_combination -(C two * ofCoeffs l - C two * ofCoeffs r) * hunit - ofCoeffs l * hhalf
  · refine (hf.split_sub (hlength _ _) (hlength _ _)).congr hr ?_
    rw [ofCoeffs_zipWith _ _ ((hlength _ _).trans (hlength _ _).symm), ofCoeffs_zipWith _ _ hlen,
      ofCoeffs_zipWith _ _ hlen, C_1, C_neg, C_neg, C_mul]
    linear_combination (C two * ofCoeffs l - C two * ofCoeffs r) * hunit - ofCoeffs r * hhalf

/-- Where all lists come from a polynomial, they do so after a split as well. -/
theorem exists_residue_halve {m : ℕ} {two : R} (htwo : two * 2 = 1) {zs : List R}
    (hzs : ∀ z ∈ zs, ∃ w, w * z = 1)
    (h : ∀ v : List R, v.length = 2 * m * zs.length →
      ∃ f, Split (fun γ => Residue (2 * m) γ f) (zs.map fun z => z * z) v)
    {v : List R} (hv : v.length = m * (halve zs).length) :
    ∃ f, Split (fun γ => Residue m γ f) (halve zs) v := by
  have hjoined : ∃ v' : List R, v'.length = 2 * m * zs.length ∧ ∀ f,
      Split (fun z => Residue (2 * m) (z * z) f) zs v' →
      Split (Halves fun γ => Residue m γ f) zs v := by
    clear h
    induction zs generalizing v with
    | nil =>
      have hnil : v = [] := List.length_eq_zero_iff.mp hv
      exact ⟨[], rfl, fun _ _ => ⟨[], hnil, List.Forall₂.nil⟩⟩
    | cons z zs ih =>
      obtain ⟨⟨w, hw⟩, hzs⟩ := List.forall_mem_cons.mp hzs
      have hsize : (halve (z :: zs)).length = (halve zs).length + 2 := rfl
      rw [hsize, Nat.mul_add] at hv
      obtain ⟨rest, hrest, hof⟩ := ih hzs (v := v.drop (m * 2)) (by rw [List.length_drop]; omega)
      have hleft : (v.take m).length = m := by
        rw [List.length_take]
        omega
      have hright : ((v.drop m).take m).length = m := by
        rw [List.length_take, List.length_drop]
        omega
      obtain ⟨joined, hlength, hjoin⟩ := exists_join hw htwo hleft hright
      refine ⟨joined ++ rest, ?_, fun f hf => ?_⟩
      · rw [List.length_append, hlength, hrest, List.length_cons, Nat.mul_succ]
        omega
      · obtain ⟨l, r, happ, hl, hr⟩ := split_cons_iff.mp hf
        obtain ⟨rfl, rfl⟩ := List.append_inj happ (hlength.trans hl.length.symm)
        refine split_cons_iff.mpr ⟨_, _, ?_, ⟨_, _, rfl, (hjoin f hl).1, (hjoin f hl).2⟩, hof f hr⟩
        rw [List.append_assoc, Nat.mul_two, ← List.drop_drop, List.take_append_drop,
          List.take_append_drop]
  obtain ⟨v', hlength, hof⟩ := hjoined
  obtain ⟨f, hf⟩ := h v' hlength
  exact ⟨f, (hof f (split_map.mp hf)).halves⟩

end Splitting

end OrionNetwork.PolynomialHalves
