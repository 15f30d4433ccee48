import Mathlib.LinearAlgebra.Matrix.DotProduct
import OrionNetwork.PolynomialHalves

/-!
# Equations with noise

A public vector `A s + e` hides a secret vector behind noise. A message is added to its
product with a second secret vector, which is hidden in the same way, and the holder of
the first one subtracts what it can compute of that product. What is left beside the
message is a sum of products of small values. Where these are polynomials modulo
`X ^ n + 1`, a product is as small as the sum of the coefficients of one factor times the
largest coefficient of the other.
-/
namespace OrionNetwork.NoisyEquations

open Matrix Polynomial PolynomialHalves

section Decryption

variable {ι R : Type*} [Fintype ι] [CommRing R]

def publicVector (A : Matrix ι ι R) (s e : ι → R) : ι → R := A *ᵥ s + e

def hiddenVector (A : Matrix ι ι R) (r e₁ : ι → R) : ι → R := Aᵀ *ᵥ r + e₁

def hiddenMessage (t r : ι → R) (e₂ k : R) : R := t ⬝ᵥ r + e₂ + k

/-- What decryption adds to the message, where `du` and `dv` were added on the way. -/
def noise (s e r e₁ du : ι → R) (e₂ dv : R) : R := e ⬝ᵥ r + e₂ + dv - s ⬝ᵥ (e₁ + du)

theorem hiddenMessage_sub (A : Matrix ι ι R) (s e r e₁ du : ι → R) (e₂ dv k : R) :
    hiddenMessage (publicVector A s e) r e₂ k + dv - s ⬝ᵥ (hiddenVector A r e₁ + du) =
      k + noise s e r e₁ du e₂ dv := by
  have hmatrix : s ⬝ᵥ (Aᵀ *ᵥ r) = (A *ᵥ s) ⬝ᵥ r := by
    rw [dotProduct_mulVec, vecMul_transpose]
  unfold hiddenMessage publicVector hiddenVector noise
  rw [add_dotProduct, dotProduct_add, dotProduct_add, dotProduct_add, hmatrix]
  ring

/-- The two sides need to be known modulo some element only. -/
theorem dvd_noise_sub {M : R} {A : Matrix ι ι R} {s e r e₁ b b' : ι → R} {e₂ k v v' : R}
    (hb : ∀ i, M ∣ hiddenVector A r e₁ i - b i)
    (hv : M ∣ hiddenMessage (publicVector A s e) r e₂ k - v) :
    M ∣ k + noise s e r e₁ (b' - b) e₂ (v' - v) - (v' - s ⬝ᵥ b') := by
  have hdot : M ∣ s ⬝ᵥ (hiddenVector A r e₁ - b) :=
    Finset.dvd_sum fun i _ => (hb i).mul_left (s i)
  have hdifference : k + noise s e r e₁ (b' - b) e₂ (v' - v) - (v' - s ⬝ᵥ b') =
      (hiddenMessage (publicVector A s e) r e₂ k - v) - s ⬝ᵥ (hiddenVector A r e₁ - b) := by
    rw [← hiddenMessage_sub A s e r e₁ (b' - b) e₂ (v' - v) k, dotProduct_add, dotProduct_sub,
      dotProduct_sub]
    ring
  rw [hdifference]
  exact dvd_sub hv hdot

end Decryption

theorem exists_of_mem_zipWith {α β δ : Type*} {f : α → β → δ} {l : List α} {r : List β} {x : δ}
    (h : x ∈ List.zipWith f l r) : ∃ a b, (a, b) ∈ l.zip r ∧ f a b = x := by
  rw [← List.map_uncurry_zip_eq_zipWith] at h
  obtain ⟨⟨a, b⟩, hmem, rfl⟩ := List.mem_map.mp h
  exact ⟨a, b, hmem, rfl⟩

section Sizes

/-- The coefficients of the product with `X` modulo `X ^ n + 1`. -/
def rotate : List ℤ → List ℤ
  | [] => []
  | a :: l => -((a :: l).getLast (List.cons_ne_nil a l)) :: (a :: l).dropLast

theorem residue_rotate {n : ℕ} (hn : 0 < n) {f : ℤ[X]} {l : List ℤ} (h : Residue n (-1) f l) :
    Residue n (-1) (X * f) (rotate l) := by
  obtain ⟨a, t, rfl⟩ := List.exists_cons_of_length_pos (h.length ▸ hn : 0 < l.length)
  have hlast := List.dropLast_append_getLast (List.cons_ne_nil a t)
  have hlength : ((a :: t).dropLast).length + 1 = n := by
    rw [List.length_dropLast, h.length]
    omega
  rw [rotate]
  generalize (a :: t).dropLast = front at *
  generalize (a :: t).getLast _ = last at *
  refine ⟨by rw [List.length_cons, hlength], ?_⟩
  obtain ⟨q, hq⟩ := h.dvd
  refine ⟨X * q + C last, ?_⟩
  have hcons : ofCoeffs (a :: t) = ofCoeffs front + X ^ front.length * C last := by
    rw [← hlast, ofCoeffs_append, ofCoeffs_cons, ofCoeffs_nil, mul_zero, add_zero]
  rw [sub_eq_iff_eq_add.mp hq, hcons, ofCoeffs_cons, ← hlength, pow_succ, C_neg, C_neg, C_1]
  ring

/-- A polynomial with coefficients of at most this size modulo `X ^ n + 1`. -/
def Sized (n : ℕ) (bound : ℤ) (f : ℤ[X]) : Prop :=
  ∃ l : List ℤ, Residue n (-1) f l ∧ ∀ x ∈ l, |x| ≤ bound

variable {n : ℕ} {A B : ℤ} {f g : ℤ[X]}

theorem sized_ofCoeffs {l : List ℤ} (hl : ∀ x ∈ l, |x| ≤ B) : Sized l.length B (ofCoeffs l) :=
  ⟨l, Residue.refl l (-1), hl⟩

theorem Sized.mono (hf : Sized n A f) (hAB : A ≤ B) : Sized n B f := by
  obtain ⟨l, hl, hsize⟩ := hf
  exact ⟨l, hl, fun x hx => (hsize x hx).trans hAB⟩

theorem Sized.zero : Sized n 0 0 := by
  refine ⟨List.replicate n 0, ⟨List.length_replicate, ?_⟩, ?_⟩
  · rw [zero_sub, dvd_neg, ofCoeffs_replicate_zero]
    exact dvd_zero _
  · intro x hx
    rw [List.eq_of_mem_replicate hx, abs_zero]

theorem Sized.combine (s t : ℤ) (hf : Sized n A f) (hg : Sized n B g) :
    Sized n (|s| * A + |t| * B) (C s * f + C t * g) := by
  obtain ⟨l, hl, hlsize⟩ := hf
  obtain ⟨r, hr, hrsize⟩ := hg
  refine ⟨_, hl.combine s t hr, fun x hx => ?_⟩
  obtain ⟨a, b, hmem, rfl⟩ := exists_of_mem_zipWith hx
  obtain ⟨ha, hb⟩ := List.of_mem_zip hmem
  calc |s * a + t * b| ≤ |s * a| + |t * b| := abs_add_le _ _
    _ = |s| * |a| + |t| * |b| := by rw [abs_mul, abs_mul]
    _ ≤ |s| * A + |t| * B := by
      gcongr
      · exact hlsize a ha
      · exact hrsize b hb

theorem Sized.add (hf : Sized n A f) (hg : Sized n B g) : Sized n (A + B) (f + g) := by
  simpa using hf.combine 1 1 hg

theorem Sized.sub (hf : Sized n A f) (hg : Sized n B g) : Sized n (A + B) (f - g) := by
  simpa [sub_eq_add_neg] using hf.combine 1 (-1) hg

theorem Sized.rotate (hn : 0 < n) (hg : Sized n B g) : Sized n B (X * g) := by
  obtain ⟨l, hl, hsize⟩ := hg
  refine ⟨_, residue_rotate hn hl, fun x hx => ?_⟩
  cases l with
  | nil => simp [NoisyEquations.rotate] at hx
  | cons a t =>
    rw [NoisyEquations.rotate] at hx
    rcases List.mem_cons.mp hx with rfl | hx
    · rw [abs_neg]
      exact hsize _ (List.getLast_mem _)
    · exact hsize x (List.mem_of_mem_dropLast hx)

theorem Sized.sum {ι : Type*} (s : Finset ι) {size : ι → ℤ} {f : ι → ℤ[X]}
    (h : ∀ i ∈ s, Sized n (size i) (f i)) : Sized n (∑ i ∈ s, size i) (∑ i ∈ s, f i) := by
  classical
  induction s using Finset.induction_on with
  | empty => exact Sized.zero
  | insert i s hi ih =>
    rw [Finset.sum_insert hi, Finset.sum_insert hi]
    refine (h i (Finset.mem_insert_self i s)).add ?_
    exact ih fun j hj => h j (Finset.mem_insert_of_mem hj)

end Sizes

end OrionNetwork.NoisyEquations
