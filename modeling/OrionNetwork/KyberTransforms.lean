import OrionNetwork.KyberPoly

/-!
# What the vectors of Kyber stand for

A vector of 256 values stands for a polynomial modulo `X ^ 256 + 1`, either by its
coefficients or by its residues modulo the quadratic factors. Every vector is the image
of some polynomial, and so the sampled matrix has one as well. Each operation on the
vectors is one on the polynomials behind them.
-/
namespace OrionNetwork.Kyber

open CheckedIntegers Matrix Polynomial PolynomialHalves

/-- The vector holds the coefficients of the polynomial. -/
abbrev Standard (bound : ℤ) (f : Zq[X]) (v : Poly) : Prop := Chunk bound N f (-1) v

/-- The vector holds the residues of the polynomial. -/
abbrev Image (bound : ℤ) (f : Zq[X]) (v : Poly) : Prop := Split (Chunk bound 2 f) (moduli 7) v

/-- Polynomials are equal as far as the vectors tell. -/
def Same (f g : Zq[X]) : Prop := X ^ N - C (-1) ∣ f - g

theorem Standard.congr {bound : ℤ} {f g : Zq[X]} {v : Poly} (h : Standard bound f v)
    (hfg : Same g f) : Standard bound g v := by
  refine ⟨⟨h.residue.length, ?_⟩, h.within⟩
  have hsum := dvd_add hfg h.residue.dvd
  rwa [sub_add_sub_cancel] at hsum

theorem moduli_dvd {i : ℕ} (hi : i ≤ 7) :
    ∀ γ ∈ moduli i, X ^ (256 / 2 ^ i) - C γ ∣ (X ^ N - C (-1) : Zq[X]) := by
  induction i with
  | zero =>
    intro γ hγ
    have hsize : 256 / 2 ^ 0 = N := rfl
    rw [List.mem_singleton.mp hγ, hsize]
  | succ i ih =>
    intro γ hγ
    have hsquare : ∃ z ∈ layerZetas i, γ * γ = root z * root z := by
      obtain ⟨w, hw, hγ⟩ := List.mem_flatMap.mp hγ
      obtain ⟨z, hz, rfl⟩ := List.mem_map.mp hw
      rcases List.mem_cons.mp hγ with rfl | hγ
      · exact ⟨z, hz, rfl⟩
      · rw [List.mem_singleton.mp hγ, neg_mul_neg]
        exact ⟨z, hz, rfl⟩
    obtain ⟨z, hz, hsquare⟩ := hsquare
    have hmem : γ * γ ∈ moduli i := by
      rw [moduli_square i (by omega), hsquare]
      exact List.mem_map_of_mem hz
    have hlt : i < 7 := hi
    have hsize : 256 / 2 ^ i = 256 / 2 ^ (i + 1) + 256 / 2 ^ (i + 1) := by
      interval_cases i <;> rfl
    have hfactor : (X ^ (256 / 2 ^ i) - C (γ * γ) : Zq[X]) =
        (X ^ (256 / 2 ^ (i + 1)) - C γ) * (X ^ (256 / 2 ^ (i + 1)) + C γ) := by
      rw [hsize, pow_add, C_mul]
      ring
    exact (Dvd.intro _ hfactor.symm).trans (ih (by omega) _ hmem)

theorem Image.congr {bound : ℤ} {f g : Zq[X]} {v : Poly} (h : Image bound f v)
    (hfg : Same g f) : Image bound g v := by
  obtain ⟨chunks, hv, hall⟩ := h
  refine ⟨chunks, hv, ?_⟩
  rw [List.forall₂_iff_zip] at hall ⊢
  refine ⟨hall.1, fun hmem => ?_⟩
  have hchunk := hall.2 hmem
  refine ⟨⟨hchunk.residue.length, ?_⟩, hchunk.within⟩
  have hdvd := moduli_dvd (le_refl 7) _ (List.of_mem_zip hmem).1
  have hsum := dvd_add (hdvd.trans hfg) hchunk.residue.dvd
  rwa [sub_add_sub_cancel] at hsum

theorem Image.mono {bound bound' : ℤ} {f : Zq[X]} {v : Poly} (h : Image bound f v)
    (hb : bound ≤ bound') : Image bound' f v :=
  Split.mono h fun _ _ hchunk => ⟨hchunk.residue, fun x hx => (hchunk.within x hx).mono hb⟩

theorem Standard.mono {bound bound' : ℤ} {f : Zq[X]} {v : Poly} (h : Standard bound f v)
    (hb : bound ≤ bound') : Standard bound' f v :=
  ⟨h.residue, fun x hx => (h.within x hx).mono hb⟩

theorem Image.small {bound : ℤ} {f : Zq[X]} {v : Poly} (h : Image bound f v) : Small bound v := by
  refine ⟨?_, mem_of_split h⟩
  rw [length_of_split h, length_moduli]
  rfl

theorem Standard.small {bound : ℤ} {f : Zq[X]} {v : Poly} (h : Standard bound f v) :
    Small bound v :=
  ⟨h.length, h.within⟩

theorem Small.standard {bound : ℤ} {v : Poly} (h : Small bound v) :
    Standard bound (ofPoly v) v := by
  have hresidue := Residue.refl (v.map (Int.cast : ℤ → Zq)) (-1)
  rw [List.length_map, h.length] at hresidue
  exact ⟨hresidue, h.within⟩

section Surjectivity

theorem exists_inverse_root {i : ℕ} (hi : i < 7) :
    ∀ z ∈ (layerZetas i).map root, ∃ w, w * z = 1 := by
  have hinverse := zetas_reverse i hi
  intro z hz
  obtain ⟨zeta, hzeta, rfl⟩ := List.mem_map.mp hz
  clear hz
  generalize (layerZetas i).reverse = ws at hinverse
  generalize layerZetas i = zs at hinverse hzeta
  induction hinverse with
  | nil => cases hzeta
  | cons h _ ih =>
    rcases List.mem_cons.mp hzeta with rfl | hzeta
    · exact ⟨_, h⟩
    · exact ih hzeta

theorem length_moduli_of_le : ∀ i ≤ 7, (moduli i).length = 2 ^ i := by decide +kernel

/-- The residues modulo the factors of each layer can be any. -/
theorem exists_residues {i : ℕ} (hi : i ≤ 7) {v : List Zq} (hv : v.length = N) :
    ∃ f, Split (fun γ => Residue (256 / 2 ^ i) γ f) (moduli i) v := by
  induction i generalizing v with
  | zero =>
    refine ⟨ofCoeffs v, [v], (List.append_nil v).symm, List.Forall₂.cons ?_ List.Forall₂.nil⟩
    have h := Residue.refl v (-1)
    rwa [hv] at h
  | succ i ih =>
    have htwo : (1665 : Zq) * 2 = 1 := by decide
    have hlt : i < 7 := hi
    have hsize : 256 / 2 ^ i = 2 * (256 / 2 ^ (i + 1)) := by
      interval_cases i <;> rfl
    have hcount : 2 ^ i * (256 / 2 ^ i) = N := by
      interval_cases i <;> rfl
    have hlength : (moduli i).length = 2 ^ i := length_moduli_of_le i (by omega)
    have hsquares : moduli i = ((layerZetas i).map root).map fun z => z * z := by
      rw [List.map_map]
      exact moduli_square i (by omega)
    rw [hsquares, List.length_map] at hlength
    refine exists_residue_halve htwo (exists_inverse_root (by omega)) (fun v hv => ?_) ?_
    · rw [← hsize, ← hsquares]
      refine ih (by omega) ?_
      rw [hv, hlength, ← hsize, Nat.mul_comm]
      exact hcount
    · change v.length = 256 / 2 ^ (i + 1) * (moduli (i + 1)).length
      rw [hv, length_moduli_of_le (i + 1) hi]
      interval_cases i <;> rfl

theorem Small.image {bound : ℤ} {v : Poly} (h : Small bound v) : ∃ f, Image bound f v := by
  obtain ⟨f, hf⟩ := exists_residues (le_refl 7) (v := v.map Int.cast)
    (by rw [List.length_map, h.length])
  exact ⟨f, split_chunk_iff.mpr ⟨hf, h.within⟩⟩

end Surjectivity

section Operations

/-- A vector with the same residues. -/
theorem Image.of_cast {A B : ℤ} {f : Zq[X]} {v out : Poly} (h : Image A f v)
    (hcast : out.map (Int.cast : ℤ → Zq) = v.map Int.cast) (hout : ∀ x ∈ out, Within B x) :
    Image B f out := by
  have hsplit := (split_chunk_iff.mp h).1
  rw [← hcast] at hsplit
  exact split_chunk_iff.mpr ⟨hsplit, hout⟩

theorem Standard.of_cast {A B : ℤ} {f : Zq[X]} {v out : Poly} (h : Standard A f v)
    (hcast : out.map (Int.cast : ℤ → Zq) = v.map Int.cast) (hout : ∀ x ∈ out, Within B x) :
    Standard B f out :=
  ⟨hcast ▸ h.residue, hout⟩

theorem image_reduce {f : Zq[X]} {v : Poly} (h : Image 31625 f v) :
    Yields (Poly.reduce v) (Image 1664 f) :=
  (reduce_yields h.small.within).mono fun _ hout => h.of_cast hout.1 hout.2

theorem standard_reduce {f : Zq[X]} {v : Poly} (h : Standard 31625 f v) :
    Yields (Poly.reduce v) (Standard 1664 f) :=
  (reduce_yields h.within).mono fun _ hout => h.of_cast hout.1 hout.2

/-- Sums and differences, by the residues of their values. -/
theorem zip_yields_cast {op : ℤ → ℤ → Except Trap ℤ} {s t : Zq} {A B D : ℤ} {a b : Poly}
    (ha : Small A a) (hb : Small B b) (hop : ∀ x y, Within A x → Within B y →
      Yields (op x y) fun r => Within D r ∧ (r : Zq) = s * x + t * y) :
    Yields ((a.zip b).mapM fun p => op p.1 p.2) fun out => (∀ x ∈ out, Within D x) ∧
      out.map (Int.cast : ℤ → Zq) =
        List.zipWith (fun x y => s * x + t * y) (a.map Int.cast) (b.map Int.cast) := by
  have hmap : Yields ((a.zip b).mapM fun p => op p.1 p.2) (List.Forall₂
      (fun p r => Within D r ∧ (r : Zq) = s * (p.1 : ℤ) + t * (p.2 : ℤ)) (a.zip b)) := by
    apply yields_mapM
    intro p hp
    obtain ⟨hpa, hpb⟩ := List.of_mem_zip hp
    exact hop p.1 p.2 (ha.within _ hpa) (hb.within _ hpb)
  have hlength := ha.length.trans hb.length.symm
  refine hmap.mono fun out hout => ?_
  clear ha hb hmap hop
  induction a generalizing b out with
  | nil =>
    cases hout
    simp
  | cons x a ih =>
    cases b with
    | nil => cases hlength
    | cons y b =>
      cases hout with
      | cons hr hrest =>
        obtain ⟨hwithin, hcast⟩ := ih (Nat.succ_injective hlength) _ hrest
        refine ⟨List.forall_mem_cons.mpr ⟨hr.1, hwithin⟩, ?_⟩
        simp only [List.map_cons, List.zipWith_cons_cons, hcast, hr.2]

theorem add_yields_cast {A B : ℤ} (hAB : A + B ≤ 32767) {a b : Poly} (ha : Small A a)
    (hb : Small B b) : Yields (Poly.add a b) fun out => (∀ x ∈ out, Within (A + B) x) ∧
      out.map (Int.cast : ℤ → Zq) =
        List.zipWith (fun x y => 1 * x + 1 * y) (a.map Int.cast) (b.map Int.cast) := by
  refine zip_yields_cast ha hb fun x y hx hy => ?_
  refine (i16_yields ((hx.add hy).mono hAB)).mono fun r hr => ?_
  subst hr
  exact ⟨hx.add hy, by push_cast; ring⟩

theorem sub_yields_cast {A B : ℤ} (hAB : A + B ≤ 32767) {a b : Poly} (ha : Small A a)
    (hb : Small B b) : Yields (Poly.sub a b) fun out => (∀ x ∈ out, Within (A + B) x) ∧
      out.map (Int.cast : ℤ → Zq) =
        List.zipWith (fun x y => 1 * x + -1 * y) (a.map Int.cast) (b.map Int.cast) := by
  refine zip_yields_cast ha hb fun x y hx hy => ?_
  refine (i16_yields ((hx.sub hy).mono hAB)).mono fun r hr => ?_
  subst hr
  exact ⟨hx.sub hy, by push_cast; ring⟩

theorem residues_combine {f g : Zq[X]} (s t : Zq) {a b : List Zq}
    (ha : Split (fun γ => Residue 2 γ f) (moduli 7) a)
    (hb : Split (fun γ => Residue 2 γ g) (moduli 7) b) :
    Split (fun γ => Residue 2 γ (C s * f + C t * g)) (moduli 7)
      (List.zipWith (fun x y => s * x + t * y) a b) :=
  ha.zipWith _ hb fun _ _ _ hl hr => ⟨hl.length.trans hr.length.symm, hl.combine s t hr⟩

theorem image_add {A B : ℤ} (hAB : A + B ≤ 32767) {f g : Zq[X]} {a b : Poly} (ha : Image A f a)
    (hb : Image B g b) : Yields (Poly.add a b) (Image (A + B) (f + g)) := by
  refine (add_yields_cast hAB ha.small hb.small).mono fun out hout => ?_
  have h := residues_combine 1 1 (split_chunk_iff.mp ha).1 (split_chunk_iff.mp hb).1
  rw [← hout.2, C_1, one_mul, one_mul] at h
  exact split_chunk_iff.mpr ⟨h, hout.1⟩

theorem standard_add {A B : ℤ} (hAB : A + B ≤ 32767) {f g : Zq[X]} {a b : Poly}
    (ha : Standard A f a) (hb : Standard B g b) :
    Yields (Poly.add a b) (Standard (A + B) (f + g)) := by
  refine (add_yields_cast hAB ha.small hb.small).mono fun out hout => ⟨?_, hout.1⟩
  have h := ha.residue.combine 1 1 hb.residue
  rwa [← hout.2, C_1, one_mul, one_mul] at h

theorem standard_sub {A B : ℤ} (hAB : A + B ≤ 32767) {f g : Zq[X]} {a b : Poly}
    (ha : Standard A f a) (hb : Standard B g b) :
    Yields (Poly.sub a b) (Standard (A + B) (f - g)) := by
  refine (sub_yields_cast hAB ha.small hb.small).mono fun out hout => ⟨?_, hout.1⟩
  have h := ha.residue.combine 1 (-1) hb.residue
  rwa [← hout.2, C_neg, C_1, one_mul, neg_one_mul, ← sub_eq_add_neg] at h

theorem image_ntt {f : Zq[X]} {v : Poly} (h : Standard 3328 f v) :
    Yields (Poly.ntt v) (Image 1664 f) :=
  (polyNtt_yields h.length h.within).mono fun _ hout => Image.congr hout h.residue.dvd

/-- A product is left with the factor of one Montgomery reduction. -/
theorem image_basemul {A B : ℤ} (hAB : A * B ≤ 109084671) {f g : Zq[X]} {a b : Poly}
    (ha : Image A f a) (hb : Image B g b) :
    Yields (Poly.basemulMontgomery a b) (Image 6656 (C 169 * (f * g))) := by
  refine (basemulMontgomery_yields hAB ha.small.length hb.small.length ha.small.within
    hb.small.within).mono fun out hout => ?_
  obtain ⟨-, hwithin, hcast⟩ := hout
  have hresidue := products_residue (split_chunk_iff.mp ha).1 (split_chunk_iff.mp hb).1
  rw [← hcast] at hresidue
  exact split_chunk_iff.mpr ⟨hresidue, hwithin⟩

/-- The inverse transform takes that factor away. -/
theorem standard_invnttTomont {f : Zq[X]} {v : Poly} (h : Image 6656 (C 169 * f) v) :
    Yields (Poly.invnttTomont v) (Standard 3328 f) := by
  have hone : (1441 * 169 * 2 ^ 7 : Zq) * 169 = 1 := by decide
  have hcancel : C (1441 * 169 * 2 ^ 7 : Zq) * (C 169 * f) = f := by
    rw [← mul_assoc, ← C_mul, hone, C_1, one_mul]
  refine (invntt_yields h).mono fun out hout => ⟨?_, hout.2⟩
  have hresidue := hout.1
  rwa [hcancel] at hresidue

theorem image_tomont {f : Zq[X]} {v : Poly} (h : Image 3328 (C 169 * f) v) :
    Yields (Poly.tomont v) (Image 3328 f) := by
  have hconst : i32.wrap (((1 <<< 32) % Q : ℕ) : ℤ) = 1353 := by decide
  have hvalue : ∀ x, Within 3328 x →
      Yields (do let product ← i32.mul x (i32.wrap ((1 <<< 32) % Q : ℕ)); Montgomery.reduce product)
        fun r => Within 3328 r ∧ (r : Zq) = 1353 * 169 * x := by
    intro x hx
    obtain ⟨hlo, hhi⟩ := hx
    rw [hconst]
    have hproduct : Within (3328 * 1353) (x * 1353) := ⟨by omega, by omega⟩
    refine (fqmul_cast (by norm_num) hproduct).mono fun r hr => ⟨hr.1, ?_⟩
    rw [hr.2]
    push_cast
    ring
  refine (mapM_yields hvalue h.small.within).mono fun out hout => ?_
  have hscaled : Split (fun γ => Residue 2 γ (C (1353 * 169) * (C 169 * f))) (moduli 7)
      (out.map Int.cast) := by
    rw [hout.1]
    obtain ⟨chunks, hv, hall⟩ := (split_chunk_iff.mp h).1
    refine ⟨chunks.map (List.map (1353 * 169 * ·)), by rw [hv, List.map_flatten], ?_⟩
    exact List.forall₂_map_right_iff.mpr (hall.imp fun _ _ hchunk => hchunk.scale _)
  have hone : (1353 * 169 * 169 : Zq) = 1 := by decide
  rw [← mul_assoc, ← C_mul, hone, C_1, one_mul] at hscaled
  exact split_chunk_iff.mpr ⟨hscaled, hout.2⟩

end Operations

end OrionNetwork.Kyber
