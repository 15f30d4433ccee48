import Mathlib.Data.List.GetD
import OrionNetwork.KyberBytes
import OrionNetwork.KyberIndcpa
import OrionNetwork.KyberNoise
import OrionNetwork.KyberTransforms
import OrionNetwork.NoisyEquations

/-!
# Decryption of what was encrypted

The vectors that key generation and encryption compute stand for the sides of two
equations with noise. Decryption is left with the message and what remains of the noise,
and reads each bit of the message where the coefficient of the noise is small enough. The
noise is that of the sampled vectors and of the values that the ciphertext rounds.
-/
namespace OrionNetwork.Kyber

open CheckedIntegers Matrix NoisyEquations Polynomial PolynomialHalves

section Vectors

/-- One polynomial for each place of the vector. -/
structure Vec (P : Zq[X] → Poly → Prop) (f : Fin K → Zq[X]) (v : Polyvec) : Prop where
  length : v.length = K
  holds : ∀ i : Fin K, P (f i) (v.getD i [])

noncomputable def ofVec (v : Polyvec) (i : Fin K) : Zq[X] := ofPoly (v.getD i [])

variable {P P' P'' : Zq[X] → Poly → Prop} {f g : Fin K → Zq[X]} {a b v : Polyvec}

theorem Vec.mono (h : Vec P f v) (hP : ∀ g p, P g p → P' g p) : Vec P' f v :=
  ⟨h.length, fun i => hP _ _ (h.holds i)⟩

theorem vec_mapM {α : Type} {op : α → Except Trap Poly} {l : List α} (d : α) (hlength : l.length = K)
    (h : ∀ i : Fin K, Yields (op (l.getD i d)) (P (f i))) : Yields (l.mapM op) (Vec P f) := by
  have hat : ∀ i < l.length, Yields (op (l.getD i d))
      fun p => ∀ hi : i < K, P (f ⟨i, hi⟩) p := by
    intro i hi
    rw [hlength] at hi
    exact (h ⟨i, hi⟩).mono fun p hp _ => hp
  refine (yields_mapM_getD d [] hat).mono fun out hout => ⟨hout.1.trans hlength, fun i => ?_⟩
  exact hout.2 i (hlength.symm ▸ i.isLt) i.isLt

theorem Vec.mapM {op : Poly → Except Trap Poly} {φ : Zq[X] → Zq[X]} (hv : Vec P f v)
    (h : ∀ g p, P g p → Yields (op p) (P' (φ g))) :
    Yields (v.mapM op) (Vec P' fun i => φ (f i)) :=
  vec_mapM [] hv.length fun i => h _ _ (hv.holds i)

theorem Vec.zip {op : Poly → Poly → Except Trap Poly} {φ : Zq[X] → Zq[X] → Zq[X]}
    (ha : Vec P f a) (hb : Vec P' g b)
    (h : ∀ f' g' p q, P f' p → P' g' q → Yields (op p q) (P'' (φ f' g'))) :
    Yields ((a.zip b).mapM fun p => op p.1 p.2) (Vec P'' fun i => φ (f i) (g i)) := by
  refine vec_mapM ([], []) (by rw [List.length_zip, ha.length, hb.length, min_self]) fun i => ?_
  have hget : (a.zip b).getD i ([], []) = (a.getD i [], b.getD i []) := by
    have hia : (i : ℕ) < a.length := ha.length.symm ▸ i.isLt
    have hib : (i : ℕ) < b.length := hb.length.symm ▸ i.isLt
    rw [List.getD_eq_getElem _ _ (by rw [List.length_zip]; exact lt_min hia hib),
      List.getD_eq_getElem _ _ hia, List.getD_eq_getElem _ _ hib, List.getElem_zip]
  rw [hget]
  exact h _ _ _ _ (ha.holds i) (hb.holds i)

theorem getD_mem {p : Poly} (hv : v.length = K) (i : Fin K) (h : v.getD i [] = p) : p ∈ v := by
  have hi : (i : ℕ) < v.length := hv.symm ▸ i.isLt
  rw [← h, List.getD_eq_getElem _ _ hi]
  exact List.getElem_mem hi

theorem SmallVec.standard {bound : ℤ} (h : SmallVec bound v) :
    Vec (Standard bound) (ofVec v) v :=
  ⟨h.length, fun i => (h.small _ (getD_mem h.length i rfl)).standard⟩

theorem SmallVec.image {bound : ℤ} (h : SmallVec bound v) : ∃ f, Vec (Image bound) f v := by
  have hall : ∀ i : Fin K, ∃ g, Image bound g (v.getD i []) := fun i =>
    (h.small _ (getD_mem h.length i rfl)).image
  obtain ⟨f, hf⟩ := Classical.axiom_of_choice hall
  exact ⟨f, h.length, hf⟩

theorem Vec.smallVec {bound : ℤ} (h : Vec P f v) (hP : ∀ g p, P g p → Small bound p) :
    SmallVec bound v := by
  refine ⟨h.length, fun p hp => ?_⟩
  obtain ⟨i, hi, rfl⟩ := List.getElem_of_mem hp
  have hholds := h.holds ⟨i, h.length ▸ hi⟩
  rw [List.getD_eq_getElem _ _ hi] at hholds
  exact hP _ _ hholds

/-- The rows of a matrix. -/
structure Mat (bound : ℤ) (A : Matrix (Fin K) (Fin K) Zq[X]) (a : List Polyvec) : Prop where
  length : a.length = K
  rows : ∀ i : Fin K, Vec (Image bound) (A i) (a.getD i [])

theorem vec_basemulAcc {A B : ℤ} (hAB : A * B ≤ 109084671) (ha : Vec (Image A) f a)
    (hb : Vec (Image B) g b) :
    Yields (Polyvec.basemulAccMontgomery a b) (Image 1664 (C 169 * (f ⬝ᵥ g))) := by
  obtain ⟨a0, a1, a2, rfl⟩ := List.length_eq_three.mp ha.length
  obtain ⟨b0, b1, b2, rfl⟩ := List.length_eq_three.mp hb.length
  have h0 := image_basemul hAB (ha.holds ⟨0, by decide⟩) (hb.holds ⟨0, by decide⟩)
  have h1 := image_basemul hAB (ha.holds ⟨1, by decide⟩) (hb.holds ⟨1, by decide⟩)
  have h2 := image_basemul hAB (ha.holds ⟨2, by decide⟩) (hb.holds ⟨2, by decide⟩)
  have hsum : C 169 * (f ⬝ᵥ g) = C 169 * (f ⟨0, by decide⟩ * g ⟨0, by decide⟩) +
      C 169 * (f ⟨1, by decide⟩ * g ⟨1, by decide⟩) +
        C 169 * (f ⟨2, by decide⟩ * g ⟨2, by decide⟩) := by
    have hthree : f ⬝ᵥ g = f ⟨0, by decide⟩ * g ⟨0, by decide⟩ +
        f ⟨1, by decide⟩ * g ⟨1, by decide⟩ + f ⟨2, by decide⟩ * g ⟨2, by decide⟩ :=
      Fin.sum_univ_three _
    rw [hthree]
    ring
  rw [hsum]
  generalize C 169 * (f ⟨0, by decide⟩ * g ⟨0, by decide⟩) = g0 at h0 ⊢
  generalize C 169 * (f ⟨1, by decide⟩ * g ⟨1, by decide⟩) = g1 at h1 ⊢
  generalize C 169 * (f ⟨2, by decide⟩ * g ⟨2, by decide⟩) = g2 at h2 ⊢
  refine h0.bind fun start hstart => ?_
  have hfold : Yields ([(a1, b1), (a2, b2)].foldlM
      (fun acc p => Poly.basemulMontgomery p.1 p.2 >>= Poly.add acc) start)
      (Image 19968 (g0 + g1 + g2)) := by
    rw [List.foldlM_cons]
    refine Yields.bind (P := Image 13312 (g0 + g1)) ?_ fun acc hacc => ?_
    · exact h1.bind fun q hq => image_add (by norm_num) hstart hq
    rw [List.foldlM_cons]
    refine Yields.bind (P := Image 19968 (g0 + g1 + g2)) ?_ fun acc hacc => ?_
    · exact h2.bind fun q hq => image_add (by norm_num) hacc hq
    exact yields_pure hacc
  exact hfold.bind fun res hres => image_reduce (Image.mono hres (by norm_num))

theorem Mat.mulVec {A B : ℤ} (hAB : A * B ≤ 109084671) {M : Matrix (Fin K) (Fin K) Zq[X]}
    {rows : List Polyvec} (hM : Mat A M rows) (hv : Vec (Image B) f v) :
    Yields (rows.mapM fun a => Polyvec.basemulAccMontgomery a v)
      (Vec (fun g => Image 1664 (C 169 * g)) (M *ᵥ f)) :=
  vec_mapM [] hM.length fun i => vec_basemulAcc hAB (hM.rows i) hv

end Vectors

section Matrix

variable {h : Hashes} {rounds : ℕ} {seed : List UInt8} {a a' : List Polyvec}

/-- What one position of the sampled matrix is. -/
theorem genMatrix_entry {xof : List UInt8 → Stream} {transposed : Bool}
    (ha : genMatrix xof rounds seed transposed = some a) {i j : ℕ} (hi : i < K) (hj : j < K) :
    ((a.getD i []).getD j []) =
      ((samplePoly (positionStream xof seed transposed i j) rounds).map Sampling.a).getD [] := by
  obtain ⟨run, hrun, rfl⟩ := Option.map_eq_some_iff.mp ha
  have hentry := runMatrix_entry hrun hi hj
  have hrow : (run.map (List.map Sampling.a)).getD i [] = (run.getD i []).map Sampling.a := by
    rw [List.getD_eq_getElem?_getD, List.getD_eq_getElem?_getD, List.getElem?_map]
    cases run[i]? <;> rfl
  rw [hrow, List.getD_eq_getElem?_getD, List.getElem?_map, hentry]

theorem genMatrix_transposed {xof : List UInt8 → Stream}
    (ha : genMatrix xof rounds seed false = some a)
    (ha' : genMatrix xof rounds seed true = some a') {i j : ℕ} (hi : i < K) (hj : j < K) :
    (a'.getD i []).getD j [] = (a.getD j []).getD i [] := by
  rw [genMatrix_entry ha' hi hj, genMatrix_entry ha hj hi]
  rfl

theorem genMatrix_of_expandMatrix {transposed : Bool}
    (ha : expandMatrix h rounds seed transposed = .ok a) :
    genMatrix h.shake128 rounds seed transposed = some a := by
  unfold expandMatrix at ha
  cases hmatrix : genMatrix h.shake128 rounds seed transposed with
  | none =>
    rw [hmatrix] at ha
    cases ha
  | some matrix =>
    rw [hmatrix] at ha
    cases ha
    rfl

theorem expandMatrix_small {transposed : Bool} (ha : expandMatrix h rounds seed transposed = .ok a) :
    a.length = K ∧ ∀ row ∈ a, SmallVec 3328 row := by
  rcases @expandMatrix_cases h rounds seed transposed with
    ⟨-, hnone⟩ | ⟨rows, hsome, hlength, hsmall⟩
  · rw [ha] at hnone
    cases hnone
  · rw [ha] at hsome
    cases hsome
    exact ⟨hlength, hsmall⟩

theorem getD_row_mem (hlength : a.length = K) (i : Fin K) : a.getD i [] ∈ a := by
  have hi : (i : ℕ) < a.length := hlength.symm ▸ i.isLt
  rw [List.getD_eq_getElem _ _ hi]
  exact List.getElem_mem hi

theorem exists_mat {transposed : Bool} (ha : expandMatrix h rounds seed transposed = .ok a) :
    ∃ A, Mat 3328 A a := by
  obtain ⟨hlength, hsmall⟩ := expandMatrix_small ha
  have himages : ∀ i : Fin K, ∃ f, Vec (Image 3328) f (a.getD i []) := fun i =>
    (hsmall _ (getD_row_mem hlength i)).image
  obtain ⟨A, hA⟩ := Classical.axiom_of_choice himages
  exact ⟨A, hlength, hA⟩

/-- Key generation and encryption have the same matrix, the second one transposed. -/
theorem Mat.transpose {A : Matrix (Fin K) (Fin K) Zq[X]}
    (ha : expandMatrix h rounds seed false = .ok a)
    (ha' : expandMatrix h rounds seed true = .ok a') (hA : Mat 3328 A a) : Mat 3328 Aᵀ a' := by
  obtain ⟨hlength, hsmall⟩ := expandMatrix_small ha'
  refine ⟨hlength, fun i => ⟨(hsmall _ (getD_row_mem hlength i)).length, fun j => ?_⟩⟩
  rw [genMatrix_transposed (genMatrix_of_expandMatrix ha) (genMatrix_of_expandMatrix ha') i.isLt
    j.isLt]
  exact (hA.rows j).holds i

end Matrix

section Sides

variable {h : Hashes} {rounds : ℕ}

/-- What `enc` compresses. -/
def encPolys (h : Hashes) (rounds : ℕ) (m : Bytes 32) (pk : Bytes 1184) (coins : Bytes 32) :
    Except Trap (Polyvec × Poly) := do
  let (pkpv, seed) := unpackPk pk.val
  let k ← Poly.fromMsg m.val
  let at' ← expandMatrix h rounds seed true
  let sp ← noise (Poly.getnoiseEta1 h.shake256) coins.val 0
  let ep ← noise (Poly.getnoiseEta2 h.shake256) coins.val K
  let epp ← Poly.getnoiseEta2 h.shake256 coins.val (UInt8.ofNat (K + K))
  let sp ← Polyvec.ntt sp
  let b ← at'.mapM fun a => Polyvec.basemulAccMontgomery a sp
  let v ← Polyvec.basemulAccMontgomery pkpv sp
  let b ← Polyvec.invnttTomont b
  let v ← Poly.invnttTomont v
  let b ← Polyvec.add b ep
  let v ← Poly.add v epp
  let v ← Poly.add v k
  let b ← Polyvec.reduce b
  let v ← Poly.reduce v
  return (b, v)

theorem enc_eq_bind (m : Bytes 32) (pk : Bytes 1184) (coins : Bytes 32) :
    enc h rounds m pk coins =
      encPolys h rounds m pk coins >>= fun p => packCiphertext p.1 p.2 := by
  unfold enc encPolys
  simp only [bind_assoc, pure_bind]

theorem canonical_cast (v : Poly) :
    (canonical v).map (Int.cast : ℤ → Zq) = v.map Int.cast := by
  have hQ : ((Q : ℕ) : ℤ) = ((3329 : ℕ) : ℤ) := rfl
  rw [canonical, List.map_map]
  refine List.map_congr_left fun u _ => ?_
  rw [Function.comp_apply, hQ, ZMod.intCast_mod]

theorem Image.canonical {bound : ℤ} {f : Zq[X]} {v : Poly} (h : Image bound f v) :
    Image 3328 f (canonical v) := by
  refine h.of_cast (canonical_cast v) fun x hx => ?_
  obtain ⟨u, -, rfl⟩ := List.mem_map.mp hx
  have hQ : ((Q : ℕ) : ℤ) = 3329 := rfl
  rw [hQ]
  exact ⟨by omega, by omega⟩

/-- A vector that was written and read again stands for the same polynomials. -/
theorem Vec.fromBytes {f : Fin K → Zq[X]} {v : Polyvec} (hv : Vec (Image 1664) f v) :
    Yields (Polyvec.toBytes v) fun b => b.length = 1152 ∧
      Vec (Image 3328) f (Polyvec.fromBytes b) := by
  have hsmall : SmallVec 3328 v := hv.smallVec fun _ _ hp => hp.small.mono (by norm_num)
  refine (polyvec_toBytes_spec hsmall).mono fun b hb => ⟨hb.1, ?_⟩
  rw [hb.2]
  refine ⟨by rw [List.length_map, hv.length], fun i => ?_⟩
  have hi : (i : ℕ) < v.length := hv.length.symm ▸ i.isLt
  have hholds := (hv.holds i).canonical
  rw [List.getD_eq_getElem _ _ hi] at hholds
  rwa [List.getD_eq_getElem _ _ (by rw [List.length_map]; exact hi), List.getElem_map]

theorem noise_sampled {getnoise : List UInt8 → UInt8 → Except Trap Poly}
    (hnoise : ∀ seed nonce, Yields (getnoise seed nonce) (Small 2)) (seed : List UInt8)
    (start : ℕ) : Yields (noise getnoise seed start) (SmallVec 2) :=
  (yields_mapM_forall fun _ _ => hnoise seed _).mono fun _ hv =>
    ⟨hv.1.trans List.length_range, hv.2⟩

theorem vec_ntt {f : Fin K → Zq[X]} {v : Polyvec} (hv : Vec (Standard 3328) f v) :
    Yields (Polyvec.ntt v) (Vec (Image 1664) f) :=
  hv.mapM fun _ _ hp => image_ntt hp

/-- The keys stand for the secret vector and for its product with the matrix. -/
theorem keypairDerand_spec {coins : Bytes 32} {pk sk : List UInt8}
    (hkeys : keypairDerand h rounds coins = .ok (pk, sk)) :
    ∃ a s e, expandMatrix h rounds ((h.sha3 coins.val).val.take 32) false = .ok a ∧
      noise (Poly.getnoiseEta1 h.shake256) ((h.sha3 coins.val).val.drop 32) 0 = .ok s ∧
      noise (Poly.getnoiseEta1 h.shake256) ((h.sha3 coins.val).val.drop 32) K = .ok e ∧
      SmallVec 2 s ∧ SmallVec 2 e ∧ (unpackPk pk).2 = (h.sha3 coins.val).val.take 32 ∧
      ∀ A, Mat 3328 A a →
        Vec (Image 3328) (publicVector A (ofVec s) (ofVec e)) (unpackPk pk).1 ∧
          Vec (Image 3328) (ofVec s) (unpackSk sk) := by
  have hnoise := getnoiseEta1_small h.shake256
  obtain ⟨s, hs, hssmall⟩ := noise_sampled hnoise ((h.sha3 coins.val).val.drop 32) 0
  obtain ⟨e, he, hesmall⟩ := noise_sampled hnoise ((h.sha3 coins.val).val.drop 32) K
  rcases @expandMatrix_cases h rounds ((h.sha3 coins.val).val.take 32) false with
    ⟨-, hrunning⟩ | ⟨a, ha, -, -⟩
  · unfold keypairDerand at hkeys
    simp only [hrunning] at hkeys
    cases hkeys
  refine ⟨a, s, e, ha, hs, he, hssmall, hesmall, ?_⟩
  have hstandard {v : Polyvec} (hv : SmallVec 2 v) : Vec (Standard 3328) (ofVec v) v :=
    (hv.mono (by norm_num)).standard
  have hrun {A : Matrix (Fin K) (Fin K) Zq[X]} (hA : Mat 3328 A a) :
      Yields (keypairDerand h rounds coins) fun keys =>
        (unpackPk keys.1).2 = (h.sha3 coins.val).val.take 32 ∧
          Vec (Image 3328) (publicVector A (ofVec s) (ofVec e)) (unpackPk keys.1).1 ∧
            Vec (Image 3328) (ofVec s) (unpackSk keys.2) := by
    refine (yields_of_eq ha).bind fun a' ha' => ?_
    subst ha'
    refine (yields_of_eq hs).bind fun s' hs' => ?_
    subst hs'
    refine (yields_of_eq he).bind fun e' he' => ?_
    subst he'
    refine (vec_ntt (hstandard hssmall)).bind fun sHat hsHat => ?_
    refine (vec_ntt (hstandard hesmall)).bind fun eHat heHat => ?_
    refine (hA.mulVec (by norm_num) hsHat).bind fun t ht => ?_
    refine (ht.mapM (φ := id) fun _ _ hp => image_tomont (hp.mono (by norm_num))).bind fun t ht => ?_
    refine (ht.zip heHat fun _ _ _ _ hp hq => image_add (by norm_num) hp hq).bind fun t ht => ?_
    refine (ht.mapM (φ := id) fun _ _ hp => image_reduce (hp.mono (by norm_num))).bind
      fun t ht => ?_
    refine Yields.bind (P := fun pk => (unpackPk pk).2 = (h.sha3 coins.val).val.take 32 ∧
      Vec (Image 3328) (publicVector A (ofVec s') (ofVec e')) (unpackPk pk).1) ?_ fun pk hpk => ?_
    · refine (Vec.fromBytes ht).bind fun bytes hbytes => yields_pure ?_
      unfold unpackPk
      rw [List.take_left' hbytes.1, List.drop_left' hbytes.1]
      exact ⟨rfl, hbytes.2⟩
    · exact (Vec.fromBytes hsHat).bind fun bytes hbytes => yields_pure ⟨hpk.1, hpk.2, hbytes.2⟩
  obtain ⟨A, hA⟩ := exists_mat ha
  exact ⟨((hrun hA).of_ok hkeys).1, fun A hA => ((hrun hA).of_ok hkeys).2⟩

/-- The message as `from_msg` has it. -/
def messagePoly (m : List UInt8) : Poly := (messageBits m).map fun c => if c then 1665 else 0

theorem length_messageBits (m : List UInt8) : (messageBits m).length = 8 * m.length := by
  induction m with
  | nil => rfl
  | cons b m ih =>
    rw [messageBits, List.flatMap_cons, List.length_append, List.length_map, List.length_range]
    change 8 + (messageBits m).length = _
    rw [ih, List.length_cons]
    ring

theorem messagePoly_small (m : Bytes 32) : Small 1665 (messagePoly m.val) := by
  refine ⟨?_, fun x hx => ?_⟩
  · rw [messagePoly, List.length_map, length_messageBits, m.property]
    rfl
  · obtain ⟨c, -, rfl⟩ := List.mem_map.mp hx
    split_ifs
    · exact ⟨by norm_num, by norm_num⟩
    · exact ⟨by norm_num, by norm_num⟩

/-- What is compressed stands for the sides of the equations that hide the message. -/
theorem encPolys_spec {m : Bytes 32} {pk : Bytes 1184} {coins : Bytes 32} {b : Polyvec} {v : Poly}
    (hb : encPolys h rounds m pk coins = .ok (b, v)) :
    ∃ a sp ep epp, expandMatrix h rounds (unpackPk pk.val).2 true = .ok a ∧
      noise (Poly.getnoiseEta1 h.shake256) coins.val 0 = .ok sp ∧
      noise (Poly.getnoiseEta2 h.shake256) coins.val K = .ok ep ∧
      Poly.getnoiseEta2 h.shake256 coins.val (UInt8.ofNat (K + K)) = .ok epp ∧
      SmallVec 2 sp ∧ SmallVec 2 ep ∧ Small 2 epp ∧
      ∀ A t, Mat 3328 Aᵀ a → Vec (Image 4095) t (unpackPk pk.val).1 →
        Vec (Standard 1664) (hiddenVector A (ofVec sp) (ofVec ep)) b ∧
          Standard 1664 (hiddenMessage t (ofVec sp) (ofPoly epp) (ofPoly (messagePoly m.val))) v := by
  obtain ⟨sp, hsp, hspsmall⟩ := noise_sampled (getnoiseEta1_small h.shake256) coins.val 0
  obtain ⟨ep, hep, hepsmall⟩ := noise_sampled (getnoiseEta2_small h.shake256) coins.val K
  obtain ⟨epp, hepp, heppsmall⟩ := getnoiseEta2_small h.shake256 coins.val (UInt8.ofNat (K + K))
  have hk := poly_fromMsg_spec m.val
  rcases @expandMatrix_cases h rounds (unpackPk pk.val).2 true with
    ⟨-, hrunning⟩ | ⟨a, ha, -, -⟩
  · unfold encPolys at hb
    simp only [hk, hrunning] at hb
    cases hb
  refine ⟨a, sp, ep, epp, ha, hsp, hep, hepp, hspsmall, hepsmall, heppsmall, fun A t hA ht => ?_⟩
  have hrun : Yields (encPolys h rounds m pk coins) fun p =>
      Vec (Standard 1664) (hiddenVector A (ofVec sp) (ofVec ep)) p.1 ∧
        Standard 1664 (hiddenMessage t (ofVec sp) (ofPoly epp) (ofPoly (messagePoly m.val))) p.2 := by
    refine (yields_of_eq hk).bind fun k hk => ?_
    subst hk
    refine (yields_of_eq ha).bind fun a' ha' => ?_
    subst ha'
    refine (yields_of_eq hsp).bind fun sp' hsp' => ?_
    subst hsp'
    refine (yields_of_eq hep).bind fun ep' hep' => ?_
    subst hep'
    refine (yields_of_eq hepp).bind fun epp' hepp' => ?_
    subst hepp'
    refine (vec_ntt (hspsmall.mono (by norm_num)).standard).bind fun spHat hspHat => ?_
    refine (hA.mulVec (by norm_num) hspHat).bind fun b hb => ?_
    refine (vec_basemulAcc (by norm_num) ht hspHat).bind fun v hv => ?_
    refine (hb.mapM (φ := id) fun _ _ hp => standard_invnttTomont (hp.mono (by norm_num))).bind
      fun b hb => ?_
    refine (standard_invnttTomont (hv.mono (by norm_num))).bind fun v hv => ?_
    refine (hb.zip hepsmall.standard fun _ _ _ _ hp hq =>
      standard_add (by norm_num) hp hq).bind fun b hb => ?_
    refine (standard_add (by norm_num) hv heppsmall.standard).bind fun v hv => ?_
    refine (standard_add (by norm_num) hv (messagePoly_small m).standard).bind fun v hv => ?_
    refine (hb.mapM (φ := id) fun _ _ hp => standard_reduce (hp.mono (by norm_num))).bind
      fun b hb => ?_
    refine (standard_reduce (hv.mono (by norm_num))).bind fun v hv => ?_
    exact yields_pure ⟨hb, hv⟩
  exact hrun.of_ok hb

theorem encPolys_small {m : Bytes 32} {pk : Bytes 1184} {coins : Bytes 32} {b : Polyvec} {v : Poly}
    (hb : encPolys h rounds m pk coins = .ok (b, v)) : SmallVec 1664 b ∧ Small 1664 v := by
  obtain ⟨a, sp, ep, epp, ha, -, -, -, -, -, -, hsides⟩ := encPolys_spec hb
  obtain ⟨A, hA⟩ := exists_mat ha
  obtain ⟨t, ht⟩ : ∃ t, Vec (Image 4095) t (unpackPk pk.val).1 := by
    refine (polyvec_fromBytes_small ?_).image
    rw [List.length_take, pk.property]
    rfl
  obtain ⟨hvec, hpoly⟩ := hsides Aᵀ t hA ht
  exact ⟨hvec.smallVec fun _ _ hp => hp.small, hpoly.small⟩

/-- A ciphertext gives back what was compressed, with small errors. -/
theorem packCiphertext_spec {b : Polyvec} {v : Poly} (hb : SmallVec 3328 b) (hv : Small 3328 v) :
    Yields (packCiphertext b v) fun c => c.length = 1088 ∧ Yields (unpackCiphertext c) fun p =>
      List.Forall₂ (List.Forall₂ (Near 2)) b p.1 ∧ List.Forall₂ (Near 104) v p.2 := by
  refine (polyvec_compress_spec hb).bind fun bBytes hbBytes => ?_
  refine (poly_compress_spec hv).bind fun vBytes hvBytes => yields_pure ?_
  refine ⟨by rw [List.length_append, hbBytes.1, hvBytes.1], ?_⟩
  unfold unpackCiphertext
  rw [List.take_left' hbBytes.1, List.drop_left' hbBytes.1]
  refine hbBytes.2.bind fun bRead hbRead => ?_
  exact hvBytes.2.bind fun vRead hvRead => yields_pure ⟨hbRead, hvRead⟩

/-- Every byte string of the right length is written as it was read, and what is written is read
with its values modulo `Q`, in a ciphertext up to small errors. -/
theorem formats_round_trip :
    (∀ pk : Bytes 1184, packPk (unpackPk pk.val).1 (unpackPk pk.val).2 = .ok pk.val) ∧
    (∀ sk : Bytes 1152, packSk (unpackSk sk.val) = .ok sk.val) ∧
    (∀ ct : Bytes 1088,
      Yields (unpackCiphertext ct.val) fun c => packCiphertext c.1 c.2 = .ok ct.val) ∧
    (∀ (v : { v : Polyvec // SmallVec 3328 v }) (seed : List UInt8),
      Yields (packPk v.val seed) fun pk => unpackPk pk = (v.val.map canonical, seed)) ∧
    ∀ (b : { b : Polyvec // SmallVec 3328 b }) (v : { v : Poly // Small 3328 v }),
      Yields (packCiphertext b.val v.val) fun ct => Yields (unpackCiphertext ct) fun c =>
        List.Forall₂ (List.Forall₂ (Near 2)) b.val c.1 ∧ List.Forall₂ (Near 104) v.val c.2 := by
  refine ⟨fun pk => ?_, fun sk => polyvec_toBytes_fromBytes sk.property, fun ct => ?_,
    fun v seed => ?_, fun b v => (packCiphertext_spec b.property v.property).mono fun _ hct => hct.2⟩
  · have hlength : (pk.val.take 1152).length = 1152 := by
      rw [List.length_take, pk.property]
      rfl
    unfold packPk unpackPk
    rw [polyvec_toBytes_fromBytes hlength]
    exact congrArg Except.ok (List.take_append_drop 1152 pk.val)
  · have hlength : (ct.val.take 960).length = 960 := by
      rw [List.length_take, ct.property]
      rfl
    refine (polyvec_compress_decompress hlength).bind fun b hb => ?_
    refine (poly_compress_decompress (ct.val.drop 960)).bind fun v hv => yields_pure ?_
    unfold packCiphertext
    rw [hb, hv]
    exact congrArg Except.ok (List.take_append_drop 960 ct.val)
  · refine (polyvec_toBytes_spec v.property).bind fun bytes hbytes => yields_pure ?_
    unfold unpackPk
    rw [List.take_left' hbytes.1, List.drop_left' hbytes.1, hbytes.2]

/-- Decryption reads the message off the difference of the two sides. -/
theorem dec_spec {ct : Bytes 1088} {sk : Bytes 1152} {b : Polyvec} {v : Poly} {s : Fin K → Zq[X]}
    (hct : unpackCiphertext ct.val = .ok (b, v)) (hs : Vec (Image 3328) s (unpackSk sk.val)) :
    ∃ mp, dec ct sk = Poly.toMsg mp ∧ Standard 1664 (ofPoly v - s ⬝ᵥ ofVec b) mp := by
  obtain ⟨hbsmall, hvsmall⟩ := (unpackCiphertext_yields ct).of_ok hct
  obtain ⟨mp, hmp, hstandard⟩ : Yields (do
      let bHat ← Polyvec.ntt b
      let mp ← Polyvec.basemulAccMontgomery (unpackSk sk.val) bHat
      let mp ← Poly.invnttTomont mp
      let mp ← Poly.sub v mp
      Poly.reduce mp) (Standard 1664 (ofPoly v - s ⬝ᵥ ofVec b)) := by
    refine (vec_ntt hbsmall.standard).bind fun bHat hbHat => ?_
    refine (vec_basemulAcc (by norm_num) hs hbHat).bind fun mp hmp => ?_
    refine (standard_invnttTomont (hmp.mono (by norm_num))).bind fun mp hmp => ?_
    refine (standard_sub (by norm_num) hvsmall.standard hmp).bind fun mp hmp => ?_
    exact standard_reduce (hmp.mono (by norm_num))
  refine ⟨mp, ?_, hstandard⟩
  have hdec : dec ct sk = (do
      let bHat ← Polyvec.ntt b
      let mp ← Polyvec.basemulAccMontgomery (unpackSk sk.val) bHat
      let mp ← Poly.invnttTomont mp
      let mp ← Poly.sub v mp
      Poly.reduce mp) >>= Poly.toMsg := by
    unfold dec
    rw [hct]
    simp only [bind_assoc]
    rfl
  rw [hdec, hmp]
  rfl

end Sides

section Exchanges

variable {h : Hashes} {rounds : ℕ} {coins m r : Bytes 32} {pk : Bytes 1184} {sk : Bytes 1152}
  {ct : Bytes 1088}

/-- The vectors of key generation and encryption, those that are compressed, and those that the
ciphertext gives back. -/
structure Exchange where
  s : Polyvec
  e : Polyvec
  sp : Polyvec
  ep : Polyvec
  epp : Poly
  b : Polyvec
  v : Poly
  bRead : Polyvec
  vRead : Poly

/-- The code computes these vectors. -/
structure Exchange.Runs (h : Hashes) (rounds : ℕ) (coins m r : Bytes 32) (pk : Bytes 1184)
    (ct : Bytes 1088) (x : Exchange) : Prop where
  s : noise (Poly.getnoiseEta1 h.shake256) ((h.sha3 coins.val).val.drop 32) 0 = .ok x.s
  e : noise (Poly.getnoiseEta1 h.shake256) ((h.sha3 coins.val).val.drop 32) K = .ok x.e
  sp : noise (Poly.getnoiseEta1 h.shake256) r.val 0 = .ok x.sp
  ep : noise (Poly.getnoiseEta2 h.shake256) r.val K = .ok x.ep
  epp : Poly.getnoiseEta2 h.shake256 r.val (UInt8.ofNat (K + K)) = .ok x.epp
  compressed : encPolys h rounds m pk r = .ok (x.b, x.v)
  read : unpackCiphertext ct.val = .ok (x.bRead, x.vRead)

/-- The noise that decryption has to tell from the message. -/
noncomputable def Exchange.noise (x : Exchange) : Zq[X] :=
  NoisyEquations.noise (ofVec x.s) (ofVec x.e) (ofVec x.sp) (ofVec x.ep)
    (ofVec x.bRead - ofVec x.b) (ofPoly x.epp) (ofPoly x.vRead - ofPoly x.v)

/-- A coefficient of what is left of the polynomial modulo `X ^ N + 1`. -/
noncomputable def coeffAt (f : Zq[X]) (i : ℕ) : Zq := (f %ₘ (X ^ N + 1)).coeff i

/-- Coefficients of the noise beside which the bit is read. -/
def Tolerated (c : Bool) (n : Zq) : Prop := -832 ≤ n.valMinAbs ∧ n.valMinAbs ≤ if c then 831 else 832

/-- The equations with the values that the ciphertext rounds. -/
theorem same_noise {A : Matrix (Fin K) (Fin K) Zq[X]} {s e sp ep : Fin K → Zq[X]}
    {epp k : Zq[X]} {bound : ℤ} {b bRead : Polyvec} {v vRead : Poly}
    (hb : Vec (Standard bound) (hiddenVector A sp ep) b)
    (hv : Standard bound (hiddenMessage (publicVector A s e) sp epp k) v) :
    Same (k + NoisyEquations.noise s e sp ep (ofVec bRead - ofVec b) epp (ofPoly vRead - ofPoly v))
      (ofPoly vRead - s ⬝ᵥ ofVec bRead) := by
  have hvector (i : Fin K) : (X ^ N - C (-1) : Zq[X]) ∣ hiddenVector A sp ep i - ofVec b i :=
    (hb.holds i).residue.dvd
  have hmessage : (X ^ N - C (-1) : Zq[X]) ∣
      hiddenMessage (publicVector A s e) sp epp k - ofPoly v := hv.residue.dvd
  exact dvd_noise_sub hvector hmessage

/-- A bit is read where the coefficient of the noise is tolerated. -/
theorem readsOne_iff {c : Bool} {t : ℤ} {n : Zq}
    (ht : (t : Zq) = ((if c then 1665 else 0 : ℤ) : Zq) + n) :
    (decide (ReadsOne t) = c) ↔ Tolerated c n := by
  have hrange : n.valMinAbs * 2 ∈ Set.Ioc (-((3329 : ℕ) : ℤ)) ((3329 : ℕ) : ℤ) :=
    ZMod.valMinAbs_mem_Ioc n
  obtain ⟨hlo, hhi⟩ := hrange
  have hdvd : ((3329 : ℕ) : ℤ) ∣ t - ((if c then 1665 else 0) + n.valMinAbs) := by
    rw [← ZMod.intCast_zmod_eq_zero_iff_dvd]
    push_cast at ht ⊢
    rw [ht, sub_self]
  have hQ : ((Q : ℕ) : ℤ) = 3329 := rfl
  unfold Tolerated
  generalize n.valMinAbs = x at hlo hhi hdvd ⊢
  cases c with
  | false =>
    simp only [Bool.false_eq_true, if_false] at hdvd ⊢
    rw [decide_eq_false_iff_not, ReadsOne, hQ]
    omega
  | true =>
    simp only [if_true] at hdvd ⊢
    rw [decide_eq_true_iff, ReadsOne, hQ]
    omega

theorem getD_map_cast (v : Poly) (i : ℕ) :
    (v.map (Int.cast : ℤ → Zq)).getD i 0 = ((v.getD i 0 : ℤ) : Zq) := by
  rw [List.getD_eq_getElem?_getD, List.getD_eq_getElem?_getD, List.getElem?_map]
  cases v[i]? with
  | none => rw [Option.map_none, Option.getD_none, Option.getD_none, Int.cast_zero]
  | some x => rfl

/-- Each value that is left after the subtraction is that of its bit and of the noise. -/
theorem cast_getD_of_standard {bound : ℤ} {f : Zq[X]} {m : Bytes 32} {mp : Poly}
    (hmp : Standard bound (ofPoly (messagePoly m.val) + f) mp) (i : ℕ) :
    ((mp.getD i 0 : ℤ) : Zq) =
      ((if (messageBits m.val).getD i false then 1665 else 0 : ℤ) : Zq) + coeffAt f i := by
  have hnontrivial : Nontrivial Zq := ZMod.nontrivial_iff.mpr (by norm_num)
  have hN : N ≠ 0 := Nat.succ_ne_zero 255
  have hmessage := (messagePoly_small m).standard.residue.coeff_modByMonic_add_one hN i
  have hsum := hmp.residue.coeff_modByMonic_add_one hN i
  rw [add_modByMonic, coeff_add, hmessage, getD_map_cast, getD_map_cast] at hsum
  have hbit : (messagePoly m.val).getD i 0 =
      if (messageBits m.val).getD i false then 1665 else 0 := by
    rw [messagePoly, List.getD_eq_getElem?_getD, List.getD_eq_getElem?_getD, List.getElem?_map]
    cases (messageBits m.val)[i]? <;> rfl
  rw [← hsum, hbit, coeffAt]

theorem map_eq_iff_getD {α β : Type} {f : α → β} (d : α) (d' : β) {l : List α} {l' : List β}
    (hlength : l.length = l'.length) :
    l.map f = l' ↔ ∀ i < l.length, f (l.getD i d) = l'.getD i d' := by
  constructor
  · rintro rfl i hi
    rw [List.getD_eq_getElem _ _ hi, List.getD_eq_getElem _ _ (by rwa [List.length_map]),
      List.getElem_map]
  · intro h
    refine List.ext_getElem (by rw [List.length_map, hlength]) fun i hi hi' => ?_
    rw [List.length_map] at hi
    have hget := h i hi
    rwa [List.getD_eq_getElem _ _ hi, List.getD_eq_getElem _ _ hi', ← List.getElem_map f] at hget

theorem dec_enc_iff (hkeys : keypairDerand h rounds coins = .ok (pk.val, sk.val))
    (henc : enc h rounds m pk r = .ok ct.val) :
    ∃ x : Exchange, x.Runs h rounds coins m r pk ct ∧
      (dec ct sk = .ok m.val ↔
        ∀ i < N, Tolerated ((messageBits m.val).getD i false) (coeffAt x.noise i)) := by
  obtain ⟨a, s, e, ha, hs, he, -, -, hseed, hkeyspec⟩ := keypairDerand_spec hkeys
  rw [enc_eq_bind] at henc
  cases hpolys : encPolys h rounds m pk r with
  | error err =>
    rw [hpolys] at henc
    cases henc
  | ok p =>
    obtain ⟨b, v⟩ := p
    obtain ⟨a', sp, ep, epp, ha', hsp, hep, hepp, -, -, -, hsides⟩ := encPolys_spec hpolys
    obtain ⟨⟨bRead, vRead⟩, hread, -⟩ := unpackCiphertext_yields ct
    let x : Exchange := ⟨s, e, sp, ep, epp, b, v, bRead, vRead⟩
    refine ⟨x, ⟨hs, he, hsp, hep, hepp, hpolys, hread⟩, ?_⟩
    obtain ⟨A, hA⟩ := exists_mat ha
    obtain ⟨ht, hsk⟩ := hkeyspec A hA
    rw [hseed] at ha'
    obtain ⟨hb, hv⟩ := hsides A _ (Mat.transpose ha ha' hA)
      (ht.mono fun _ _ hp => hp.mono (by norm_num))
    obtain ⟨mp, hdec, hmp⟩ := dec_spec hread hsk
    have hnoise : Standard 1664 (ofPoly (messagePoly m.val) + x.noise) mp :=
      hmp.congr (same_noise hb hv)
    generalize x.noise = f at hnoise ⊢
    have hlength : (messageBits m.val).length = N := by
      rw [length_messageBits, m.property]
      rfl
    rw [hdec, poly_toMsg_eq_iff (hmp.small.mono (by norm_num)), map_eq_iff_getD 0 false
      (hmp.small.length.trans hlength.symm), hmp.small.length]
    refine forall₂_congr fun i _ => ?_
    exact readsOne_iff (cast_getD_of_standard hnoise i)

def zeroBytes (n : ℕ) : Bytes n := ⟨List.replicate n 0, List.length_replicate⟩

/-- Hashes of which every byte is zero. -/
def zeroHashes : Hashes := ⟨fun _ _ => 0, fun _ _ => 0, fun _ => zeroBytes 64⟩

theorem samplePoly_zero : (samplePoly (fun _ => 0) 0).isSome = true := by decide +kernel

theorem expandMatrix_zero (seed : List UInt8) (transposed : Bool) :
    ∃ a, expandMatrix zeroHashes 0 seed transposed = .ok a := by
  obtain ⟨s, hs⟩ := Option.isSome_iff_exists.mp samplePoly_zero
  have hstream (i j : ℕ) : positionStream (fun _ _ => 0) seed transposed i j = fun _ => 0 := by
    unfold positionStream
    split_ifs
    · rfl
    · rfl
  have hmatrix : genMatrix zeroHashes.shake128 0 seed transposed =
      some (List.replicate K (List.replicate K s.a)) := by
    change genMatrix (fun _ _ => 0) 0 seed transposed = _
    unfold genMatrix runMatrix
    simp only [hstream, hs]
    rfl
  refine ⟨List.replicate K (List.replicate K s.a), ?_⟩
  unfold expandMatrix
  rw [hmatrix]

theorem exists_zero_exchange : ∃ (pk : Bytes 1184) (sk : Bytes 1152) (ct : Bytes 1088),
    keypairDerand zeroHashes 0 (zeroBytes 32) = .ok (pk.val, sk.val) ∧
      enc zeroHashes 0 (zeroBytes 32) pk (zeroBytes 32) = .ok ct.val := by
  obtain ⟨a, ha⟩ := expandMatrix_zero ((zeroHashes.sha3 (zeroBytes 32).val).val.take 32) false
  obtain ⟨hlength, hrows⟩ := expandMatrix_small ha
  obtain ⟨⟨pk, sk⟩, hkeys, hpk, hsk⟩ := keypairDerand_yields ha hlength hrows
  obtain ⟨a', ha'⟩ := expandMatrix_zero (pk.drop 1152) true
  obtain ⟨hlength', hrows'⟩ := expandMatrix_small ha'
  obtain ⟨ct, hct, hctlength⟩ := @enc_yields zeroHashes 0 (zeroBytes 32) ⟨pk, hpk⟩
    (zeroBytes 32) a' ha' hlength' hrows'
  exact ⟨⟨pk, hpk⟩, ⟨sk, hsk⟩, ⟨ct, hctlength⟩, hkeys, hct⟩

theorem dec_enc_iff_zero : ∃ (pk : Bytes 1184) (sk : Bytes 1152) (ct : Bytes 1088) (x : Exchange),
    x.Runs zeroHashes 0 (zeroBytes 32) (zeroBytes 32) (zeroBytes 32) pk ct ∧
      (dec ct sk = .ok (zeroBytes 32).val ↔ ∀ i < N,
        Tolerated ((messageBits (zeroBytes 32).val).getD i false) (coeffAt x.noise i)) := by
  obtain ⟨pk, sk, ct, hkeys, henc⟩ := exists_zero_exchange
  obtain ⟨x, hx, hiff⟩ := dec_enc_iff hkeys henc
  exact ⟨pk, sk, ct, x, hx, hiff⟩

/-- The sum of the coefficients without their signs. -/
def weight (v : Polyvec) : ℤ := ∑ i : Fin K, ((v.getD i []).map abs).sum

theorem Small.sized {bound : ℤ} {p : Poly} (hp : Small bound p) : Sized N bound (ofCoeffs p) := by
  have hsized := sized_ofCoeffs fun a ha => abs_le.mpr (hp.within a ha)
  rwa [hp.length] at hsized

theorem SmallVec.sized {bound : ℤ} {v : Polyvec} (hv : SmallVec bound v) (i : Fin K) :
    Sized N bound (ofCoeffs (v.getD i [])) :=
  (hv.small _ (getD_mem hv.length i rfl)).sized

end Exchanges

end OrionNetwork.Kyber
