import OrionNetwork.KyberPoly

/-!
# The public key encryption of Kyber

Key generation, encryption and decryption, with the three hashes as parameters. The
matrix is sampled with a bound on the refills, so that a run may stop because its bound
is reached. It is never stopped by an arithmetic operation that leaves its type, for any
key, ciphertext or message of the right length.
-/
namespace OrionNetwork.Kyber

open CheckedIntegers

structure Hashes where
  shake128 : List UInt8 → Stream
  shake256 : List UInt8 → Stream
  sha3 : List UInt8 → Bytes 64

variable (h : Hashes) (rounds : ℕ)

def expandMatrix (seed : List UInt8) (transposed : Bool) : Except Trap (List Polyvec) :=
  match genMatrix h.shake128 rounds seed transposed with
  | none => .error .running
  | some matrix => .ok matrix

def packPk (polyvec : Polyvec) (seed : List UInt8) : Except Trap (List UInt8) := do
  let bytes ← Polyvec.toBytes polyvec
  return bytes ++ seed

def unpackPk (pk : List UInt8) : Polyvec × List UInt8 :=
  (Polyvec.fromBytes (pk.take 1152), pk.drop 1152)

def packSk (sk : Polyvec) : Except Trap (List UInt8) := Polyvec.toBytes sk

def unpackSk (sk : List UInt8) : Polyvec := Polyvec.fromBytes sk

def packCiphertext (b : Polyvec) (v : Poly) : Except Trap (List UInt8) := do
  let bBytes ← Polyvec.compress b
  let vBytes ← Poly.compress v
  return bBytes ++ vBytes

def unpackCiphertext (c : List UInt8) : Except Trap (Polyvec × Poly) := do
  let b ← Polyvec.decompress (c.take 960)
  let v ← Poly.decompress (c.drop 960)
  return (b, v)

/-- `array::from_fn` over the noise polynomials from this nonce on. -/
def noise (getnoise : List UInt8 → UInt8 → Except Trap Poly) (seed : List UInt8) (start : ℕ) :
    Except Trap Polyvec :=
  (List.range K).mapM fun i => getnoise seed (UInt8.ofNat (i + start))

def keypairDerand (coins : Bytes 32) : Except Trap (List UInt8 × List UInt8) := do
  let buf := h.sha3 coins.val
  let publicseed := buf.val.take 32
  let noiseseed := buf.val.drop 32
  let a ← expandMatrix h rounds publicseed false
  let skpv ← noise (Poly.getnoiseEta1 h.shake256) noiseseed 0
  let e ← noise (Poly.getnoiseEta1 h.shake256) noiseseed K
  let skpv ← Polyvec.ntt skpv
  let e ← Polyvec.ntt e
  let pkpv ← a.mapM fun a => Polyvec.basemulAccMontgomery a skpv
  let pkpv ← pkpv.mapM Poly.tomont
  let pkpv ← Polyvec.add pkpv e
  let pkpv ← Polyvec.reduce pkpv
  let pk ← packPk pkpv publicseed
  let sk ← packSk skpv
  return (pk, sk)

def enc (m : Bytes 32) (pk : Bytes 1184) (coins : Bytes 32) : Except Trap (List UInt8) := do
  let (pkpv, seed) := unpackPk pk.val
  let k ← Poly.fromMsg m.val
  let at' ← expandMatrix h rounds seed true
  let sp ← noise (Poly.getnoiseEta1 h.shake256) coins.val 0
  let ep ← noise (Poly.getnoiseEta2 h.shake256) coins.val K
  let epp ← Poly.getnoiseEta2 h.shake256 coins.val (UInt8.ofNat (K + K))
  let sp ← Polyvec.ntt sp
  let b ← at'.mapM fun a => Polyvec.basemulAccMontgomery a sp
  let v ← Polyvec.basemulAccMontgomery pkpv sp
  let b ← Polyvec.invnttTomont b
  let v ← Poly.invnttTomont v
  let b ← Polyvec.add b ep
  let v ← Poly.add v epp
  let v ← Poly.add v k
  let b ← Polyvec.reduce b
  let v ← Poly.reduce v
  packCiphertext b v

def dec (ct : Bytes 1088) (sk : Bytes 1152) : Except Trap (List UInt8) := do
  let skpv := unpackSk sk.val
  let (b, v) ← unpackCiphertext ct.val
  let b ← Polyvec.ntt b
  let mp ← Polyvec.basemulAccMontgomery skpv b
  let mp ← Poly.invnttTomont mp
  let mp ← Poly.sub v mp
  let mp ← Poly.reduce mp
  Poly.toMsg mp

variable {h rounds}

/-- The matrix is there, with rows of small polynomials, or the bound is reached. -/
theorem expandMatrix_cases (seed : List UInt8) (transposed : Bool) :
    (genMatrix h.shake128 rounds seed transposed = none ∧
      expandMatrix h rounds seed transposed = .error .running) ∨
    ∃ a, expandMatrix h rounds seed transposed = .ok a ∧ a.length = K ∧
      ∀ row ∈ a, SmallVec 3328 row := by
  unfold expandMatrix
  cases hmatrix : genMatrix h.shake128 rounds seed transposed with
  | none => exact .inl ⟨rfl, rfl⟩
  | some a =>
    right
    obtain ⟨hlength, hrows⟩ := genMatrix_filled hmatrix
    refine ⟨a, rfl, hlength, fun row hrow => ⟨(hrows row hrow).1, fun p hp => ?_⟩⟩
    obtain ⟨hplength, hp⟩ := (hrows row hrow).2 p hp
    refine ⟨hplength, fun x hx => ?_⟩
    obtain ⟨hlo, hhi⟩ := hp x hx
    unfold Q at hhi
    exact ⟨by omega, by omega⟩

theorem noise_yields {getnoise : List UInt8 → UInt8 → Except Trap Poly}
    (hnoise : ∀ seed nonce, Yields (getnoise seed nonce) (Small 3)) (seed : List UInt8)
    (start : ℕ) : Yields (noise getnoise seed start) (SmallVec 3) :=
  (yields_mapM_forall fun _ _ => hnoise seed _).mono fun _ hv =>
    ⟨hv.1.trans List.length_range, hv.2⟩

/-- The rows of the matrix times a vector. -/
theorem rows_yields {a : List Polyvec} {s : Polyvec} (hlength : a.length = K)
    (ha : ∀ row ∈ a, SmallVec 3328 row) (hs : SmallVec 1664 s) :
    Yields (a.mapM fun a => Polyvec.basemulAccMontgomery a s) (SmallVec 1664) :=
  (yields_mapM_forall fun row hrow => basemulAccMontgomery_yields (by norm_num) (ha row hrow) hs).mono
    fun _ hv => ⟨hv.1.trans hlength, hv.2⟩

theorem polyvec_ntt_yields {v : Polyvec} (hv : SmallVec 3328 v) :
    Yields (Polyvec.ntt v) (SmallVec 1664) :=
  hv.mapM_yields fun _ hp => poly_ntt_yields hp

theorem polyvec_reduce_yields {v : Polyvec} (hv : SmallVec 31625 v) :
    Yields (Polyvec.reduce v) (SmallVec 1664) :=
  hv.mapM_yields fun _ hp => poly_reduce_yields hp

theorem polyvec_add_yields {A B : ℤ} (hAB : A + B ≤ 32767) {a b : Polyvec} (ha : SmallVec A a)
    (hb : SmallVec B b) : Yields (Polyvec.add a b) (SmallVec (A + B)) :=
  ha.zip_yields hb fun _ _ hp hq => poly_add_yields hAB hp hq

theorem unpackCiphertext_yields (ct : Bytes 1088) :
    Yields (unpackCiphertext ct.val) fun c => SmallVec 3328 c.1 ∧ Small 3328 c.2 := by
  have hb : (ct.val.take 960).length = 960 := by
    rw [List.length_take, ct.property]
    rfl
  have hv : (ct.val.drop 960).length = 128 := by
    rw [List.length_drop, ct.property]
  refine (polyvec_decompress_yields hb).bind fun b hb => ?_
  exact (poly_decompress_yields hv).bind fun v hv => yields_pure ⟨hb, hv⟩

theorem dec_yields (ct : Bytes 1088) (sk : Bytes 1152) :
    Yields (dec ct sk) (List.length · = 32) := by
  have hsk : SmallVec 4095 (unpackSk sk.val) := polyvec_fromBytes_small sk.property
  refine (unpackCiphertext_yields ct).bind fun c hc => ?_
  refine (polyvec_ntt_yields hc.1).bind fun b hb => ?_
  refine (basemulAccMontgomery_yields (by norm_num) hsk hb).bind fun mp hmp => ?_
  refine (poly_invnttTomont_yields (hmp.mono (by norm_num))).bind fun mp hmp => ?_
  refine (poly_sub_yields (by norm_num) hc.2 hmp).bind fun mp hmp => ?_
  refine (poly_reduce_yields (hmp.mono (by norm_num))).bind fun mp hmp => ?_
  exact poly_toMsg_yields (hmp.mono (by norm_num))

/-- What is left of the key generation when the matrix is there. -/
theorem keypairDerand_yields {coins : Bytes 32} {a : List Polyvec}
    (ha : expandMatrix h rounds ((h.sha3 coins.val).val.take 32) false = .ok a)
    (hlength : a.length = K) (hrows : ∀ row ∈ a, SmallVec 3328 row) :
    Yields (keypairDerand h rounds coins) fun keys =>
      keys.1.length = 1184 ∧ keys.2.length = 1152 := by
  have hnoise := getnoiseEta1_yields h.shake256
  have hmatrix : Yields (expandMatrix h rounds ((h.sha3 coins.val).val.take 32) false) (· = a) :=
    ⟨a, ha, rfl⟩
  refine hmatrix.bind fun a' ha' => ?_
  subst ha'
  refine (noise_yields hnoise _ 0).bind fun skpv hskpv => ?_
  refine (noise_yields hnoise _ K).bind fun e he => ?_
  refine (polyvec_ntt_yields (hskpv.mono (by norm_num))).bind fun skpv hskpv => ?_
  refine (polyvec_ntt_yields (he.mono (by norm_num))).bind fun e he => ?_
  refine (rows_yields hlength hrows hskpv).bind fun pkpv hpkpv => ?_
  have htomont : Yields (pkpv.mapM Poly.tomont) (SmallVec 3328) :=
    (hpkpv.mono (by norm_num)).mapM_yields fun _ hp => poly_tomont_yields hp
  refine htomont.bind fun pkpv hpkpv => ?_
  refine (polyvec_add_yields (by norm_num) hpkpv he).bind fun pkpv hpkpv => ?_
  refine (polyvec_reduce_yields (hpkpv.mono (by norm_num))).bind fun pkpv hpkpv => ?_
  have hseed : ((h.sha3 coins.val).val.take 32).length = 32 := by
    rw [List.length_take, (h.sha3 coins.val).property]
    rfl
  have hpk : Yields (packPk pkpv ((h.sha3 coins.val).val.take 32)) (List.length · = 1184) := by
    refine (polyvec_toBytes_yields (hpkpv.mono (by norm_num))).bind fun bytes hbytes => ?_
    exact yields_pure (by rw [List.length_append, hbytes, hseed])
  refine hpk.bind fun pk hpk => ?_
  refine (polyvec_toBytes_yields (hskpv.mono (by norm_num))).bind fun sk hsk => ?_
  exact yields_pure ⟨hpk, hsk⟩

theorem enc_yields {m : Bytes 32} {pk : Bytes 1184} {coins : Bytes 32} {a : List Polyvec}
    (ha : expandMatrix h rounds (pk.val.drop 1152) true = .ok a)
    (hlength : a.length = K) (hrows : ∀ row ∈ a, SmallVec 3328 row) :
    Yields (enc h rounds m pk coins) (List.length · = 1088) := by
  have hpkpv : SmallVec 4095 (unpackPk pk.val).1 := by
    apply polyvec_fromBytes_small
    rw [List.length_take, pk.property]
    rfl
  have hnoise := getnoiseEta2_yields h.shake256
  have hmatrix : Yields (expandMatrix h rounds (pk.val.drop 1152) true) (· = a) := ⟨a, ha, rfl⟩
  refine (poly_fromMsg_yields m.property).bind fun k hk => ?_
  refine hmatrix.bind fun a' ha' => ?_
  subst ha'
  refine (noise_yields (getnoiseEta1_yields h.shake256) _ 0).bind fun sp hsp => ?_
  refine (noise_yields hnoise _ K).bind fun ep hep => ?_
  refine (hnoise _ _).bind fun epp hepp => ?_
  refine (polyvec_ntt_yields (hsp.mono (by norm_num))).bind fun sp hsp => ?_
  refine (rows_yields hlength hrows hsp).bind fun b hb => ?_
  refine (basemulAccMontgomery_yields (by norm_num) hpkpv hsp).bind fun v hv => ?_
  have hinverse : Yields (Polyvec.invnttTomont b) (SmallVec 3328) :=
    (hb.mono (by norm_num)).mapM_yields fun _ hp => poly_invnttTomont_yields hp
  refine hinverse.bind fun b hb => ?_
  refine (poly_invnttTomont_yields (hv.mono (by norm_num))).bind fun v hv => ?_
  refine (polyvec_add_yields (by norm_num) hb hep).bind fun b hb => ?_
  refine (poly_add_yields (by norm_num) hv hepp).bind fun v hv => ?_
  refine (poly_add_yields (by norm_num) hv hk).bind fun v hv => ?_
  refine (polyvec_reduce_yields (hb.mono (by norm_num))).bind fun b hb => ?_
  refine (poly_reduce_yields (hv.mono (by norm_num))).bind fun v hv => ?_
  refine (polyvec_compress_yields (hb.mono (by norm_num))).bind fun bBytes hbBytes => ?_
  refine (poly_compress_yields (hv.mono (by norm_num))).bind fun vBytes hvBytes => ?_
  exact yields_pure (by rw [List.length_append, hbBytes, hvBytes])

/-- A run either gives its result or waits for the matrix, and an overflow is neither. -/
theorem indcpa_in_range (h : Hashes) (rounds : ℕ) :
    (∀ coins : Bytes 32,
      (∃ pk sk, keypairDerand h rounds coins = .ok (pk, sk) ∧ pk.length = 1184 ∧
        sk.length = 1152) ∨
      keypairDerand h rounds coins = .error .running ∧
        genMatrix h.shake128 rounds ((h.sha3 coins.val).val.take 32) false = none) ∧
    (∀ (m : Bytes 32) (pk : Bytes 1184) (coins : Bytes 32),
      (∃ ct, enc h rounds m pk coins = .ok ct ∧ ct.length = 1088) ∨
      enc h rounds m pk coins = .error .running ∧
        genMatrix h.shake128 rounds (pk.val.drop 1152) true = none) ∧
    ∀ (ct : Bytes 1088) (sk : Bytes 1152), ∃ msg, dec ct sk = .ok msg ∧ msg.length = 32 := by
  refine ⟨fun coins => ?_, fun m pk coins => ?_, dec_yields⟩
  · rcases expandMatrix_cases ((h.sha3 coins.val).val.take 32) false with
      ⟨hnone, hrunning⟩ | ⟨a, ha, hlength, hrows⟩
    · right
      refine ⟨?_, hnone⟩
      unfold keypairDerand
      simp only [hrunning]
      rfl
    · obtain ⟨⟨pk, sk⟩, hkeys, hlengths⟩ := keypairDerand_yields ha hlength hrows
      exact .inl ⟨pk, sk, hkeys, hlengths⟩
  · rcases expandMatrix_cases (pk.val.drop 1152) true with
      ⟨hnone, hrunning⟩ | ⟨a, ha, hlength, hrows⟩
    · right
      refine ⟨?_, hnone⟩
      obtain ⟨k, hk, -⟩ := poly_fromMsg_yields m.property
      unfold enc unpackPk
      simp only [hk, hrunning]
      rfl
    · exact .inl (enc_yields ha hlength hrows)

end OrionNetwork.Kyber
