import OrionNetwork.KyberPoly

/-!
# Byte strings of Kyber and back

Keys are stored with twelve bits for each value and are read as they were written.
Ciphertexts keep ten or four bits of a value, so that a value comes back with an error,
and a message is read from values that are off by less than a quarter of the modulus.
-/
namespace OrionNetwork.Kyber

open CheckedIntegers

section Bits

/-- Bits above those of the first value. -/
theorem or_shiftLeft {a k : ℕ} (b : ℕ) (ha : a < 2 ^ k) : a ||| (b <<< k) = b * 2 ^ k + a := by
  have hsum := Nat.shiftLeft_add_eq_or_of_lt ha b
  rw [Nat.shiftLeft_eq] at hsum
  rw [hsum, Nat.or_comm, Nat.shiftLeft_eq]

theorem toNat_ofInt (x : ℤ) : (UInt8.ofInt x).toNat = (x % 256).toNat := by
  unfold UInt8.ofInt
  rw [UInt8.toNat_ofNat']
  have hlo := Int.emod_nonneg x (b := 256) (by norm_num)
  have hhi := Int.emod_lt_of_pos x (b := 256) (by norm_num)
  omega

theorem toNat_ofInt_bitOr (a b : ℤ) :
    (UInt8.ofInt (bitOr a b)).toNat = (a % 256).toNat ||| (b % 256).toNat := by
  have hlow (x : ℤ) : (x % 256).toNat = (x % 65536).toNat % 2 ^ 8 := by omega
  have hor : (bitOr a b) % 65536 = (((a % 65536).toNat ||| (b % 65536).toNat : ℕ) : ℤ) := by
    unfold bitOr
    rw [BitVec.toInt_eq_toNat_bmod, BitVec.toNat_or, BitVec.toNat_ofInt, BitVec.toNat_ofInt]
    have hlt : (a % 65536).toNat ||| (b % 65536).toNat < 2 ^ 16 :=
      Nat.or_lt_two_pow (by omega) (by omega)
    have hbmod (x : ℤ) : x.bmod (2 ^ 16) % 65536 = x % 65536 := Int.bmod_emod
    rw [hbmod, Int.emod_eq_of_lt (by positivity) (by exact_mod_cast hlt)]
    rfl
  rw [toNat_ofInt, hlow (bitOr a b), hor, Int.toNat_natCast, Nat.or_mod_two_pow, ← hlow, ← hlow]

end Bits

section Twelve

/-- The value in the range of the modulus. -/
theorem addQ_yields_emod {u : ℤ} (hu : Within 3328 u) : Yields (addQ u) (· = u % Q) := by
  obtain ⟨hlo, hhi⟩ := hu
  have hQ : ((Q : ℕ) : ℤ) = 3329 := rfl
  have hmask : bitAnd (-1) 3329 = 3329 := by decide
  unfold addQ
  rw [hQ, Int.shiftRight_eq_div_pow]
  rcases lt_or_ge u 0 with hneg | hpos
  · rw [show u / ((2 ^ 15 : ℕ) : ℤ) = -1 by omega, hmask]
    refine (i16_yields ⟨by omega, by omega⟩).mono fun r hr => ?_
    omega
  · rw [show u / ((2 ^ 15 : ℕ) : ℤ) = 0 by omega, bitAnd_zero]
    refine (i16_yields ⟨by omega, by omega⟩).mono fun r hr => ?_
    omega

/-- Values that are not negative stay as they are, also those above the modulus. -/
theorem addQ_yields_self {u : ℤ} (hlo : 0 ≤ u) (hhi : u < 32768) : Yields (addQ u) (· = u) := by
  unfold addQ
  rw [Int.shiftRight_eq_div_pow, show u / ((2 ^ 15 : ℕ) : ℤ) = 0 by omega, bitAnd_zero]
  refine (i16_yields ⟨by omega, by omega⟩).mono fun r hr => ?_
  omega

theorem fromBytes_cons (b0 b1 b2 : UInt8) (input : List UInt8) :
    Poly.fromBytes (b0 :: b1 :: b2 :: input) =
      ((b0.toNat + 256 * (b1.toNat % 16) : ℕ) : ℤ) ::
        ((b1.toNat / 16 + 16 * b2.toNat : ℕ) : ℤ) :: Poly.fromBytes input := by
  have h0 := b0.toNat_lt
  have h1 := b1.toNat_lt
  have h2 := b2.toNat_lt
  have hfirst : (b0.toNat ||| ((b1.toNat &&& 0xf) <<< 8)) &&& 0xfff =
      b0.toNat + 256 * (b1.toNat % 16) := by
    rw [Nat.and_two_pow_sub_one_eq_mod _ 4, or_shiftLeft _ h0, Nat.and_two_pow_sub_one_eq_mod _ 12]
    omega
  have hsecond : ((b1.toNat >>> 4) ||| (b2.toNat <<< 4)) &&& 0xfff =
      b1.toNat / 16 + 16 * b2.toNat := by
    have hhigh : b1.toNat >>> 4 < 2 ^ 4 := by
      rw [Nat.shiftRight_eq_div_pow]
      omega
    rw [or_shiftLeft _ hhigh, Nat.and_two_pow_sub_one_eq_mod _ 12, Nat.shiftRight_eq_div_pow]
    omega
  rw [Poly.fromBytes, hfirst, hsecond, i16_wrap_of_within ⟨by omega, by omega⟩,
    i16_wrap_of_within ⟨by omega, by omega⟩]

/-- The middle byte has the high bits of one value and the low bits of the next. -/
theorem toNat_middle {t0 : ℤ} (t1 : ℤ) (h0 : 0 ≤ t0 ∧ t0 < 4096) :
    (UInt8.ofInt (bitOr (t0 >>> (8 : ℕ)) (i16.wrap (t1 <<< (4 : ℕ))))).toNat =
      (t1 % 16).toNat * 2 ^ 4 + (t0 / 256).toNat := by
  obtain ⟨-, -, hwrap⟩ := i16_wrap (t1 <<< (4 : ℕ))
  rw [Int.shiftLeft_eq] at hwrap ⊢
  rw [toNat_ofInt_bitOr, Int.shiftRight_eq_div_pow]
  have hlow : (i16.wrap (t1 * 2 ^ 4) % 256).toNat = (t1 % 16).toNat <<< 4 := by
    rw [Nat.shiftLeft_eq]
    omega
  have hhigh : (t0 / ((2 ^ 8 : ℕ) : ℤ) % 256).toNat = (t0 / 256).toNat := by omega
  have hlt : (t0 / 256).toNat < 2 ^ 4 := by omega
  rw [hlow, hhigh, or_shiftLeft _ hlt]

theorem fromBytes_packTwelve {ts : List ℤ} (heven : ts.length % 2 = 0)
    (hts : ∀ t ∈ ts, 0 ≤ t ∧ t < 4096) : Poly.fromBytes (Poly.packTwelve ts) = ts := by
  induction ts using Poly.packTwelve.induct with
  | case1 t0 t1 ts ih =>
    simp only [List.forall_mem_cons] at hts
    obtain ⟨h0, h1, hts⟩ := hts
    rw [List.length_cons, List.length_cons] at heven
    rw [Poly.packTwelve, fromBytes_cons, ih (by omega) hts, toNat_middle t1 h0, toNat_ofInt,
      toNat_ofInt, Int.shiftRight_eq_div_pow]
    congr 1
    · omega
    · congr 1
      omega
  | case2 ts hshort =>
    rcases ts with _ | ⟨t0, _ | ⟨t1, ts⟩⟩
    · simp [Poly.packTwelve, Poly.fromBytes]
    · simp at heven
    · exact absurd rfl (hshort t0 t1 ts)

theorem packTwelve_fromBytes {input : List UInt8} (hlength : input.length % 3 = 0) :
    Poly.packTwelve (Poly.fromBytes input) = input := by
  induction input using Poly.fromBytes.induct with
  | case1 b0 b1 b2 input ih =>
    have h0 := b0.toNat_lt
    have h1 := b1.toNat_lt
    have h2 := b2.toNat_lt
    simp only [List.length_cons] at hlength
    rw [fromBytes_cons, Poly.packTwelve, ih (by omega)]
    congr 1
    · apply UInt8.toNat_inj.mp
      rw [toNat_ofInt]
      omega
    congr 1
    · apply UInt8.toNat_inj.mp
      rw [toNat_middle _ ⟨by omega, by omega⟩]
      omega
    congr 1
    · apply UInt8.toNat_inj.mp
      rw [toNat_ofInt, Int.shiftRight_eq_div_pow]
      omega
  | case2 input hshort =>
    rcases input with _ | ⟨b0, _ | ⟨b1, _ | ⟨b2, input⟩⟩⟩
    · simp [Poly.packTwelve, Poly.fromBytes]
    · simp at hlength
    · simp at hlength
    · exact absurd rfl (hshort b0 b1 b2 input)

/-- The values in the range of the modulus. -/
def canonical (v : Poly) : Poly := v.map fun u => u % Q

theorem canonical_of_forall₂ {v ts : Poly} (h : List.Forall₂ (fun u r : ℤ => r = u % Q) v ts) :
    ts = canonical v := by
  induction h with
  | nil => rfl
  | cons h _ ih => rw [h, ih, canonical, canonical, List.map_cons]

/-- What was written as bytes is read with its values in the range of the modulus. -/
theorem poly_toBytes_spec {v : Poly} (hv : Small 3328 v) :
    Yields (Poly.toBytes v) fun b => b.length = 384 ∧ Poly.fromBytes b = canonical v := by
  refine (yields_mapM fun x hx => addQ_yields_emod (hv.within x hx)).bind
    fun ts hts => yields_pure ?_
  rw [canonical_of_forall₂ hts]
  have hlength : (canonical v).length = 256 := by
    rw [canonical, List.length_map, hv.length]
    rfl
  refine ⟨by rw [length_packTwelve, hlength], fromBytes_packTwelve (by rw [hlength]) ?_⟩
  intro t ht
  obtain ⟨x, -, rfl⟩ := List.mem_map.mp ht
  have hQ : ((Q : ℕ) : ℤ) = 3329 := rfl
  rw [hQ]
  omega

theorem fromBytes_nonneg (input : List UInt8) : ∀ x ∈ Poly.fromBytes input, 0 ≤ x := by
  induction input using Poly.fromBytes.induct with
  | case1 b0 b1 b2 input ih =>
    rw [fromBytes_cons]
    exact List.forall_mem_cons.mpr ⟨Int.natCast_nonneg _,
      List.forall_mem_cons.mpr ⟨Int.natCast_nonneg _, ih⟩⟩
  | case2 input hshort =>
    rw [Poly.fromBytes]
    · simp
    · exact hshort

/-- Values above the modulus are kept, so that every byte string is written as it was read. -/
theorem poly_toBytes_fromBytes {input : List UInt8} (hlength : input.length % 3 = 0) :
    Poly.toBytes (Poly.fromBytes input) = .ok input := by
  have hself : Yields ((Poly.fromBytes input).mapM addQ) (List.Forall₂ (· = ·)
      (Poly.fromBytes input)) := by
    refine yields_mapM fun x hx => ?_
    obtain ⟨-, hhi⟩ := fromBytes_within input x hx
    refine (addQ_yields_self (fromBytes_nonneg input x hx) (by omega)).mono fun r hr => hr.symm
  rw [List.forall₂_eq_eq_eq] at hself
  obtain ⟨ts, hts, rfl⟩ := hself
  unfold Poly.toBytes
  rw [hts]
  exact congrArg Except.ok (packTwelve_fromBytes hlength)

/-- The chunks of a sequence of parts of one size. -/
theorem chunk_flatten {α : Type} {size : ℕ} {parts : List (List α)}
    (h : ∀ p ∈ parts, p.length = size) {i : ℕ} (hi : i < parts.length) :
    (parts.flatten.drop (i * size)).take size = parts[i] := by
  induction parts generalizing i with
  | nil => exact absurd hi (Nat.not_lt_zero i)
  | cons p parts ih =>
    obtain ⟨hp, hparts⟩ := List.forall_mem_cons.mp h
    cases i with
    | zero => rw [Nat.zero_mul, List.drop_zero, List.flatten_cons, List.take_left' hp]; rfl
    | succ i =>
      rw [Nat.succ_mul, Nat.add_comm, ← List.drop_drop, List.flatten_cons, List.drop_left' hp]
      exact ih hparts (Nat.lt_of_succ_lt_succ hi)

theorem polyvec_toBytes_spec {v : Polyvec} (hv : SmallVec 3328 v) :
    Yields (Polyvec.toBytes v) fun b => b.length = 1152 ∧
      Polyvec.fromBytes b = v.map canonical := by
  refine (yields_mapM fun p hp => poly_toBytes_spec (hv.small p hp)).bind
    fun parts hparts => yields_pure ?_
  have hcount : parts.length = K := hparts.length_eq.symm.trans hv.length
  have hsizes : ∀ part ∈ parts, part.length = 384 := by
    intro part hpart
    obtain ⟨i, hi, rfl⟩ := List.getElem_of_mem hpart
    exact (List.forall₂_iff_get.mp hparts).2 i (hparts.length_eq ▸ hi) hi |>.1
  constructor
  · rw [List.length_flatten, List.map_congr_left hsizes, List.map_const', List.sum_replicate, hcount]
    rfl
  · apply List.ext_getElem
    · rw [Polyvec.fromBytes, List.length_map, List.length_range, List.length_map, hv.length]
    · intro i hi hi'
      rw [List.length_map] at hi'
      have hpart : i < parts.length := hparts.length_eq ▸ hi'
      simp only [Polyvec.fromBytes, List.getElem_map, List.getElem_range]
      rw [chunk_flatten hsizes hpart]
      exact ((List.forall₂_iff_get.mp hparts).2 i hi' hpart).2

theorem polyvec_toBytes_fromBytes {input : List UInt8} (hlength : input.length = 1152) :
    Polyvec.toBytes (Polyvec.fromBytes input) = .ok input := by
  have hchunk (i : ℕ) (hi : i < 3) : ((input.drop (i * 384)).take 384).length % 3 = 0 := by
    rw [List.length_take, List.length_drop, hlength, min_eq_left (by omega)]
  have hparts : (Polyvec.fromBytes input).mapM Poly.toBytes =
      .ok [(input.drop (0 * 384)).take 384, (input.drop (1 * 384)).take 384,
        (input.drop (2 * 384)).take 384] := by
    change [_, _, _].mapM Poly.toBytes = _
    simp only [List.mapM_cons, List.mapM_nil, poly_toBytes_fromBytes (hchunk 0 (by norm_num)),
      poly_toBytes_fromBytes (hchunk 1 (by norm_num)),
      poly_toBytes_fromBytes (hchunk 2 (by norm_num))]
    rfl
  unfold Polyvec.toBytes
  rw [hparts]
  have hrest : (input.drop (2 * 384)).take 384 = (input.drop 384).drop 384 := by
    rw [List.drop_drop, List.take_of_length_le]
    rw [List.length_drop, hlength]
  refine congrArg Except.ok ?_
  rw [List.flatten_cons, List.flatten_cons, List.flatten_cons, List.flatten_nil, List.append_nil,
    hrest, Nat.zero_mul, List.drop_zero, Nat.one_mul, List.take_append_drop, List.take_append_drop]

end Twelve

section Compression

theorem poly_compressCoeff_spec {u : ℤ} (hu : Within 3328 u) :
    Yields (Poly.compressCoeff u) fun c => (c.toNat : ℤ) = (16 * (u % Q) + 1664) / 3329 % 16 := by
  have hQ : ((Q : ℕ) : ℤ) = 3329 := rfl
  refine (addQ_yields_emod hu).bind fun r hr => ?_
  rw [hQ] at hr ⊢
  have hlo : 0 ≤ r := hr ▸ Int.emod_nonneg u (by norm_num)
  have hhi : r < 3329 := hr ▸ Int.emod_lt_of_pos u (by norm_num)
  rw [u16_wrap hlo (by omega), Int.shiftLeft_eq, u16_wrap (by omega) (by omega), ← hr]
  have hhalf : (3329 : ℤ) / 2 = 1664 := rfl
  rw [hhalf]
  have hcomm : r * 2 ^ 4 + 1664 = 16 * r + 1664 := by ring
  refine (u16_yields (by omega) (by omega)).bind fun sum hsum => yields_pure ?_
  have hquotient : 0 ≤ (16 * r + 1664) / 3329 := Int.ediv_nonneg (by omega) (by norm_num)
  rw [hsum, hcomm, UInt8.toNat_ofNat', Nat.and_two_pow_sub_one_eq_mod _ 4]
  generalize (16 * r + 1664) / 3329 = c at hquotient
  omega

theorem poly_decompressCoeff_spec {c : UInt8} (hc : c.toNat < 16) :
    Yields (Poly.decompressCoeff c) (· = (c.toNat * 3329 + 8) / 16) := by
  have hQ : ((Q : ℕ) : ℤ) = 3329 := rfl
  unfold Poly.decompressCoeff
  rw [hQ]
  refine (u16_yields (by omega) (by omega)).bind fun product hproduct => ?_
  subst hproduct
  refine (u16_yields (by omega) (by omega)).bind fun sum hsum => ?_
  subst hsum
  rw [Int.shiftRight_eq_div_pow, i16_wrap_of_within ⟨by omega, by omega⟩]
  exact yields_pure rfl

theorem polyvec_compressCoeff_spec {u : ℤ} (hu : Within 3328 u) :
    Yields (Polyvec.compressCoeff u) fun c => (c : ℤ) = (1024 * (u % Q) + 1664) / 3329 % 1024 := by
  have hQ : ((Q : ℕ) : ℤ) = 3329 := rfl
  refine (addQ_yields_emod hu).bind fun r hr => ?_
  rw [hQ] at hr ⊢
  have hlo : 0 ≤ r := hr ▸ Int.emod_nonneg u (by norm_num)
  have hhi : r < 3329 := hr ▸ Int.emod_lt_of_pos u (by norm_num)
  rw [u32_wrap hlo (by omega), Int.shiftLeft_eq, u32_wrap (by omega) (by omega), ← hr]
  have hhalf : (3329 : ℤ) / 2 = 1664 := rfl
  rw [hhalf]
  have hcomm : r * 2 ^ 10 + 1664 = 1024 * r + 1664 := by ring
  refine (u32_yields (by omega) (by omega)).bind fun sum hsum => yields_pure ?_
  have hquotient : 0 ≤ (1024 * r + 1664) / 3329 := Int.ediv_nonneg (by omega) (by norm_num)
  rw [hsum, hcomm, Nat.and_two_pow_sub_one_eq_mod _ 10]
  generalize (1024 * r + 1664) / 3329 = c at hquotient
  omega

theorem polyvec_decompressCoeff_spec (c : ℕ) :
    Yields (Polyvec.decompressCoeff c) (· = ((c % 1024 : ℕ) * 3329 + 512) / 1024) := by
  have hQ : ((Q : ℕ) : ℤ) = 3329 := rfl
  unfold Polyvec.decompressCoeff
  rw [hQ, Nat.and_two_pow_sub_one_eq_mod _ 10]
  refine (u32_yields (by omega) (by omega)).bind fun product hproduct => ?_
  subst hproduct
  refine (u32_yields (by omega) (by omega)).bind fun sum hsum => ?_
  subst hsum
  rw [Int.shiftRight_eq_div_pow, i16_wrap_of_within ⟨by omega, by omega⟩]
  exact yields_pure rfl

/-- The two values of each byte. -/
def nibbles (input : List UInt8) : List UInt8 :=
  input.flatMap fun b : UInt8 => ([b &&& 0xf, b >>> 4] : List UInt8)

theorem nibbles_packPairs {us : List UInt8} (heven : us.length % 2 = 0)
    (hus : ∀ u ∈ us, u.toNat < 16) : nibbles (Poly.packPairs us) = us := by
  induction us using Poly.packPairs.induct with
  | case1 a b us ih =>
    simp only [List.forall_mem_cons] at hus
    obtain ⟨ha, hb, hus⟩ := hus
    rw [List.length_cons, List.length_cons] at heven
    have hbyte : (a ||| (b <<< 4)).toNat = b.toNat * 16 + a.toNat := by
      rw [UInt8.toNat_or, UInt8.toNat_shiftLeft, Nat.mod_eq_of_lt (by rw [Nat.shiftLeft_eq]; change b.toNat * 16 < 256; omega)]
      exact or_shiftLeft (k := 4) _ ha
    have hlow : (a ||| (b <<< 4)) &&& 0xf = a := by
      apply UInt8.toNat_inj.mp
      rw [UInt8.toNat_and, hbyte]
      change (b.toNat * 16 + a.toNat) &&& (2 ^ 4 - 1 : ℕ) = a.toNat
      rw [Nat.and_two_pow_sub_one_eq_mod]
      omega
    have hhigh : (a ||| (b <<< 4)) >>> 4 = b := by
      apply UInt8.toNat_inj.mp
      rw [UInt8.toNat_shiftRight, hbyte, Nat.shiftRight_eq_div_pow]
      change (b.toNat * 16 + a.toNat) / 16 = b.toNat
      omega
    have hrest := ih (by omega) hus
    unfold nibbles at hrest ⊢
    rw [Poly.packPairs, List.flatMap_cons, hrest, hlow, hhigh]
    rfl
  | case2 us hshort =>
    rcases us with _ | ⟨a, _ | ⟨b, us⟩⟩
    · rfl
    · simp at heven
    · exact absurd rfl (hshort a b us)

theorem packPairs_nibbles (input : List UInt8) : Poly.packPairs (nibbles input) = input := by
  induction input with
  | nil => rfl
  | cons b input ih =>
    have hbyte : (b &&& (0xf : UInt8)) ||| ((b >>> (4 : UInt8)) <<< (4 : UInt8)) = b := by
      have hb := b.toNat_lt
      apply UInt8.toNat_inj.mp
      rw [UInt8.toNat_or, UInt8.toNat_shiftLeft, UInt8.toNat_shiftRight, UInt8.toNat_and]
      change (b.toNat &&& (2 ^ 4 - 1 : ℕ)) ||| ((b.toNat >>> 4) <<< 4) % 2 ^ 8 = b.toNat
      have hhigh : ((b.toNat >>> 4) <<< 4) % 2 ^ 8 = (b.toNat / 2 ^ 4) <<< 4 := by
        rw [Nat.shiftRight_eq_div_pow, Nat.shiftLeft_eq]
        omega
      rw [Nat.and_two_pow_sub_one_eq_mod, hhigh, or_shiftLeft _ (Nat.mod_lt _ (by norm_num))]
      omega
    unfold nibbles at ih ⊢
    rw [List.flatMap_cons, List.cons_append, List.cons_append, List.nil_append, Poly.packPairs,
      ih, hbyte]

theorem packTen_cons {t0 t1 t2 t3 : ℕ} (h0 : t0 < 1024) (h1 : t1 < 1024) (h2 : t2 < 1024)
    (ts : List ℕ) : Polyvec.packTen (t0 :: t1 :: t2 :: t3 :: ts) =
      UInt8.ofNat t0 :: UInt8.ofNat (t1 * 4 + t0 / 256) :: UInt8.ofNat (t2 * 16 + t1 / 64) ::
        UInt8.ofNat (t3 * 64 + t2 / 16) :: UInt8.ofNat (t3 / 4) :: Polyvec.packTen ts := by
  have hshift (t k : ℕ) (next : ℕ) (j : ℕ) (ht : t / 2 ^ k < 2 ^ j) :
      (t >>> k) ||| (next <<< j) = next * 2 ^ j + t / 2 ^ k := by
    rw [Nat.shiftRight_eq_div_pow, or_shiftLeft _ ht]
  rw [Polyvec.packTen, hshift t0 8 t1 2 (by omega), hshift t1 6 t2 4 (by omega),
    hshift t2 4 t3 6 (by omega), Nat.shiftRight_eq_div_pow]
  rfl

theorem unpackTen_cons (b0 b1 b2 b3 b4 : UInt8) (input : List UInt8) :
    Polyvec.unpackTen (b0 :: b1 :: b2 :: b3 :: b4 :: input) =
      (b1.toNat * 256 + b0.toNat) :: (b2.toNat * 64 + b1.toNat / 4) ::
        (b3.toNat * 16 + b2.toNat / 16) :: (b4.toNat * 4 + b3.toNat / 64) ::
          Polyvec.unpackTen input := by
  have h0 := b0.toNat_lt
  have h1 := b1.toNat_lt
  have h2 := b2.toNat_lt
  have h3 := b3.toNat_lt
  have hshift (t k : ℕ) (next : ℕ) (j : ℕ) (ht : t / 2 ^ k < 2 ^ j) :
      (t >>> k) ||| (next <<< j) = next * 2 ^ j + t / 2 ^ k := by
    rw [Nat.shiftRight_eq_div_pow, or_shiftLeft _ ht]
  rw [Polyvec.unpackTen, or_shiftLeft _ h0, hshift _ 2 _ 6 (by omega), hshift _ 4 _ 4 (by omega),
    hshift _ 6 _ 2 (by omega)]
  rfl

theorem unpackTen_packTen {ts : List ℕ} (hfour : ts.length % 4 = 0) (hts : ∀ t ∈ ts, t < 1024) :
    (Polyvec.unpackTen (Polyvec.packTen ts)).map (· % 1024) = ts := by
  induction ts using Polyvec.packTen.induct with
  | case1 t0 t1 t2 t3 ts ih =>
    simp only [List.forall_mem_cons] at hts
    obtain ⟨h0, h1, h2, h3, hts⟩ := hts
    simp only [List.length_cons] at hfour
    rw [packTen_cons h0 h1 h2, unpackTen_cons]
    simp only [List.map_cons, ih (by omega) hts, UInt8.toNat_ofNat', List.cons.injEq, and_true]
    omega
  | case2 ts hshort =>
    rcases ts with _ | ⟨t0, _ | ⟨t1, _ | ⟨t2, _ | ⟨t3, ts⟩⟩⟩⟩
    · rfl
    · simp at hfour
    · simp at hfour
    · simp at hfour
    · exact absurd rfl (hshort t0 t1 t2 t3 ts)

theorem packTen_unpackTen {input : List UInt8} (hfive : input.length % 5 = 0) :
    Polyvec.packTen ((Polyvec.unpackTen input).map (· % 1024)) = input := by
  induction input using Polyvec.unpackTen.induct with
  | case1 b0 b1 b2 b3 b4 input ih =>
    have h0 := b0.toNat_lt
    have h1 := b1.toNat_lt
    have h2 := b2.toNat_lt
    have h3 := b3.toNat_lt
    have h4 := b4.toNat_lt
    simp only [List.length_cons] at hfive
    have hbyte (n : ℕ) (b : UInt8) (h : n % 256 = b.toNat) : UInt8.ofNat n = b := by
      apply UInt8.toNat_inj.mp
      rw [UInt8.toNat_ofNat']
      exact h
    rw [unpackTen_cons]
    simp only [List.map_cons]
    rw [packTen_cons (Nat.mod_lt _ (by norm_num)) (Nat.mod_lt _ (by norm_num))
      (Nat.mod_lt _ (by norm_num)), ih (by omega), hbyte _ b0 (by omega), hbyte _ b1 (by omega),
      hbyte _ b2 (by omega), hbyte _ b3 (by omega), hbyte _ b4 (by omega)]
  | case2 input hshort =>
    rcases input with _ | ⟨b0, _ | ⟨b1, _ | ⟨b2, _ | ⟨b3, _ | ⟨b4, input⟩⟩⟩⟩⟩
    · rfl
    · simp at hfive
    · simp at hfive
    · simp at hfive
    · simp at hfive
    · exact absurd rfl (hshort b0 b1 b2 b3 b4 input)

/-- The second value is the first one with an error of at most `e`, modulo `Q`. -/
def Near (e : ℤ) (u u' : ℤ) : Prop := ∃ d, Within e d ∧ (3329 : ℤ) ∣ u' - u - d

theorem near_four (u : ℤ) :
    Near 104 u (((16 * (u % 3329) + 1664) / 3329 % 16 * 3329 + 8) / 16) := by
  generalize hr : u % 3329 = r
  have hlo : 0 ≤ r := hr ▸ Int.emod_nonneg u (by norm_num)
  have hhi : r < 3329 := hr ▸ Int.emod_lt_of_pos u (by norm_num)
  generalize hc : (16 * r + 1664) / 3329 = c
  -- the values next to the modulus are rounded up to it, which is zero
  rcases lt_or_ge c 16 with hlt | hge
  · refine ⟨(c * 3329 + 8) / 16 - r, ⟨by omega, by omega⟩, ?_⟩
    rw [show c % 16 = c by omega]
    omega
  · refine ⟨3329 - r, ⟨by omega, by omega⟩, ?_⟩
    rw [show c = 16 by omega]
    omega

theorem near_ten (u : ℤ) :
    Near 2 u (((1024 * (u % 3329) + 1664) / 3329 % 1024 * 3329 + 512) / 1024) := by
  generalize hr : u % 3329 = r
  have hlo : 0 ≤ r := hr ▸ Int.emod_nonneg u (by norm_num)
  have hhi : r < 3329 := hr ▸ Int.emod_lt_of_pos u (by norm_num)
  generalize hc : (1024 * r + 1664) / 3329 = c
  rcases lt_or_ge c 1024 with hlt | hge
  · refine ⟨(c * 3329 + 512) / 1024 - r, ⟨by omega, by omega⟩, ?_⟩
    rw [show c % 1024 = c by omega]
    omega
  · refine ⟨3329 - r, ⟨by omega, by omega⟩, ?_⟩
    rw [show c = 1024 by omega]
    omega

theorem poly_compress_spec {v : Poly} (hv : Small 3328 v) :
    Yields (Poly.compress v) fun c => c.length = 128 ∧
      Yields (Poly.decompress c) (List.Forall₂ (Near 104) v) := by
  have hcoeffs : ∀ x ∈ v, Yields (Poly.compressCoeff x) fun c =>
      c.toNat < 16 ∧ Yields (Poly.decompressCoeff c) (Near 104 x) := by
    intro x hx
    refine (poly_compressCoeff_spec (hv.within x hx)).mono fun c hc => ?_
    have hlt : c.toNat < 16 := by omega
    refine ⟨hlt, (poly_decompressCoeff_spec hlt).mono fun u hu => ?_⟩
    rw [hu, hc]
    exact near_four x
  refine (yields_mapM_mapM hcoeffs).bind fun us hus => yields_pure ?_
  obtain ⟨hlength, hsmall, hback⟩ := hus
  have heven : us.length % 2 = 0 := by
    rw [hlength, hv.length]
    rfl
  refine ⟨by rw [length_packPairs, hlength, hv.length]; rfl, ?_⟩
  change Yields ((nibbles (Poly.packPairs us)).mapM Poly.decompressCoeff) _
  rwa [nibbles_packPairs heven hsmall]

/-- Decompression loses nothing. -/
theorem poly_compress_decompress (input : List UInt8) :
    Yields (Poly.decompress input) fun v => Poly.compress v = .ok input := by
  have hcoeffs : ∀ c ∈ nibbles input, Yields (Poly.decompressCoeff c) fun u =>
      True ∧ Yields (Poly.compressCoeff u) (c = ·) := by
    intro c hc
    have hlt : c.toNat < 16 := by
      obtain ⟨b, -, hc⟩ := List.mem_flatMap.mp hc
      have hb := b.toNat_lt
      simp only [List.mem_cons, List.not_mem_nil, or_false] at hc
      rcases hc with rfl | rfl
      · rw [UInt8.toNat_and]
        exact Nat.lt_of_le_of_lt Nat.and_le_right (by decide)
      · rw [UInt8.toNat_shiftRight, Nat.shiftRight_eq_div_pow]
        exact Nat.div_lt_of_lt_mul hb
    have hQ : ((Q : ℕ) : ℤ) = 3329 := rfl
    refine (poly_decompressCoeff_spec hlt).mono fun u hu => ⟨trivial, ?_⟩
    refine (poly_compressCoeff_spec ⟨by omega, by omega⟩).mono fun c' hc' => ?_
    have hsame : u % 3329 = u := by omega
    have hvalue : (16 * u + 1664) / 3329 = (c.toNat : ℤ) := by omega
    rw [hQ, hsame, hvalue] at hc'
    apply UInt8.toNat_inj.mp
    omega
  refine (yields_mapM_mapM hcoeffs).mono fun v hv => ?_
  obtain ⟨us, hus, heq⟩ := hv.2.2
  rw [List.forall₂_eq_eq_eq] at heq
  unfold Poly.compress
  rw [hus, ← heq]
  exact congrArg Except.ok (packPairs_nibbles input)

theorem mapM_decompressCoeff (ts : List ℕ) :
    ts.mapM Polyvec.decompressCoeff = (ts.map (· % 1024)).mapM Polyvec.decompressCoeff := by
  induction ts with
  | nil => rfl
  | cons t ts ih =>
    have hlow : Polyvec.decompressCoeff (t % 1024) = Polyvec.decompressCoeff t := by
      unfold Polyvec.decompressCoeff
      rw [Nat.and_two_pow_sub_one_eq_mod _ 10, Nat.and_two_pow_sub_one_eq_mod _ 10, Nat.mod_mod]
    rw [List.map_cons, List.mapM_cons, List.mapM_cons, ih, hlow]

theorem forall₂_polys {R : ℤ → ℤ → Prop} {l l' : List ℤ} (h : List.Forall₂ R l l') (count : ℕ) :
    List.Forall₂ (List.Forall₂ R) (Polyvec.polys count l) (Polyvec.polys count l') := by
  induction count generalizing l l' with
  | zero => exact List.Forall₂.nil
  | succ count ih =>
    exact List.Forall₂.cons (List.forall₂_take N h) (ih (List.forall₂_drop N h))

theorem polys_flatten {v : Polyvec} (hv : ∀ p ∈ v, p.length = N) :
    Polyvec.polys v.length v.flatten = v := by
  induction v with
  | nil => rfl
  | cons p v ih =>
    obtain ⟨hp, hv⟩ := List.forall_mem_cons.mp hv
    rw [List.length_cons, Polyvec.polys, List.flatten_cons, List.take_left' hp, List.drop_left' hp,
      ih hv]

theorem flatten_polys {count : ℕ} {l : List ℤ} (hl : l.length = count * N) :
    (Polyvec.polys count l).flatten = l := by
  induction count generalizing l with
  | zero =>
    rw [Nat.zero_mul] at hl
    rw [List.length_eq_zero_iff.mp hl]
    rfl
  | succ count ih =>
    rw [Nat.succ_mul] at hl
    rw [Polyvec.polys, List.flatten_cons, ih (by rw [List.length_drop]; omega),
      List.take_append_drop]

theorem polyvec_compress_spec {v : Polyvec} (hv : SmallVec 3328 v) :
    Yields (Polyvec.compress v) fun c => c.length = 960 ∧
      Yields (Polyvec.decompress c) (List.Forall₂ (List.Forall₂ (Near 2)) v) := by
  obtain ⟨hlength, hwithin⟩ := hv.flatten
  have hcoeffs : ∀ x ∈ v.flatten, Yields (Polyvec.compressCoeff x) fun c =>
      c < 1024 ∧ Yields (Polyvec.decompressCoeff c) (Near 2 x) := by
    intro x hx
    refine (polyvec_compressCoeff_spec (hwithin x hx)).mono fun c hc => ?_
    have hlt : c < 1024 := by omega
    refine ⟨hlt, (polyvec_decompressCoeff_spec c).mono fun u hu => ?_⟩
    rw [hu, Nat.mod_eq_of_lt hlt, hc]
    exact near_ten x
  refine (yields_mapM_mapM hcoeffs).bind fun ts hts => yields_pure ?_
  obtain ⟨hcount, hsmall, hback⟩ := hts
  have hfour : ts.length % 4 = 0 := by
    rw [hcount, hlength]
    rfl
  refine ⟨by rw [length_packTen, hcount, hlength]; rfl, ?_⟩
  unfold Polyvec.decompress
  rw [mapM_decompressCoeff, unpackTen_packTen hfour hsmall]
  refine hback.bind fun l hl => yields_pure ?_
  have hpolys := forall₂_polys hl v.length
  rwa [polys_flatten fun p hp => (hv.small p hp).length, hv.length] at hpolys

theorem polyvec_compress_decompress {input : List UInt8} (hlength : input.length = 960) :
    Yields (Polyvec.decompress input) fun v => Polyvec.compress v = .ok input := by
  have hcoeffs : ∀ c ∈ (Polyvec.unpackTen input).map (· % 1024),
      Yields (Polyvec.decompressCoeff c) fun u =>
        True ∧ Yields (Polyvec.compressCoeff u) (c = ·) := by
    intro c hc
    obtain ⟨t, -, rfl⟩ := List.mem_map.mp hc
    have hlt := Nat.mod_lt t (show 1024 > 0 by norm_num)
    have hQ : ((Q : ℕ) : ℤ) = 3329 := rfl
    refine (polyvec_decompressCoeff_spec _).mono fun u hu => ⟨trivial, ?_⟩
    rw [Nat.mod_mod] at hu
    generalize t % 1024 = c at hlt hu
    refine (polyvec_compressCoeff_spec ⟨by omega, by omega⟩).mono fun c' hc' => ?_
    have hsame : u % 3329 = u := by omega
    have hvalue : (1024 * u + 1664) / 3329 = (c : ℤ) := by omega
    rw [hQ, hsame, hvalue] at hc'
    omega
  unfold Polyvec.decompress
  rw [mapM_decompressCoeff]
  refine (yields_mapM_mapM hcoeffs).bind fun l hl => yields_pure ?_
  have hcount : l.length = K * N := by
    rw [hl.1, List.length_map, length_unpackTen, hlength]
    rfl
  obtain ⟨ts, hts, heq⟩ := hl.2.2
  rw [List.forall₂_eq_eq_eq] at heq
  unfold Polyvec.compress
  rw [flatten_polys hcount, hts, ← heq]
  exact congrArg Except.ok (packTen_unpackTen (by rw [hlength]))

end Compression

section Messages

/-- The bits of a message, those of each byte from the lowest on. -/
def messageBits (m : List UInt8) : List Bool :=
  m.flatMap fun b => (List.range 8).map fun i => b.toNat.testBit i

/-- The values that are read as a set bit. -/
def ReadsOne (t : ℤ) : Prop := 833 ≤ t % Q ∧ t % Q ≤ 2496

instance (t : ℤ) : Decidable (ReadsOne t) := inferInstanceAs (Decidable (_ ∧ _))

theorem fromMsgBit_spec (b : UInt8) {i : ℕ} (hi : i < 8) :
    Yields (Poly.fromMsgBit b i) (· = if b.toNat.testBit i then 1665 else 0) := by
  have hhalf : i16.wrap (((Q + 1) / 2 : ℕ) : ℤ) = 1665 := by decide
  have hcast : ((Q : ℤ) + 1) / 2 = (((Q + 1) / 2 : ℕ) : ℤ) := rfl
  have hmask : bitAnd (-1) 1665 = 1665 := by decide
  have hbit : ((b >>> UInt8.ofNat i) &&& 1).toNat = (b.toNat.testBit i).toNat := by
    rw [UInt8.toNat_and, UInt8.toNat_shiftRight, UInt8.toNat_ofNat', Nat.mod_mod_of_dvd _ (by norm_num),
      Nat.mod_eq_of_lt hi, Nat.testBit_eq_decide_div_mod_eq, Nat.shiftRight_eq_div_pow]
    change b.toNat / 2 ^ i &&& (2 ^ 1 - 1 : ℕ) = _
    rw [Nat.and_two_pow_sub_one_eq_mod]
    rcases Nat.mod_two_eq_zero_or_one (b.toNat / 2 ^ i) with h | h <;> simp [h]
  unfold Poly.fromMsgBit
  rw [hbit, hcast, hhalf]
  cases b.toNat.testBit i with
  | false =>
    refine (i16_yields ⟨by norm_num, by norm_num⟩).bind fun mask hm => yields_pure ?_
    rw [hm]
    exact bitAnd_zero 1665
  | true =>
    refine (i16_yields ⟨by norm_num, by norm_num⟩).bind fun mask hm => yields_pure ?_
    rw [hm]
    exact hmask

theorem poly_fromMsg_spec (m : List UInt8) :
    Poly.fromMsg m = .ok ((messageBits m).map fun c => if c then (1665 : ℤ) else 0) := by
  have hbits : Yields (Poly.fromMsg m) (List.Forall₂ (fun p r =>
      r = if p.1.toNat.testBit p.2 then (1665 : ℤ) else 0)
      (m.flatMap fun b => (List.range 8).map fun i => (b, i))) := by
    refine yields_mapM fun p hp => ?_
    obtain ⟨b, -, hp⟩ := List.mem_flatMap.mp hp
    obtain ⟨i, hi, rfl⟩ := List.mem_map.mp hp
    exact fromMsgBit_spec b (List.mem_range.mp hi)
  obtain ⟨v, hv, hall⟩ := hbits
  have hmap : List.Forall₂ (· = ·) ((messageBits m).map fun c => if c then (1665 : ℤ) else 0) v := by
    have hexpand : ((messageBits m).map fun c => if c then (1665 : ℤ) else 0) =
        (m.flatMap fun b => (List.range 8).map fun i => (b, i)).map
          fun p => if p.1.toNat.testBit p.2 then (1665 : ℤ) else 0 := by
      rw [messageBits, List.map_flatMap, List.map_flatMap]
      simp only [List.map_map, Function.comp_def]
    rw [hexpand, List.forall₂_map_left_iff]
    exact hall.imp fun _ _ h => h.symm
  rw [List.forall₂_eq_eq_eq] at hmap
  rw [hv, hmap]

theorem toMsgBit_spec {t : ℤ} (ht : Within 3328 t) :
    Yields (Poly.toMsgBit t) (· = if ReadsOne t then 1 else 0) := by
  have hQ : ((Q : ℕ) : ℤ) = 3329 := rfl
  have hhalf : ((Q : ℕ) : ℤ) / 2 = 1664 := rfl
  refine (addQ_yields_emod ht).bind fun r hr => ?_
  have hlo : 0 ≤ r := hr ▸ Int.emod_nonneg t (by rw [hQ]; norm_num)
  have hhi : r < 3329 := hr ▸ Int.emod_lt_of_pos t (by rw [hQ]; norm_num)
  rw [Int.shiftLeft_eq, i16_wrap_of_within ⟨by omega, by omega⟩, hhalf]
  refine (i16_yields ⟨by omega, by omega⟩).bind fun sum hsum => yields_pure ?_
  rw [hsum, hQ, Int.tdiv_eq_ediv_of_nonneg (by omega)]
  by_cases hone : ReadsOne t
  · rw [if_pos hone]
    unfold ReadsOne at hone
    rw [← hr] at hone
    rw [show (r * 2 ^ 1 + 1664) / 3329 = 1 by omega]
    decide
  · rw [if_neg hone]
    unfold ReadsOne at hone
    rw [← hr] at hone
    rcases (show (r * 2 ^ 1 + 1664) / 3329 = 0 ∨ (r * 2 ^ 1 + 1664) / 3329 = 2 by omega) with h | h
    · rw [h]
      decide
    · rw [h]
      decide

def bitByte (c : Bool) : UInt8 := if c then 1 else 0

theorem packBits_byte : ∀ n : ℕ, n < 256 → Poly.packBits ((List.range 8).map fun i =>
    bitByte (n.testBit i)) = [UInt8.ofNat n] := by
  decide +kernel

theorem testBit_packed : ∀ c0 c1 c2 c3 c4 c5 c6 c7 : Bool,
    (List.range 8).map (fun i => (bitByte c0 ||| (bitByte c1 <<< 1) ||| (bitByte c2 <<< 2) |||
      (bitByte c3 <<< 3) ||| (bitByte c4 <<< 4) ||| (bitByte c5 <<< 5) ||| (bitByte c6 <<< 6) |||
        (bitByte c7 <<< 7)).toNat.testBit i) = [c0, c1, c2, c3, c4, c5, c6, c7] := by
  decide +kernel

theorem packBits_messageBits (m : List UInt8) :
    Poly.packBits ((messageBits m).map bitByte) = m := by
  induction m with
  | nil => rfl
  | cons b m ih =>
    have hbyte := packBits_byte b.toNat b.toNat_lt
    have hhead : ∀ rest, Poly.packBits (((List.range 8).map fun i => bitByte (b.toNat.testBit i)) ++
        rest) = Poly.packBits ((List.range 8).map fun i => bitByte (b.toNat.testBit i)) ++
          Poly.packBits rest := fun _ => rfl
    rw [messageBits, List.flatMap_cons, List.map_append, List.map_map]
    change Poly.packBits (((List.range 8).map fun i => bitByte (b.toNat.testBit i)) ++
      (messageBits m).map bitByte) = b :: m
    rw [hhead, hbyte, ih, UInt8.ofNat_toNat, List.singleton_append]

theorem messageBits_packBits {n : ℕ} {cs : List Bool} (hlength : cs.length = 8 * n) :
    messageBits (Poly.packBits (cs.map bitByte)) = cs := by
  induction n generalizing cs with
  | zero => rw [List.length_eq_zero_iff.mp hlength]; rfl
  | succ n ih =>
    obtain ⟨c0, c1, c2, c3, cs, rfl, hfour⟩ := exists_four (n := 2 * n + 1) (l := cs) (by omega)
    obtain ⟨c4, c5, c6, c7, cs, rfl, hrest⟩ := exists_four (n := 2 * n) (l := cs) (by omega)
    have hbits := testBit_packed c0 c1 c2 c3 c4 c5 c6 c7
    simp only [List.map_cons]
    rw [Poly.packBits, messageBits, List.flatMap_cons, hbits]
    change _ ++ messageBits _ = _
    rw [ih (by omega)]
    rfl

theorem poly_toMsg_spec {v : Poly} (hv : Small 3328 v) :
    Poly.toMsg v = .ok (Poly.packBits ((v.map fun t => decide (ReadsOne t)).map bitByte)) := by
  obtain ⟨bits, hbits, hall⟩ := yields_mapM fun x hx => toMsgBit_spec (hv.within x hx)
  have hmap : List.Forall₂ (· = ·) ((v.map fun t => decide (ReadsOne t)).map bitByte) bits := by
    rw [List.map_map, List.forall₂_map_left_iff]
    refine hall.imp fun t b hb => ?_
    rw [hb, Function.comp_apply, bitByte]
    split_ifs <;> simp_all
  rw [List.forall₂_eq_eq_eq] at hmap
  unfold Poly.toMsg
  rw [hbits, hmap]
  rfl

/-- A message is read where each value reads as its bit. -/
theorem poly_toMsg_eq_iff {v : Poly} (hv : Small 3328 v) (m : List UInt8) :
    Poly.toMsg v = .ok m ↔ v.map (fun t => decide (ReadsOne t)) = messageBits m := by
  have hlength : (v.map fun t => decide (ReadsOne t)).length = 8 * 32 := by
    rw [List.length_map, hv.length]
    rfl
  rw [poly_toMsg_spec hv, Except.ok.injEq]
  constructor
  · intro h
    rw [← h, messageBits_packBits hlength]
  · intro h
    rw [h, packBits_messageBits]

end Messages

end OrionNetwork.Kyber
