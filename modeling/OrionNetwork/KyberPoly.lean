import OrionNetwork.KyberNtt

/-!
# Kyber polynomials and byte strings

The conversions between polynomials and byte strings, with and without loss, the noise
that is sampled from a hash, and sums. Each function comes with the bounds of what it
returns, and with those of its arguments under which none of its operations overflows.
-/
namespace OrionNetwork.Kyber

open CheckedIntegers PolynomialHalves

def u16 : IntType := unsigned 16
def u32 : IntType := unsigned 32

/-- A byte string of a fixed length. -/
abbrev Bytes (n : ℕ) := { l : List UInt8 // l.length = n }

abbrev Polyvec := List Poly

/-- `a & b` on the bits of `i16` values. -/
def bitAnd (a b : ℤ) : ℤ := (BitVec.ofInt 16 a &&& BitVec.ofInt 16 b).toInt

def bitOr (a b : ℤ) : ℤ := (BitVec.ofInt 16 a ||| BitVec.ofInt 16 b).toInt

/-- `u + ((u >> 0xf) & Q as i16)`. -/
def addQ (u : ℤ) : Except Trap ℤ := i16.add u (bitAnd (u >>> (15 : ℕ)) Q)

namespace Poly

def compressCoeff (u : ℤ) : Except Trap UInt8 := do
  let u ← addQ u
  let sum ← u16.add (u16.wrap (u16.wrap u <<< (4 : ℕ))) (Q / 2)
  return UInt8.ofNat ((sum / Q).toNat &&& 0xf)

def packPairs : List UInt8 → List UInt8
  | a :: b :: us => (a ||| (b <<< 4)) :: packPairs us
  | _ => []

def compress (input : Poly) : Except Trap (List UInt8) := do
  let us ← input.mapM compressCoeff
  return packPairs us

def decompressCoeff (u : UInt8) : Except Trap ℤ := do
  let product ← u16.mul u.toNat Q
  let sum ← u16.add product 8
  return i16.wrap (sum >>> (4 : ℕ))

def decompress (input : List UInt8) : Except Trap Poly :=
  (input.flatMap fun b : UInt8 => ([b &&& 0xf, b >>> 4] : List UInt8)).mapM decompressCoeff

def packTwelve : List ℤ → List UInt8
  | t0 :: t1 :: ts =>
    UInt8.ofInt t0 :: UInt8.ofInt (bitOr (t0 >>> (8 : ℕ)) (i16.wrap (t1 <<< (4 : ℕ)))) ::
      UInt8.ofInt (t1 >>> (4 : ℕ)) :: packTwelve ts
  | _ => []

def toBytes (input : Poly) : Except Trap (List UInt8) := do
  let ts ← input.mapM addQ
  return packTwelve ts

def fromBytes : List UInt8 → Poly
  | t0 :: t1 :: t2 :: input =>
    i16.wrap ((t0.toNat ||| ((t1.toNat &&& 0xf) <<< 8)) &&& 0xfff : ℕ) ::
      i16.wrap (((t1.toNat >>> 4) ||| (t2.toNat <<< 4)) &&& 0xfff : ℕ) :: fromBytes input
  | _ => []

def fromMsgBit (input : UInt8) (i : ℕ) : Except Trap ℤ := do
  let mask ← i16.neg ((input >>> UInt8.ofNat i) &&& 1).toNat
  return bitAnd mask (i16.wrap ((Q + 1) / 2))

def fromMsg (input : List UInt8) : Except Trap Poly :=
  (input.flatMap fun b => (List.range 8).map fun i => (b, i)).mapM fun p => fromMsgBit p.1 p.2

def toMsgBit (t : ℤ) : Except Trap UInt8 := do
  let t ← addQ t
  let sum ← i16.add (i16.wrap (t <<< (1 : ℕ))) (Q / 2)
  return UInt8.ofInt (bitAnd (sum.tdiv Q) 1)

/-- `acc | ((t as u8) << i)` over the bits of each byte. -/
def packBits : List UInt8 → List UInt8
  | b0 :: b1 :: b2 :: b3 :: b4 :: b5 :: b6 :: b7 :: bits =>
    (b0 ||| (b1 <<< 1) ||| (b2 <<< 2) ||| (b3 <<< 3) ||| (b4 <<< 4) ||| (b5 <<< 5) |||
      (b6 <<< 6) ||| (b7 <<< 7)) :: packBits bits
  | _ => []

def toMsg (input : Poly) : Except Trap (List UInt8) := do
  let bits ← input.mapM toMsgBit
  return packBits bits

/-- The difference of the `i`th pair of two-bit sums in `d`. -/
def cbdCoeff (d i : ℕ) : Except Trap ℤ :=
  i16.sub ((d >>> (4 * i)) &&& 3 : ℕ) ((d >>> (4 * i + 2)) &&& 3 : ℕ)

def cbdWord (t : ℕ) : Except Trap (List ℤ) := do
  let d ← u32.add (t &&& 0x55555555 : ℕ) ((t >>> 1) &&& 0x55555555 : ℕ)
  (List.range 8).mapM (cbdCoeff d.toNat)

/-- `u32::from_le_bytes` of each four bytes. -/
def words : List UInt8 → List ℕ
  | b0 :: b1 :: b2 :: b3 :: buf =>
    (b0.toNat + 256 * b1.toNat + 65536 * b2.toNat + 16777216 * b3.toNat) :: words buf
  | _ => []

def cbd2 (buf : List UInt8) : Except Trap Poly := do
  let chunks ← (words buf).mapM cbdWord
  return chunks.flatten

/-- `prf`, with the extendable hash as a parameter. -/
def prf (shake256 : List UInt8 → Stream) (length : ℕ) (key : List UInt8) (nonce : UInt8) :
    List UInt8 :=
  (List.range length).map (shake256 (key ++ [nonce]))

def eta1 : ℕ := 2
def eta2 : ℕ := 2

def getnoiseEta1 (shake256 : List UInt8 → Stream) (seed : List UInt8) (nonce : UInt8) :
    Except Trap Poly :=
  cbd2 (prf shake256 (eta1 * N / 4) seed nonce)

def getnoiseEta2 (shake256 : List UInt8 → Stream) (seed : List UInt8) (nonce : UInt8) :
    Except Trap Poly :=
  cbd2 (prf shake256 (eta2 * N / 4) seed nonce)

def tomont (inout : Poly) : Except Trap Poly :=
  inout.mapM fun r => do
    let product ← i32.mul r (i32.wrap ((1 <<< 32) % Q : ℕ))
    Montgomery.reduce product

def add (a b : Poly) : Except Trap Poly := (a.zip b).mapM fun p => i16.add p.1 p.2

def sub (a b : Poly) : Except Trap Poly := (a.zip b).mapM fun p => i16.sub p.1 p.2

end Poly

namespace Polyvec

def compressCoeff (u : ℤ) : Except Trap ℕ := do
  let u ← addQ u
  let sum ← u32.add (u32.wrap (u32.wrap u <<< (10 : ℕ))) (Q / 2)
  return (sum / Q).toNat &&& 0x3ff

def packTen : List ℕ → List UInt8
  | t0 :: t1 :: t2 :: t3 :: ts =>
    [t0, (t0 >>> 8) ||| (t1 <<< 2), (t1 >>> 6) ||| (t2 <<< 4), (t2 >>> 4) ||| (t3 <<< 6),
      t3 >>> 2].map UInt8.ofNat ++ packTen ts
  | _ => []

def compress (input : Polyvec) : Except Trap (List UInt8) := do
  let ts ← input.flatten.mapM compressCoeff
  return packTen ts

def unpackTen : List UInt8 → List ℕ
  | b0 :: b1 :: b2 :: b3 :: b4 :: input =>
    [b0.toNat ||| (b1.toNat <<< 8), (b1.toNat >>> 2) ||| (b2.toNat <<< 6),
      (b2.toNat >>> 4) ||| (b3.toNat <<< 4), (b3.toNat >>> 6) ||| (b4.toNat <<< 2)] ++
      unpackTen input
  | _ => []

def decompressCoeff (u : ℕ) : Except Trap ℤ := do
  let product ← u32.mul (u &&& 0x3ff : ℕ) Q
  let sum ← u32.add product 512
  return i16.wrap (sum >>> (10 : ℕ))

/-- `array_chunks::<N>()` of the polynomials. -/
def polys : ℕ → List ℤ → Polyvec
  | 0, _ => []
  | count + 1, l => l.take N :: polys count (l.drop N)

def decompress (input : List UInt8) : Except Trap Polyvec := do
  let coeffs ← (unpackTen input).mapM decompressCoeff
  return polys K coeffs

def toBytes (input : Polyvec) : Except Trap (List UInt8) := do
  let parts ← input.mapM Poly.toBytes
  return parts.flatten

/-- The polynomials of the chunks of `POLYBYTES`. -/
def fromBytes (input : List UInt8) : Polyvec :=
  (List.range K).map fun i => Poly.fromBytes ((input.drop (i * 384)).take 384)

def ntt (inout : Polyvec) : Except Trap Polyvec := inout.mapM Poly.ntt

def invnttTomont (inout : Polyvec) : Except Trap Polyvec := inout.mapM Poly.invnttTomont

def basemulAccMontgomery (a b : Polyvec) : Except Trap Poly :=
  match a.zip b with
  | [] => .error .exhausted
  | first :: rest => do
    let start ← Poly.basemulMontgomery first.1 first.2
    let res ← rest.foldlM (fun acc p => do
      let product ← Poly.basemulMontgomery p.1 p.2
      Poly.add acc product) start
    Poly.reduce res

def reduce (inout : Polyvec) : Except Trap Polyvec := inout.mapM Poly.reduce

def add (a b : Polyvec) : Except Trap Polyvec := (a.zip b).mapM fun p => Poly.add p.1 p.2

end Polyvec

/-- A polynomial of the size of the array, with values up to the bound. -/
structure Small (bound : ℤ) (v : Poly) : Prop where
  length : v.length = N
  within : ∀ x ∈ v, Within bound x

structure SmallVec (bound : ℤ) (v : Polyvec) : Prop where
  length : v.length = K
  small : ∀ p ∈ v, Small bound p

theorem Small.mono {bound bound' : ℤ} {v : Poly} (h : Small bound v) (hb : bound ≤ bound') :
    Small bound' v :=
  ⟨h.length, fun x hx => (h.within x hx).mono hb⟩

theorem SmallVec.mono {bound bound' : ℤ} {v : Polyvec} (h : SmallVec bound v)
    (hb : bound ≤ bound') : SmallVec bound' v :=
  ⟨h.length, fun p hp => (h.small p hp).mono hb⟩

/-- A step on every coefficient. -/
theorem Small.mapM_yields {f : ℤ → Except Trap ℤ} {bound bound' : ℤ} {v : Poly}
    (hv : Small bound v) (hf : ∀ x, Within bound x → Yields (f x) (Within bound')) :
    Yields (v.mapM f) (Small bound') := by
  refine (yields_mapM_forall fun x hx => hf x (hv.within x hx)).mono fun out hout => ?_
  exact ⟨hout.1.trans hv.length, hout.2⟩

theorem SmallVec.mapM_yields {f : Poly → Except Trap Poly} {bound bound' : ℤ} {v : Polyvec}
    (hv : SmallVec bound v) (hf : ∀ p, Small bound p → Yields (f p) (Small bound')) :
    Yields (v.mapM f) (SmallVec bound') := by
  refine (yields_mapM_forall fun p hp => hf p (hv.small p hp)).mono fun out hout => ?_
  exact ⟨hout.1.trans hv.length, hout.2⟩

/-- A step on the coefficients at the same place. -/
theorem Small.zip_yields {f : ℤ → ℤ → Except Trap ℤ} {A B C : ℤ} {a b : Poly} (ha : Small A a)
    (hb : Small B b)
    (hf : ∀ x y, Within A x → Within B y → Yields (f x y) (Within C)) :
    Yields ((a.zip b).mapM fun p => f p.1 p.2) (Small C) := by
  refine (yields_mapM_forall fun p hp => ?_).mono fun v hv => ⟨?_, hv.2⟩
  · obtain ⟨hpa, hpb⟩ := List.of_mem_zip hp
    exact hf p.1 p.2 (ha.within _ hpa) (hb.within _ hpb)
  · rw [hv.1, List.length_zip, ha.length, hb.length, min_self]

theorem SmallVec.zip_yields {f : Poly → Poly → Except Trap Poly} {A B C : ℤ} {a b : Polyvec}
    (ha : SmallVec A a) (hb : SmallVec B b)
    (hf : ∀ p q, Small A p → Small B q → Yields (f p q) (Small C)) :
    Yields ((a.zip b).mapM fun p => f p.1 p.2) (SmallVec C) := by
  refine (yields_mapM_forall fun p hp => ?_).mono fun v hv => ⟨?_, hv.2⟩
  · obtain ⟨hpa, hpb⟩ := List.of_mem_zip hp
    exact hf p.1 p.2 (ha.small _ hpa) (hb.small _ hpb)
  · rw [hv.1, List.length_zip, ha.length, hb.length, min_self]

theorem bitAnd_zero (b : ℤ) : bitAnd 0 b = 0 := by
  simp [bitAnd]

theorem addQ_yields {u : ℤ} (hu : Within 3328 u) :
    Yields (addQ u) fun r => 0 ≤ r ∧ r ≤ 3328 := by
  obtain ⟨hlo, hhi⟩ := hu
  have hQ : ((Q : ℕ) : ℤ) = 3329 := rfl
  have hmask : bitAnd (-1) 3329 = 3329 := by decide
  unfold addQ
  rw [hQ, Int.shiftRight_eq_div_pow]
  rcases lt_or_ge u 0 with hneg | hpos
  · rw [show u / ((2 ^ 15 : ℕ) : ℤ) = -1 by omega, hmask]
    refine (i16_yields ⟨by omega, by omega⟩).mono fun r hr => ?_
    omega
  · rw [show u / ((2 ^ 15 : ℕ) : ℤ) = 0 by omega, bitAnd_zero]
    refine (i16_yields ⟨by omega, by omega⟩).mono fun r hr => ?_
    omega

theorem u16_yields {x : ℤ} (hlo : 0 ≤ x) (hhi : x < 65536) : Yields (u16.check x) (· = x) :=
  yields_check hlo hhi

theorem u32_yields {x : ℤ} (hlo : 0 ≤ x) (hhi : x < 4294967296) : Yields (u32.check x) (· = x) :=
  yields_check hlo hhi

theorem u16_wrap {x : ℤ} (hlo : 0 ≤ x) (hhi : x < 65536) : u16.wrap x = x :=
  IntType.wrap_eq_self hlo hhi

theorem u32_wrap {x : ℤ} (hlo : 0 ≤ x) (hhi : x < 4294967296) : u32.wrap x = x :=
  IntType.wrap_eq_self hlo hhi

section Compression

theorem poly_compressCoeff_yields {u : ℤ} (hu : Within 3328 u) :
    Yields (Poly.compressCoeff u) fun _ => True := by
  refine (addQ_yields hu).bind fun u hu => ?_
  obtain ⟨hlo, hhi⟩ := hu
  rw [u16_wrap hlo (by omega), Int.shiftLeft_eq, u16_wrap (by omega) (by omega)]
  have hhalf : ((Q : ℕ) : ℤ) / 2 = 1664 := rfl
  rw [hhalf]
  exact (u16_yields (by omega) (by omega)).bind fun _ _ => yields_pure trivial

theorem length_packPairs (us : List UInt8) : (Poly.packPairs us).length = us.length / 2 := by
  induction us using Poly.packPairs.induct with
  | case1 a b us ih =>
    rw [Poly.packPairs, List.length_cons, List.length_cons, List.length_cons, ih]
    omega
  | case2 us hshort =>
    rcases us with _ | ⟨a, _ | ⟨b, us⟩⟩
    · simp [Poly.packPairs]
    · simp [Poly.packPairs]
    · exact absurd rfl (hshort a b us)

theorem poly_compress_yields {v : Poly} (hv : Small 3328 v) :
    Yields (Poly.compress v) (List.length · = 128) := by
  refine (yields_mapM_forall fun x hx => poly_compressCoeff_yields (hv.within x hx)).bind
    fun us hus => yields_pure ?_
  rw [length_packPairs, hus.1, hv.length]
  rfl

theorem poly_decompressCoeff_yields {u : UInt8} (hu : u.toNat < 16) :
    Yields (Poly.decompressCoeff u) (Within 3328) := by
  have hQ : ((Q : ℕ) : ℤ) = 3329 := rfl
  unfold Poly.decompressCoeff
  rw [hQ]
  refine (u16_yields (by omega) (by omega)).bind fun product hproduct => ?_
  subst hproduct
  refine (u16_yields (by omega) (by omega)).bind fun sum hsum => ?_
  subst hsum
  rw [Int.shiftRight_eq_div_pow, i16_wrap_of_within ⟨by omega, by omega⟩]
  exact yields_pure ⟨by omega, by omega⟩

theorem poly_decompress_yields {input : List UInt8} (hlength : input.length = 128) :
    Yields (Poly.decompress input) (Small 3328) := by
  refine (yields_mapM_forall fun u hu => poly_decompressCoeff_yields ?_).mono fun v hv => ⟨?_, hv.2⟩
  · obtain ⟨b, -, hu⟩ := List.mem_flatMap.mp hu
    have hb := b.toNat_lt
    simp only [List.mem_cons, List.not_mem_nil, or_false] at hu
    rcases hu with rfl | rfl
    · rw [UInt8.toNat_and]
      exact Nat.lt_of_le_of_lt Nat.and_le_right (by decide)
    · rw [UInt8.toNat_shiftRight, Nat.shiftRight_eq_div_pow]
      exact Nat.div_lt_of_lt_mul hb
  · rw [hv.1, List.length_flatMap]
    simp [hlength, N]

theorem polyvec_compressCoeff_yields {u : ℤ} (hu : Within 3328 u) :
    Yields (Polyvec.compressCoeff u) fun _ => True := by
  refine (addQ_yields hu).bind fun u hu => ?_
  obtain ⟨hlo, hhi⟩ := hu
  rw [u32_wrap hlo (by omega), Int.shiftLeft_eq, u32_wrap (by omega) (by omega)]
  have hhalf : ((Q : ℕ) : ℤ) / 2 = 1664 := rfl
  rw [hhalf]
  exact (u32_yields (by omega) (by omega)).bind fun _ _ => yields_pure trivial

theorem length_packTen (ts : List ℕ) : (Polyvec.packTen ts).length = ts.length / 4 * 5 := by
  induction ts using Polyvec.packTen.induct with
  | case1 t0 t1 t2 t3 ts ih =>
    rw [Polyvec.packTen, List.length_append, ih]
    simp only [List.length_map, List.length_cons, List.length_nil]
    omega
  | case2 ts hshort =>
    rcases ts with _ | ⟨t0, _ | ⟨t1, _ | ⟨t2, _ | ⟨t3, ts⟩⟩⟩⟩
    · simp [Polyvec.packTen]
    · simp [Polyvec.packTen]
    · simp [Polyvec.packTen]
    · simp [Polyvec.packTen]
    · exact absurd rfl (hshort t0 t1 t2 t3 ts)

/-- The coefficients of all polynomials. -/
theorem SmallVec.flatten {bound : ℤ} {v : Polyvec} (hv : SmallVec bound v) :
    v.flatten.length = K * N ∧ ∀ x ∈ v.flatten, Within bound x := by
  constructor
  · rw [List.length_flatten, List.map_congr_left fun p hp => (hv.small p hp).length,
      List.map_const', List.sum_replicate, hv.length, smul_eq_mul]
  · intro x hx
    obtain ⟨p, hp, hx⟩ := List.mem_flatten.mp hx
    exact (hv.small p hp).within x hx

theorem polyvec_compress_yields {v : Polyvec} (hv : SmallVec 3328 v) :
    Yields (Polyvec.compress v) (List.length · = 960) := by
  obtain ⟨hlength, hwithin⟩ := hv.flatten
  refine (yields_mapM_forall fun x hx => polyvec_compressCoeff_yields (hwithin x hx)).bind
    fun ts hts => yields_pure ?_
  rw [length_packTen, hts.1, hlength]
  rfl

theorem polyvec_decompressCoeff_yields (u : ℕ) :
    Yields (Polyvec.decompressCoeff u) (Within 3328) := by
  have hQ : ((Q : ℕ) : ℤ) = 3329 := rfl
  have hu : u &&& 0x3ff ≤ 1023 := Nat.and_le_right
  unfold Polyvec.decompressCoeff
  rw [hQ]
  refine (u32_yields (by omega) (by omega)).bind fun product hproduct => ?_
  subst hproduct
  refine (u32_yields (by omega) (by omega)).bind fun sum hsum => ?_
  subst hsum
  rw [Int.shiftRight_eq_div_pow, i16_wrap_of_within ⟨by omega, by omega⟩]
  exact yields_pure ⟨by omega, by omega⟩

theorem length_unpackTen (input : List UInt8) :
    (Polyvec.unpackTen input).length = input.length / 5 * 4 := by
  induction input using Polyvec.unpackTen.induct with
  | case1 b0 b1 b2 b3 b4 input ih =>
    rw [Polyvec.unpackTen, List.length_append, ih]
    simp only [List.length_cons, List.length_nil]
    omega
  | case2 input hshort =>
    rcases input with _ | ⟨b0, _ | ⟨b1, _ | ⟨b2, _ | ⟨b3, _ | ⟨b4, input⟩⟩⟩⟩⟩
    · simp [Polyvec.unpackTen]
    · simp [Polyvec.unpackTen]
    · simp [Polyvec.unpackTen]
    · simp [Polyvec.unpackTen]
    · simp [Polyvec.unpackTen]
    · exact absurd rfl (hshort b0 b1 b2 b3 b4 input)

theorem polys_small {bound : ℤ} {count : ℕ} {l : List ℤ} (hlength : l.length = count * N)
    (hl : ∀ x ∈ l, Within bound x) :
    (Polyvec.polys count l).length = count ∧ ∀ p ∈ Polyvec.polys count l, Small bound p := by
  induction count generalizing l with
  | zero => simp [Polyvec.polys]
  | succ count ih =>
    rw [Nat.succ_mul] at hlength
    obtain ⟨hcount, hsmall⟩ := ih (l := l.drop N) (by rw [List.length_drop]; omega)
      fun x hx => hl x (List.mem_of_mem_drop hx)
    rw [Polyvec.polys]
    refine ⟨by rw [List.length_cons, hcount], List.forall_mem_cons.mpr ⟨⟨?_, ?_⟩, hsmall⟩⟩
    · rw [List.length_take]
      omega
    · exact fun x hx => hl x (List.mem_of_mem_take hx)

theorem polyvec_decompress_yields {input : List UInt8} (hlength : input.length = 960) :
    Yields (Polyvec.decompress input) (SmallVec 3328) := by
  refine (yields_mapM_forall fun u _ => polyvec_decompressCoeff_yields u).bind fun l hl => ?_
  have hcount : l.length = K * N := by
    rw [hl.1, length_unpackTen, hlength]
    rfl
  obtain ⟨hk, hsmall⟩ := polys_small hcount hl.2
  exact yields_pure ⟨hk, hsmall⟩

end Compression

section Serialisation

theorem length_packTwelve (ts : List ℤ) : (Poly.packTwelve ts).length = ts.length / 2 * 3 := by
  induction ts using Poly.packTwelve.induct with
  | case1 t0 t1 ts ih =>
    rw [Poly.packTwelve]
    simp only [List.length_cons, ih]
    omega
  | case2 ts hshort =>
    rcases ts with _ | ⟨t0, _ | ⟨t1, ts⟩⟩
    · simp [Poly.packTwelve]
    · simp [Poly.packTwelve]
    · exact absurd rfl (hshort t0 t1 ts)

theorem poly_toBytes_yields {v : Poly} (hv : Small 3328 v) :
    Yields (Poly.toBytes v) (List.length · = 384) := by
  refine (yields_mapM_forall fun x hx => addQ_yields (hv.within x hx)).bind
    fun ts hts => yields_pure ?_
  rw [length_packTwelve, hts.1, hv.length]
  rfl

theorem polyvec_toBytes_yields {v : Polyvec} (hv : SmallVec 3328 v) :
    Yields (Polyvec.toBytes v) (List.length · = 1152) := by
  refine (yields_mapM_forall fun p hp => poly_toBytes_yields (hv.small p hp)).bind
    fun parts hparts => yields_pure ?_
  rw [List.length_flatten, List.map_congr_left hparts.2, List.map_const', List.sum_replicate,
    hparts.1, hv.length]
  rfl

/-- Twelve bits, which may be more than `Q`. -/
theorem fromBytes_within (input : List UInt8) : ∀ x ∈ Poly.fromBytes input, Within 4095 x := by
  have htwelve (n : ℕ) : Within 4095 (i16.wrap ((n &&& 0xfff : ℕ) : ℤ)) := by
    have hn : n &&& 0xfff ≤ 4095 := Nat.and_le_right
    rw [i16_wrap_of_within ⟨by omega, by omega⟩]
    exact ⟨by omega, by omega⟩
  induction input using Poly.fromBytes.induct with
  | case1 t0 t1 t2 input ih =>
    rw [Poly.fromBytes]
    exact List.forall_mem_cons.mpr ⟨htwelve _, List.forall_mem_cons.mpr ⟨htwelve _, ih⟩⟩
  | case2 input hshort =>
    rw [Poly.fromBytes]
    · simp
    · exact hshort

theorem length_fromBytes (input : List UInt8) :
    (Poly.fromBytes input).length = input.length / 3 * 2 := by
  induction input using Poly.fromBytes.induct with
  | case1 t0 t1 t2 input ih =>
    rw [Poly.fromBytes]
    simp only [List.length_cons, ih]
    omega
  | case2 input hshort =>
    rcases input with _ | ⟨t0, _ | ⟨t1, _ | ⟨t2, input⟩⟩⟩
    · simp [Poly.fromBytes]
    · simp [Poly.fromBytes]
    · simp [Poly.fromBytes]
    · exact absurd rfl (hshort t0 t1 t2 input)

theorem polyvec_fromBytes_small {input : List UInt8} (hlength : input.length = 1152) :
    SmallVec 4095 (Polyvec.fromBytes input) := by
  constructor
  · rw [Polyvec.fromBytes, List.length_map, List.length_range]
  · intro p hp
    obtain ⟨i, hi, rfl⟩ := List.mem_map.mp hp
    have hlt : i < 3 := List.mem_range.mp hi
    refine ⟨?_, fromBytes_within _⟩
    rw [length_fromBytes, List.length_take, List.length_drop, hlength, min_eq_left (by omega)]
    rfl

theorem fromMsgBit_yields (input : UInt8) (i : ℕ) :
    Yields (Poly.fromMsgBit input i) (Within 1665) := by
  have hhalf : i16.wrap (((Q + 1) / 2 : ℕ) : ℤ) = 1665 := by decide
  have hmask : bitAnd (-1) 1665 = 1665 := by decide
  have hbit : ((input >>> UInt8.ofNat i) &&& 1).toNat ≤ 1 := by
    rw [UInt8.toNat_and]
    exact Nat.and_le_right
  unfold Poly.fromMsgBit
  generalize ((input >>> UInt8.ofNat i) &&& 1).toNat = bit at hbit
  refine (i16_yields ⟨by omega, by omega⟩).bind fun mask hm => yields_pure ?_
  subst hm
  have hcases : bit = 0 ∨ bit = 1 := by omega
  have hcast : ((Q : ℤ) + 1) / 2 = (((Q + 1) / 2 : ℕ) : ℤ) := rfl
  rw [hcast, hhalf]
  rcases hcases with rfl | rfl
  · rw [Nat.cast_zero, neg_zero, bitAnd_zero]
    exact ⟨by norm_num, by norm_num⟩
  · rw [Nat.cast_one, hmask]
    exact ⟨by norm_num, by norm_num⟩

theorem poly_fromMsg_yields {input : List UInt8} (hlength : input.length = 32) :
    Yields (Poly.fromMsg input) (Small 1665) := by
  refine (yields_mapM_forall fun p _ => fromMsgBit_yields p.1 p.2).mono fun v hv => ⟨?_, hv.2⟩
  rw [hv.1, List.length_flatMap]
  simp [hlength, N]

theorem toMsgBit_yields {t : ℤ} (ht : Within 3328 t) :
    Yields (Poly.toMsgBit t) fun _ => True := by
  refine (addQ_yields ht).bind fun t ht => ?_
  obtain ⟨hlo, hhi⟩ := ht
  rw [Int.shiftLeft_eq, i16_wrap_of_within ⟨by omega, by omega⟩]
  have hhalf : ((Q : ℕ) : ℤ) / 2 = 1664 := rfl
  rw [hhalf]
  exact (i16_yields ⟨by omega, by omega⟩).bind fun _ _ => yields_pure trivial

theorem length_packBits (bits : List UInt8) : (Poly.packBits bits).length = bits.length / 8 := by
  induction bits using Poly.packBits.induct with
  | case1 b0 b1 b2 b3 b4 b5 b6 b7 bits ih =>
    rw [Poly.packBits]
    simp only [List.length_cons, ih]
    omega
  | case2 bits hshort =>
    rcases bits with _ | ⟨b0, _ | ⟨b1, _ | ⟨b2, _ | ⟨b3, _ | ⟨b4, _ | ⟨b5, _ | ⟨b6, _ | ⟨b7, bits⟩⟩⟩⟩⟩⟩⟩⟩
    iterate 8 · simp [Poly.packBits]
    exact absurd rfl (hshort b0 b1 b2 b3 b4 b5 b6 b7 bits)

theorem poly_toMsg_yields {v : Poly} (hv : Small 3328 v) :
    Yields (Poly.toMsg v) (List.length · = 32) := by
  refine (yields_mapM_forall fun x hx => toMsgBit_yields (hv.within x hx)).bind
    fun bits hbits => yields_pure ?_
  rw [length_packBits, hbits.1, hv.length]
  rfl

end Serialisation

section Noise

theorem cbdWord_yields (t : ℕ) :
    Yields (Poly.cbdWord t) fun out => out.length = 8 ∧ ∀ x ∈ out, Within 3 x := by
  have hlow : t &&& 0x55555555 ≤ 0x55555555 := Nat.and_le_right
  have hhigh : (t >>> 1) &&& 0x55555555 ≤ 0x55555555 := Nat.and_le_right
  refine (u32_yields (by omega) (by omega)).bind fun d _ => ?_
  refine (yields_mapM_forall fun i _ => ?_).mono fun out hout => ⟨by simpa using hout.1, hout.2⟩
  have ha : (d.toNat >>> (4 * i)) &&& 3 ≤ 3 := Nat.and_le_right
  have hb : (d.toNat >>> (4 * i + 2)) &&& 3 ≤ 3 := Nat.and_le_right
  refine (i16_yields ⟨by omega, by omega⟩).mono fun x hx => ?_
  subst hx
  exact ⟨by omega, by omega⟩

theorem length_words (buf : List UInt8) : (Poly.words buf).length = buf.length / 4 := by
  induction buf using Poly.words.induct with
  | case1 b0 b1 b2 b3 buf ih =>
    rw [Poly.words]
    simp only [List.length_cons, ih]
    omega
  | case2 buf hshort =>
    rcases buf with _ | ⟨b0, _ | ⟨b1, _ | ⟨b2, _ | ⟨b3, buf⟩⟩⟩⟩
    · simp [Poly.words]
    · simp [Poly.words]
    · simp [Poly.words]
    · simp [Poly.words]
    · exact absurd rfl (hshort b0 b1 b2 b3 buf)

theorem cbd2_yields {buf : List UInt8} (hlength : buf.length = 128) :
    Yields (Poly.cbd2 buf) (Small 3) := by
  refine (yields_mapM_forall fun t _ => cbdWord_yields t).bind fun chunks hchunks => ?_
  obtain ⟨hcount, hall⟩ := hchunks
  refine yields_pure ⟨?_, ?_⟩
  · rw [List.length_flatten, List.map_congr_left fun c hc => (hall c hc).1, List.map_const',
      List.sum_replicate, hcount, length_words, hlength]
    rfl
  · intro x hx
    obtain ⟨c, hc, hx⟩ := List.mem_flatten.mp hx
    exact (hall c hc).2 x hx

theorem getnoiseEta1_yields (shake256 : List UInt8 → Stream) (seed : List UInt8) (nonce : UInt8) :
    Yields (Poly.getnoiseEta1 shake256 seed nonce) (Small 3) := by
  apply cbd2_yields
  rw [Poly.prf, List.length_map, List.length_range]
  rfl

theorem getnoiseEta2_yields (shake256 : List UInt8 → Stream) (seed : List UInt8) (nonce : UInt8) :
    Yields (Poly.getnoiseEta2 shake256 seed nonce) (Small 3) := by
  apply cbd2_yields
  rw [Poly.prf, List.length_map, List.length_range]
  rfl

end Noise

section Sums

theorem poly_tomont_yields {v : Poly} (hv : Small 3328 v) :
    Yields (Poly.tomont v) (Small 3328) := by
  have hf : i32.wrap (((1 <<< 32) % Q : ℕ) : ℤ) = 1353 := by decide
  refine hv.mapM_yields fun x hx => ?_
  obtain ⟨hlo, hhi⟩ := hx
  rw [hf]
  refine (i32_yields ⟨by omega, by omega⟩).bind fun product hproduct => ?_
  subst hproduct
  exact (montgomery_yields ⟨by omega, by omega⟩).mono fun r hr => hr.1

theorem poly_reduce_yields {v : Poly} (hv : Small 31625 v) :
    Yields (Poly.reduce v) (Small 1664) :=
  hv.mapM_yields fun _ hx => (barrett_yields hx).mono fun _ hr => hr.1

theorem poly_add_yields {A B : ℤ} (hAB : A + B ≤ 32767) {a b : Poly} (ha : Small A a)
    (hb : Small B b) : Yields (Poly.add a b) (Small (A + B)) := by
  refine ha.zip_yields hb fun x y hx hy => ?_
  have hsum := hx.add hy
  exact (i16_yields (hsum.mono hAB)).mono fun r hr => hr ▸ hsum

theorem poly_sub_yields {A B : ℤ} (hAB : A + B ≤ 32767) {a b : Poly} (ha : Small A a)
    (hb : Small B b) : Yields (Poly.sub a b) (Small (A + B)) := by
  refine ha.zip_yields hb fun x y hx hy => ?_
  have hdifference := hx.sub hy
  exact (i16_yields (hdifference.mono hAB)).mono fun r hr => hr ▸ hdifference

theorem poly_ntt_yields {v : Poly} (hv : Small 3328 v) : Yields (Poly.ntt v) (Small 1664) := by
  refine (polyNtt_yields hv.length hv.within).mono fun out hout => ⟨?_, mem_of_split hout⟩
  rw [length_of_split hout, length_moduli]
  rfl

/-- What a loop over the chunks of equal size has to start from. -/
theorem split_of_length {ζ : Type} {bound : ℤ} {size : ℕ} {ids : List ζ} {v : Poly}
    (hlength : v.length = size * ids.length) (hv : ∀ x ∈ v, Within bound x) :
    Split (fun _ chunk => chunk.length = size ∧ ∀ x ∈ chunk, Within bound x) ids v := by
  induction ids generalizing v with
  | nil => exact ⟨[], List.length_eq_zero_iff.mp hlength, List.Forall₂.nil⟩
  | cons z ids ih =>
    rw [List.length_cons, Nat.mul_succ] at hlength
    obtain ⟨chunks, hrest, hall⟩ := ih (v := v.drop size) (by rw [List.length_drop]; omega)
      fun x hx => hv x (List.mem_of_mem_drop hx)
    refine ⟨v.take size :: chunks, ?_, List.Forall₂.cons ⟨?_, ?_⟩ hall⟩
    · rw [List.flatten_cons, ← hrest, List.take_append_drop]
    · rw [List.length_take]
      omega
    · exact fun x hx => hv x (List.mem_of_mem_take hx)

theorem length_of_split_size {ζ : Type} {bound : ℤ} {size : ℕ} {ids : List ζ} {v : Poly}
    (h : Split (fun _ chunk => chunk.length = size ∧ ∀ x ∈ chunk, Within bound x) ids v) :
    v.length = size * ids.length ∧ ∀ x ∈ v, Within bound x := by
  obtain ⟨chunks, rfl, hall⟩ := h
  induction hall with
  | nil => simp
  | cons hchunk _ ih =>
    rw [List.flatten_cons, List.length_append, List.length_cons, hchunk.1, ih.1]
    refine ⟨by ring, fun x hx => ?_⟩
    exact (List.mem_append.mp hx).elim (hchunk.2 x) (ih.2 x)

theorem length_layerZetas : ∀ i < 7, (layerZetas i).length = 2 ^ i := by decide +kernel

/-- The bounds of the inverse transform do not depend on what the residues are. -/
theorem invnttLayer_small {i : ℕ} (hi : i < 7) {v : Poly} (hv : Small 6656 v) (rest : List ℤ) :
    Yields (layer invnttPair (v, (layerZetas (6 - i)).reverse ++ rest) (2 ^ (i + 1))) fun out =>
      Small 6656 out.1 ∧ out.2 = rest := by
  have hcount : 2 * 2 ^ (i + 1) * ((layerZetas (6 - i)).reverse).length = N := by
    rw [List.length_reverse, length_layerZetas _ (by omega), ← pow_succ', ← pow_add]
    rw [show i + 1 + 1 + (6 - i) = 8 by omega]
    rfl
  have hstep : ∀ zeta ∈ (layerZetas (6 - i)).reverse, ∀ chunk : List ℤ,
      (chunk.length = 2 * 2 ^ (i + 1) ∧ ∀ x ∈ chunk, Within 6656 x) →
      Yields (overHalves (invnttPair zeta) (2 ^ (i + 1)) chunk) fun out =>
        out.length = 2 * 2 ^ (i + 1) ∧ ∀ x ∈ out, Within 6656 x := by
    rintro zeta hzeta chunk ⟨hlength, hwithin⟩
    refine (overHalves_yields (invnttPair_yields (layerZetas_within (List.mem_reverse.mp hzeta)))
      hlength hwithin).mono fun out hout => ?_
    obtain ⟨l, r, rfl, hl, hr, hlcast, hrcast⟩ := hout
    have hllen := congrArg List.length hlcast
    have hrlen := congrArg List.length hrcast
    simp only [List.length_map, List.length_zipWith, List.length_take, List.length_drop] at hllen hrlen
    refine ⟨by rw [List.length_append]; omega, fun x hx => ?_⟩
    exact (List.mem_append.mp hx).elim (hl x) (hr x)
  have hlayer := layer_yields id (Nat.two_pow_pos (i + 1))
    (split_of_length (hv.length.trans hcount.symm) hv.within) (fun _ _ h => h.1) hstep rest
  rw [List.map_id] at hlayer
  refine hlayer.mono fun out hout => ⟨?_, hout.2⟩
  obtain ⟨hlength, hwithin⟩ := length_of_split_size hout.1
  exact ⟨hlength.trans hcount, hwithin⟩

theorem poly_invnttTomont_yields {v : Poly} (hv : Small 6656 v) :
    Yields (Poly.invnttTomont v) (Small 3328) := by
  refine (invnttLoop_yields (P := fun _ => Small 6656) hv fun i hi v hv rest =>
    invnttLayer_small hi hv rest).bind fun s hs => ?_
  refine hs.mapM_yields fun x hx => ?_
  have hconst : Within 1441 1441 := ⟨by norm_num, le_refl 1441⟩
  exact (fqmul_cast (by norm_num) (hx.mul hconst)).mono fun r hr => hr.1

theorem poly_basemulMontgomery_yields {A B : ℤ} (hAB : A * B ≤ 109084671) {a b : Poly}
    (ha : Small A a) (hb : Small B b) :
    Yields (Poly.basemulMontgomery a b) (Small 6656) :=
  (basemulMontgomery_yields hAB ha.length hb.length ha.within hb.within).mono fun _ hr =>
    ⟨hr.1, hr.2.1⟩

/-- Three products are summed before the reduction. -/
theorem basemulAccMontgomery_yields {A B : ℤ} (hAB : A * B ≤ 109084671) {a b : Polyvec}
    (ha : SmallVec A a) (hb : SmallVec B b) :
    Yields (Polyvec.basemulAccMontgomery a b) (Small 1664) := by
  obtain ⟨a0, a1, a2, rfl⟩ := List.length_eq_three.mp ha.length
  obtain ⟨b0, b1, b2, rfl⟩ := List.length_eq_three.mp hb.length
  have hproduct (p q : Poly) (hp : p ∈ [a0, a1, a2]) (hq : q ∈ [b0, b1, b2]) :=
    poly_basemulMontgomery_yields hAB (ha.small p hp) (hb.small q hq)
  refine (hproduct a0 b0 (by simp) (by simp)).bind fun start hstart => ?_
  refine (yields_foldlM (P := fun i => Small (6656 * (i + 1))) (hstart.mono (by norm_num))
    fun i hi acc hacc => ?_).bind fun res hres => ?_
  · have hpair : [(a1, b1), (a2, b2)][i].1 ∈ [a0, a1, a2] ∧
        [(a1, b1), (a2, b2)][i].2 ∈ [b0, b1, b2] := by
      change i < 2 at hi
      interval_cases i
      · simp
      · simp
    refine (hproduct _ _ hpair.1 hpair.2).bind fun product hmul => ?_
    change i < 2 at hi
    refine (poly_add_yields (by omega) hacc hmul).mono fun sum hsum => ?_
    refine hsum.mono ?_
    push_cast
    linarith
  · exact poly_reduce_yields (hres.mono (by norm_num))

end Sums

end OrionNetwork.Kyber
