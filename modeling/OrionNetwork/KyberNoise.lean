import Mathlib.Data.List.GetD
import OrionNetwork.KyberPoly

/-!
# The noise of Kyber

Each coefficient is made of four bits of the hash: the sum of two of them minus the sum of
the other two. The sums of all pairs are taken at once, in a word that holds a pair in
every two bits, where no sum is carried over into the next pair.
-/
namespace OrionNetwork.Kyber

open CheckedIntegers

/-- Words with a one in every second bit, for so many pairs. -/
def pairMask : ℕ → ℕ
  | 0 => 0
  | n + 1 => 4 * pairMask n + 1

/-- The sums of the bits of each pair. -/
def pairSums (n t : ℕ) : ℕ := (t &&& pairMask n) + ((t >>> 1) &&& pairMask n)

theorem and_pairMask_succ (n t : ℕ) :
    t &&& pairMask (n + 1) = 4 * (t / 4 &&& pairMask n) + t % 2 := by
  have hquotient : pairMask (n + 1) / 2 ^ 2 = pairMask n := by
    rw [pairMask]
    omega
  have hremainder : pairMask (n + 1) % 2 ^ 2 = 2 ^ 1 - 1 := by
    rw [pairMask]
    omega
  have hdiv : (t &&& pairMask (n + 1)) / 2 ^ 2 = t / 2 ^ 2 &&& pairMask n := by
    rw [Nat.and_div_two_pow, hquotient]
  have hmod : (t &&& pairMask (n + 1)) % 2 ^ 2 = t % 2 := by
    rw [Nat.and_mod_two_pow, hremainder, Nat.and_two_pow_sub_one_eq_mod]
    omega
  rw [← Nat.div_add_mod (t &&& pairMask (n + 1)) (2 ^ 2), hdiv, hmod]
  rfl

theorem pairSums_succ (n t : ℕ) :
    pairSums (n + 1) t = 4 * pairSums n (t / 4) + (t % 2 + t / 2 % 2) := by
  unfold pairSums
  have hshift : (t >>> 1) / 4 = (t / 4) >>> 1 := by
    rw [Nat.shiftRight_eq_div_pow, Nat.shiftRight_eq_div_pow]
    omega
  have hbit : (t >>> 1) % 2 = t / 2 % 2 := by rw [Nat.shiftRight_eq_div_pow]
  rw [and_pairMask_succ, and_pairMask_succ, hshift, hbit]
  omega

/-- No sum is carried over. -/
theorem pairSums_digit {n j : ℕ} (hj : j < n) (t : ℕ) :
    pairSums n t / 4 ^ j % 4 = t / 4 ^ j % 2 + t / 4 ^ j / 2 % 2 := by
  induction j generalizing n t with
  | zero =>
    obtain ⟨n, rfl⟩ := Nat.exists_eq_succ_of_ne_zero (Nat.ne_of_gt hj)
    rw [pairSums_succ, pow_zero, Nat.div_one, Nat.div_one]
    omega
  | succ j ih =>
    obtain ⟨n, rfl⟩ := Nat.exists_eq_succ_of_ne_zero (Nat.ne_of_gt (Nat.zero_lt_of_lt hj))
    have hhead : (4 * pairSums n (t / 4) + (t % 2 + t / 2 % 2)) / 4 = pairSums n (t / 4) := by omega
    rw [pairSums_succ, pow_succ', ← Nat.div_div_eq_div_mul, hhead, ih (Nat.lt_of_succ_lt_succ hj),
      Nat.div_div_eq_div_mul]

/-- The value of one bit. -/
def bitAt (t n : ℕ) : ℤ := (t / 2 ^ n % 2 : ℕ)

theorem cbdCoeff_spec {t i : ℕ} (hi : i < 8) :
    Yields (Poly.cbdCoeff (pairSums 16 t) i) (· = bitAt t (4 * i) + bitAt t (4 * i + 1) -
      (bitAt t (4 * i + 2) + bitAt t (4 * i + 3))) := by
  have hdigit (j : ℕ) (hj : j < 16) : (pairSums 16 t >>> (2 * j)) &&& 3 =
      t / 2 ^ (2 * j) % 2 + t / 2 ^ (2 * j + 1) % 2 := by
    have hpow : 4 ^ j = 2 ^ (2 * j) := (pow_mul 2 2 j).symm
    have h := pairSums_digit hj t
    rw [hpow, Nat.div_div_eq_div_mul, ← pow_succ] at h
    rw [Nat.and_two_pow_sub_one_eq_mod _ 2, Nat.shiftRight_eq_div_pow]
    exact h
  have hlow := hdigit (2 * i) (by omega)
  have hhigh := hdigit (2 * i + 1) (by omega)
  rw [show 2 * (2 * i) = 4 * i by ring] at hlow
  rw [show 2 * (2 * i + 1) = 4 * i + 2 by ring] at hhigh
  unfold Poly.cbdCoeff bitAt
  rw [hlow, hhigh]
  refine (i16_yields ⟨by omega, by omega⟩).mono fun x hx => ?_
  rw [hx]
  push_cast
  rfl

theorem mapM_eq_ok {α β : Type} {f : α → Except Trap β} {g : α → β} {l : List α}
    (h : ∀ a ∈ l, Yields (f a) (· = g a)) : l.mapM f = .ok (l.map g) := by
  obtain ⟨bs, hbs, hall⟩ := yields_mapM h
  have hmap : List.Forall₂ (· = ·) (l.map g) bs :=
    List.forall₂_map_left_iff.mpr (hall.imp fun _ _ heq => heq.symm)
  rw [List.forall₂_eq_eq_eq] at hmap
  rw [hbs, hmap]

theorem cbdWord_spec (t : ℕ) :
    Poly.cbdWord t = .ok ((List.range 8).map fun i => bitAt t (4 * i) + bitAt t (4 * i + 1) -
      (bitAt t (4 * i + 2) + bitAt t (4 * i + 3))) := by
  have hmask : 0x55555555 = pairMask 16 := by decide
  have hlow : t &&& 0x55555555 ≤ 0x55555555 := Nat.and_le_right
  have hhigh : (t >>> 1) &&& 0x55555555 ≤ 0x55555555 := Nat.and_le_right
  obtain ⟨d, hd, hsum⟩ : Yields
      (u32.add (t &&& 0x55555555 : ℕ) ((t >>> 1) &&& 0x55555555 : ℕ)) _ :=
    u32_yields (by omega) (by omega)
  have hword : d.toNat = pairSums 16 t := by
    rw [hsum, pairSums, hmask]
    omega
  unfold Poly.cbdWord
  rw [hd]
  change (List.range 8).mapM (Poly.cbdCoeff d.toNat) = _
  rw [hword]
  exact mapM_eq_ok fun i hi => cbdCoeff_spec (List.mem_range.mp hi)

/-- A bit of a buffer, those of each byte from the lowest on. -/
def bufBit (buf : List UInt8) (n : ℕ) : ℤ := bitAt (buf.getD (n / 8) 0).toNat (n % 8)

theorem bitAt_add_low {a b k n : ℕ} (hn : n < k) : bitAt (a + 2 ^ k * b) n = bitAt a n := by
  obtain ⟨d, rfl⟩ := Nat.exists_eq_add_of_lt hn
  unfold bitAt
  have hfactor : 2 ^ (n + d + 1) * b = 2 ^ n * (2 * (2 ^ d * b)) := by ring
  rw [hfactor, Nat.add_mul_div_left _ _ (Nat.two_pow_pos n)]
  congr 1
  omega

theorem bitAt_add_high {a b k : ℕ} (ha : a < 2 ^ k) (n : ℕ) :
    bitAt (a + 2 ^ k * b) (k + n) = bitAt b n := by
  unfold bitAt
  rw [pow_add, ← Nat.div_div_eq_div_mul, Nat.add_mul_div_left _ _ (Nat.two_pow_pos k),
    Nat.div_eq_of_lt ha, Nat.zero_add]

theorem bitAt_word (b0 b1 b2 b3 : UInt8) (buf : List UInt8) {n : ℕ} (hn : n < 32) :
    bitAt (b0.toNat + 256 * b1.toNat + 65536 * b2.toNat + 16777216 * b3.toNat) n =
      bufBit (b0 :: b1 :: b2 :: b3 :: buf) n := by
  have h0 : b0.toNat < 2 ^ 8 := b0.toNat_lt
  have h1 : b1.toNat < 2 ^ 8 := b1.toNat_lt
  have h2 : b2.toNat < 2 ^ 8 := b2.toNat_lt
  have hword : b0.toNat + 256 * b1.toNat + 65536 * b2.toNat + 16777216 * b3.toNat =
      b0.toNat + 2 ^ 8 * (b1.toNat + 2 ^ 8 * (b2.toNat + 2 ^ 8 * b3.toNat)) := by ring
  have hbyte : n = 8 * (n / 8) + n % 8 := (Nat.div_add_mod n 8).symm
  have hlow := Nat.mod_lt n (show 8 > 0 by norm_num)
  unfold bufBit
  generalize n / 8 = byte at hbyte
  generalize n % 8 = low at hbyte hlow
  rw [hword, hbyte]
  have hcases : byte < 4 := by omega
  interval_cases byte
  · rw [Nat.mul_zero, Nat.zero_add, bitAt_add_low hlow]
    rfl
  · rw [Nat.mul_one, bitAt_add_high h0, bitAt_add_low hlow]
    rfl
  · rw [show 8 * 2 + low = 8 + (8 + low) by ring, bitAt_add_high h0, bitAt_add_high h1,
      bitAt_add_low hlow]
    rfl
  · rw [show 8 * 3 + low = 8 + (8 + (8 + low)) by ring, bitAt_add_high h0, bitAt_add_high h1,
      bitAt_add_high h2]
    rfl

theorem bufBit_drop (b0 b1 b2 b3 : UInt8) (buf : List UInt8) (n : ℕ) :
    bufBit (b0 :: b1 :: b2 :: b3 :: buf) (32 + n) = bufBit buf n := by
  unfold bufBit
  rw [show (32 + n) / 8 = n / 8 + 1 + 1 + 1 + 1 by omega, show (32 + n) % 8 = n % 8 by omega,
    List.getD_cons_succ, List.getD_cons_succ, List.getD_cons_succ, List.getD_cons_succ]

/-- The sum of two bits minus the sum of the next two. -/
def binomial (buf : List UInt8) (k : ℕ) : ℤ :=
  bufBit buf (4 * k) + bufBit buf (4 * k + 1) - (bufBit buf (4 * k + 2) + bufBit buf (4 * k + 3))

theorem cbd2_eq_binomial {n : ℕ} {buf : List UInt8} (hlength : buf.length = 4 * n) :
    Poly.cbd2 buf = .ok ((List.range (8 * n)).map (binomial buf)) := by
  induction n generalizing buf with
  | zero =>
    rw [List.length_eq_zero_iff.mp hlength]
    rfl
  | succ n ih =>
    obtain ⟨b0, b1, b2, b3, buf, rfl, hrest⟩ := exists_four (n := n) hlength
    have hhead : (List.range 8).map (fun i =>
        bitAt (b0.toNat + 256 * b1.toNat + 65536 * b2.toNat + 16777216 * b3.toNat) (4 * i) +
          bitAt (b0.toNat + 256 * b1.toNat + 65536 * b2.toNat + 16777216 * b3.toNat) (4 * i + 1) -
          (bitAt (b0.toNat + 256 * b1.toNat + 65536 * b2.toNat + 16777216 * b3.toNat) (4 * i + 2) +
            bitAt (b0.toNat + 256 * b1.toNat + 65536 * b2.toNat + 16777216 * b3.toNat)
              (4 * i + 3))) =
        (List.range 8).map (binomial (b0 :: b1 :: b2 :: b3 :: buf)) := by
      refine List.map_congr_left fun i hi => ?_
      have hlt := List.mem_range.mp hi
      unfold binomial
      rw [bitAt_word b0 b1 b2 b3 buf (by omega), bitAt_word b0 b1 b2 b3 buf (by omega),
        bitAt_word b0 b1 b2 b3 buf (by omega), bitAt_word b0 b1 b2 b3 buf (by omega)]
    have htail : (List.range (8 * n)).map (binomial buf) = (List.range (8 * n)).map
        (binomial (b0 :: b1 :: b2 :: b3 :: buf) ∘ (8 + ·)) := by
      refine List.map_congr_left fun k _ => ?_
      unfold binomial
      simp only [Function.comp_apply, Nat.mul_add, Nat.add_assoc]
      rw [bufBit_drop, bufBit_drop, bufBit_drop, bufBit_drop]
    have hchunks := ih hrest
    unfold Poly.cbd2 at hchunks ⊢
    rw [Poly.words, List.mapM_cons, cbdWord_spec]
    rw [show 8 * (n + 1) = 8 + 8 * n by ring, List.range_add, List.map_append, List.map_map, ← htail,
      ← hhead]
    cases hmap : (Poly.words buf).mapM Poly.cbdWord with
    | error e =>
      rw [hmap] at hchunks
      cases hchunks
    | ok chunks =>
      rw [hmap] at hchunks
      have hflat : chunks.flatten = (List.range (8 * n)).map (binomial buf) := Except.ok.inj hchunks
      rw [← hflat]
      rfl

theorem binomial_within (buf : List UInt8) (k : ℕ) : Within 2 (binomial buf k) := by
  unfold binomial bufBit bitAt
  constructor
  · omega
  · omega

/-- The noise has a centered binomial distribution where the bits of the hash are uniform. -/
theorem getnoise_eq_binomial (shake256 : List UInt8 → Stream) (seed : List UInt8) (nonce : UInt8) :
    Poly.getnoiseEta1 shake256 seed nonce =
        .ok ((List.range N).map (binomial (Poly.prf shake256 128 seed nonce))) ∧
      Poly.getnoiseEta2 shake256 seed nonce =
        .ok ((List.range N).map (binomial (Poly.prf shake256 128 seed nonce))) := by
  have hlength : (Poly.prf shake256 128 seed nonce).length = 4 * 32 := by
    rw [Poly.prf, List.length_map, List.length_range]
  exact ⟨cbd2_eq_binomial hlength, cbd2_eq_binomial hlength⟩

theorem binomial_small (buf : List UInt8) : Small 2 ((List.range N).map (binomial buf)) := by
  refine ⟨by rw [List.length_map, List.length_range], fun x hx => ?_⟩
  obtain ⟨k, -, rfl⟩ := List.mem_map.mp hx
  exact binomial_within buf k

theorem getnoiseEta1_small (shake256 : List UInt8 → Stream) (seed : List UInt8) (nonce : UInt8) :
    Yields (Poly.getnoiseEta1 shake256 seed nonce) (Small 2) :=
  ⟨_, (getnoise_eq_binomial shake256 seed nonce).1, binomial_small _⟩

theorem getnoiseEta2_small (shake256 : List UInt8 → Stream) (seed : List UInt8) (nonce : UInt8) :
    Yields (Poly.getnoiseEta2 shake256 seed nonce) (Small 2) :=
  ⟨_, (getnoise_eq_binomial shake256 seed nonce).2, binomial_small _⟩

end OrionNetwork.Kyber
