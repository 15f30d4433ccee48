import OrionNetwork.CountingLoops
import Mathlib.Algebra.CharP.Two
import Mathlib.Dynamics.PeriodicPts.Defs
import Mathlib.FieldTheory.Finite.Basic

/-!
# The field of the erasure code

The tables of logarithms and powers are filled by the build script, which walks
through the powers of two modulo the generating polynomial. Products are sums of
logarithms. That bytes form a field comes down to two facts about the walk: it
meets every byte but zero before it returns to one, and doubling distributes
over exclusive or. Tables are functions of the index.
-/
namespace OrionNetwork.Galois
open Loops

def fieldSize : ℕ := 256

def generatingPolynomial : ℕ := 29

/-- The next power of two, as the build script steps through them. -/
def doubled (polynomial b : ℕ) : ℕ :=
  if fieldSize ≤ b <<< 1 then (b <<< 1 - fieldSize) ^^^ polynomial else b <<< 1

def genLogTable (polynomial : ℕ) : ℕ → ℕ :=
  (forTo (fun log s => (Function.update s.1 s.2 log, doubled polynomial s.2))
    (fieldSize - 1) ((fun _ => 0 : ℕ → ℕ), 1)).1

/-- Each power is stored twice, so that a sum of two logarithms is an index. -/
def genExpTable (logTable : ℕ → ℕ) : ℕ → ℕ :=
  forTo (fun i result =>
      Function.update (Function.update result (logTable (i + 1)) (i + 1))
        (logTable (i + 1) + fieldSize - 1) (i + 1))
    (fieldSize - 1) fun _ => 0

def genInvTable (logTable expTable : ℕ → ℕ) : ℕ → ℕ :=
  forTo (fun i result => Function.update result (i + 1)
      (expTable (fieldSize - logTable (i + 1) - 1)))
    (fieldSize - 1) fun _ => 0

def multiply (logTable expTable : ℕ → ℕ) (a b : ℕ) : ℕ :=
  if a = 0 ∨ b = 0 then 0 else expTable (logTable a + logTable b)

def logTable : ℕ → ℕ := genLogTable generatingPolynomial

def expTable : ℕ → ℕ := genExpTable logTable

def invTable : ℕ → ℕ := genInvTable logTable expTable

/-- The powers of two. -/
def orbit (n : ℕ) : ℕ := (doubled generatingPolynomial)^[n] 1

theorem orbit_succ (n : ℕ) : orbit (n + 1) = doubled generatingPolynomial (orbit n) :=
  Function.iterate_succ_apply' _ n 1

/-- Reduction clears the top bit and adds the polynomial. -/
theorem doubled_eq {b : ℕ} (hb : b < 256) :
    doubled generatingPolynomial b = (b <<< 1) ^^^ (if b.testBit 7 then 285 else 0) := by
  revert b
  decide +kernel

theorem doubled_lt {b : ℕ} (hb : b < 256) : doubled generatingPolynomial b < 256 := by
  revert b
  decide +kernel

theorem doubled_xor {b c : ℕ} (hb : b < 256) (hc : c < 256) :
    doubled generatingPolynomial (b ^^^ c) =
      doubled generatingPolynomial b ^^^ doubled generatingPolynomial c := by
  have hbc : b ^^^ c < 2 ^ 8 := Nat.xor_lt_two_pow hb hc
  rw [doubled_eq hb, doubled_eq hc, doubled_eq hbc, Nat.shiftLeft_xor_distrib, Nat.testBit_xor]
  have hmask : ∀ p q : Bool, (if p ^^ q then 285 else 0) =
      (if p then 285 else 0) ^^^ (if q then 285 else 0) := by decide
  rw [hmask]
  ac_rfl

theorem doubled_ne_zero {b : ℕ} (hb : b < 256) (h : b ≠ 0) :
    doubled generatingPolynomial b ≠ 0 := by
  revert b
  decide +kernel

theorem orbit_lt (n : ℕ) : orbit n < 256 := by
  induction n with
  | zero => decide
  | succ n ih =>
    rw [orbit_succ]
    exact doubled_lt ih

theorem orbit_ne_zero (n : ℕ) : orbit n ≠ 0 := by
  induction n with
  | zero => decide
  | succ n ih =>
    rw [orbit_succ]
    exact doubled_ne_zero (orbit_lt n) ih

theorem orbit_255 : orbit 255 = 1 := by decide +kernel

theorem orbit_add (m n : ℕ) : orbit (m + n) = (doubled generatingPolynomial)^[m] (orbit n) :=
  Function.iterate_add_apply _ m n 1

/-- The walk does not return before its end. Its length divides 255, and neither
15 nor 51 nor 85 steps are enough. -/
theorem period_eq : Function.minimalPeriod (doubled generatingPolynomial) 1 = 255 := by
  have hdvd : Function.minimalPeriod (doubled generatingPolynomial) 1 ∣ 255 :=
    Function.IsPeriodicPt.minimalPeriod_dvd orbit_255
  have hreturn : ∀ m, Function.minimalPeriod (doubled generatingPolynomial) 1 ∣ m →
      orbit m = 1 := by
    intro m hm
    exact (Function.isPeriodicPt_minimalPeriod _ _).trans_dvd hm
  have hshort : ∀ d ∈ Nat.divisors 255, d = 255 ∨ d ∣ 15 ∨ d ∣ 51 ∨ d ∣ 85 := by decide
  rcases hshort _ (Nat.mem_divisors.mpr ⟨hdvd, by decide⟩) with h | h | h | h
  · exact h
  · exact absurd (hreturn 15 h) (by decide +kernel)
  · exact absurd (hreturn 51 h) (by decide +kernel)
  · exact absurd (hreturn 85 h) (by decide +kernel)

theorem orbit_inj {m n : ℕ} (hm : m < 255) (hn : n < 255) (h : orbit m = orbit n) : m = n := by
  apply Function.iterate_injOn_Iio_minimalPeriod (f := doubled generatingPolynomial) (x := 1)
  · rw [period_eq]
    exact hm
  · rw [period_eq]
    exact hn
  · exact h

theorem orbit_mod (n : ℕ) : orbit (n % 255) = orbit n :=
  Function.IsPeriodicPt.iterate_mod_apply orbit_255 n

/-- Every byte but zero is met, since there are as many of them as steps. -/
theorem exists_orbit {b : ℕ} (hb : b < 256) (h : b ≠ 0) : ∃ n < 255, orbit n = b := by
  have hsub : (Finset.range 255).image orbit ⊆ Finset.Ico 1 256 := by
    intro x hx
    obtain ⟨n, -, rfl⟩ := Finset.mem_image.mp hx
    rw [Finset.mem_Ico]
    exact ⟨Nat.one_le_iff_ne_zero.mpr (orbit_ne_zero n), orbit_lt n⟩
  have hcard : ((Finset.range 255).image orbit).card = 255 := by
    rw [Finset.card_image_of_injOn, Finset.card_range]
    intro m hm n hn hmn
    exact orbit_inj (Finset.mem_range.mp hm) (Finset.mem_range.mp hn) hmn
  have hall := Finset.eq_of_subset_of_card_le hsub (by rw [hcard, Nat.card_Ico])
  have hmem : b ∈ (Finset.range 255).image orbit := by
    rw [hall, Finset.mem_Ico]
    omega
  obtain ⟨n, hn, hbn⟩ := Finset.mem_image.mp hmem
  exact ⟨n, Finset.mem_range.mp hn, hbn⟩

theorem logTable_orbit {n : ℕ} (hn : n < 255) : logTable (orbit n) = n := by
  have hwalk := forTo_invariant
    (f := fun log s => (Function.update s.1 s.2 log, doubled generatingPolynomial s.2))
    (n := 255) (s := ((fun _ => 0 : ℕ → ℕ), 1))
    (fun i s => s.2 = orbit i ∧ ∀ m < i, s.1 (orbit m) = m)
    ⟨rfl, fun m hm => absurd hm (Nat.not_lt_zero m)⟩
    (by
      rintro i hi s ⟨hs, hlogs⟩
      refine ⟨by rw [orbit_succ, hs], ?_⟩
      intro m hm
      simp only [hs]
      by_cases hmi : m = i
      · rw [hmi, Function.update_self]
      · have hne : orbit m ≠ orbit i := fun h => hmi (orbit_inj (by omega) hi h)
        rw [Function.update_of_ne hne]
        exact hlogs m (by omega))
  exact hwalk.2 n hn

theorem logTable_lt {b : ℕ} (hb : b < 256) (h : b ≠ 0) : logTable b < 255 := by
  obtain ⟨n, hn, rfl⟩ := exists_orbit hb h
  rw [logTable_orbit hn]
  exact hn

theorem orbit_logTable {b : ℕ} (hb : b < 256) (h : b ≠ 0) : orbit (logTable b) = b := by
  obtain ⟨n, hn, rfl⟩ := exists_orbit hb h
  rw [logTable_orbit hn]

theorem expTable_logTable {b : ℕ} (hb : b < 256) (h : b ≠ 0) :
    expTable (logTable b) = b ∧ expTable (logTable b + 255) = b := by
  have hfill := forTo_invariant (n := 255) (s := fun _ => 0)
    (f := fun i result =>
      Function.update (Function.update result (logTable (i + 1)) (i + 1))
        (logTable (i + 1) + fieldSize - 1) (i + 1))
    (fun i result => ∀ j < i, result (logTable (j + 1)) = j + 1 ∧
      result (logTable (j + 1) + 255) = j + 1)
    (fun j hj => absurd hj (Nat.not_lt_zero j))
    (by
      intro i hi result hresult j hj
      have hlow := logTable_lt (b := i + 1) (by omega) (by omega)
      have hlow' := logTable_lt (b := j + 1) (by omega) (by omega)
      have hlast : logTable (i + 1) + fieldSize - 1 = logTable (i + 1) + 255 := rfl
      rw [hlast, Function.update_of_ne (by omega)]
      by_cases hji : j = i
      · subst hji
        exact ⟨Function.update_self _ _ _, Function.update_self _ _ _⟩
      · have hne : logTable (j + 1) ≠ logTable (i + 1) := by
          intro h
          apply hji
          have horbit := congrArg orbit h
          rw [orbit_logTable (by omega) (by omega), orbit_logTable (by omega) (by omega)] at horbit
          omega
        obtain ⟨hfirst, hsecond⟩ := hresult j (by omega)
        rw [Function.update_of_ne hne, Function.update_of_ne (by omega),
          Function.update_of_ne (by omega)]
        exact ⟨hfirst, hsecond⟩)
  have hb' := hfill (b - 1) (by omega)
  rwa [Nat.sub_add_cancel (Nat.one_le_iff_ne_zero.mpr h)] at hb'

/-- The two halves of the table agree. -/
theorem expTable_eq {n : ℕ} (hn : n < 510) : expTable n = orbit n := by
  by_cases hlow : n < 255
  · have h := (expTable_logTable (orbit_lt n) (orbit_ne_zero n)).1
    rwa [logTable_orbit hlow] at h
  · have h := (expTable_logTable (orbit_lt (n - 255)) (orbit_ne_zero (n - 255))).2
    rw [logTable_orbit (by omega), Nat.sub_add_cancel (by omega)] at h
    rw [h, ← orbit_mod n, Nat.mod_eq_sub_mod (by omega), Nat.mod_eq_of_lt (by omega)]

theorem invTable_eq {b : ℕ} (hb : b < 256) (h : b ≠ 0) :
    invTable b = orbit (255 - logTable b) := by
  have hfill := forTo_invariant (n := 255) (s := fun _ => 0)
    (f := fun i result => Function.update result (i + 1)
      (expTable (fieldSize - logTable (i + 1) - 1)))
    (fun i result => ∀ j < i, result (j + 1) = expTable (fieldSize - logTable (j + 1) - 1))
    (fun j hj => absurd hj (Nat.not_lt_zero j))
    (by
      intro i hi result hresult j hj
      by_cases hji : j = i
      · rw [hji, Function.update_self]
      · rw [Function.update_of_ne (by omega)]
        exact hresult j (by omega))
  have hb' := hfill (b - 1) (by omega)
  rw [Nat.sub_add_cancel (Nat.one_le_iff_ne_zero.mpr h)] at hb'
  have hindex : fieldSize - logTable b - 1 = 255 - logTable b := by
    unfold fieldSize
    omega
  rw [hindex, expTable_eq (by omega)] at hb'
  exact hb'

theorem multiply_orbit (m n : ℕ) :
    multiply logTable expTable (orbit m) (orbit n) = orbit (m + n) := by
  rw [← orbit_mod m, ← orbit_mod n]
  have hm := Nat.mod_lt m (show 255 > 0 by decide)
  have hn := Nat.mod_lt n (show 255 > 0 by decide)
  unfold multiply
  rw [if_neg (by simp [orbit_ne_zero]), logTable_orbit hm, logTable_orbit hn,
    expTable_eq (by omega), ← orbit_mod (m + n), Nat.add_mod, orbit_mod]

/-- A byte as an element of the field. -/
def Gf : Type := UInt8

namespace Gf

instance : DecidableEq Gf := inferInstanceAs (DecidableEq UInt8)

instance : Repr Gf := inferInstanceAs (Repr UInt8)

def toNat (a : Gf) : ℕ := UInt8.toNat a

def ofNat (n : ℕ) : Gf := UInt8.ofNat n

instance : Zero Gf := ⟨ofNat 0⟩

instance : One Gf := ⟨ofNat 1⟩

/-- `galois::add`. -/
instance : Add Gf := ⟨fun a b => (UInt8.xor a b : UInt8)⟩

instance : Neg Gf := ⟨fun a => a⟩

/-- `galois::mul`, a lookup in the table of products. -/
instance : Mul Gf := ⟨fun a b => ofNat (multiply logTable expTable a.toNat b.toNat)⟩

/-- `INV_TABLE`. -/
instance : Inv Gf := ⟨fun a => ofNat (invTable a.toNat)⟩

theorem ext {a b : Gf} (h : a.toNat = b.toNat) : a = b := UInt8.toNat_inj.mp h

theorem toNat_lt (a : Gf) : a.toNat < 256 := UInt8.toNat_lt a

theorem toNat_ofNat {n : ℕ} (h : n < 256) : (ofNat n).toNat = n := UInt8.toNat_ofNat_of_lt h

theorem toNat_zero : (0 : Gf).toNat = 0 := rfl

theorem toNat_eq_zero {a : Gf} : a.toNat = 0 ↔ a = 0 :=
  ⟨fun h => ext h, fun h => h ▸ rfl⟩

theorem toNat_add (a b : Gf) : (a + b).toNat = a.toNat ^^^ b.toNat := UInt8.toNat_xor a b

/-- The powers of two as elements. -/
def power (n : ℕ) : Gf := ofNat (orbit n)

theorem toNat_power (n : ℕ) : (power n).toNat = orbit n := toNat_ofNat (orbit_lt n)

theorem power_zero : power 0 = 1 := rfl

theorem power_ne_zero (n : ℕ) : power n ≠ 0 := by
  rw [Ne, ← toNat_eq_zero, toNat_power]
  exact orbit_ne_zero n

theorem exists_power {a : Gf} (h : a ≠ 0) : ∃ n, a = power n := by
  obtain ⟨n, -, hn⟩ := exists_orbit a.toNat_lt (mt toNat_eq_zero.mp h)
  refine ⟨n, ext ?_⟩
  rw [toNat_power, hn]

theorem power_mul_power (m n : ℕ) : power m * power n = power (m + n) := by
  change ofNat (multiply logTable expTable (power m).toNat (power n).toNat) = _
  rw [toNat_power, toNat_power, multiply_orbit]
  rfl

protected theorem zero_mul (a : Gf) : 0 * a = 0 := by
  change ofNat (multiply logTable expTable (0 : Gf).toNat a.toNat) = 0
  rw [multiply, if_pos (.inl toNat_zero)]
  rfl

protected theorem mul_zero (a : Gf) : a * 0 = 0 := by
  change ofNat (multiply logTable expTable a.toNat (0 : Gf).toNat) = 0
  rw [multiply, if_pos (.inr toNat_zero)]
  rfl

protected theorem mul_comm (a b : Gf) : a * b = b * a := by
  by_cases ha : a = 0
  · rw [ha, Gf.zero_mul, Gf.mul_zero]
  by_cases hb : b = 0
  · rw [hb, Gf.zero_mul, Gf.mul_zero]
  obtain ⟨m, rfl⟩ := exists_power ha
  obtain ⟨n, rfl⟩ := exists_power hb
  rw [power_mul_power, power_mul_power, Nat.add_comm]

protected theorem mul_assoc (a b c : Gf) : a * b * c = a * (b * c) := by
  by_cases ha : a = 0
  · rw [ha, Gf.zero_mul, Gf.zero_mul, Gf.zero_mul]
  by_cases hb : b = 0
  · rw [hb, Gf.mul_zero, Gf.zero_mul, Gf.mul_zero]
  by_cases hc : c = 0
  · rw [hc, Gf.mul_zero, Gf.mul_zero, Gf.mul_zero]
  obtain ⟨l, rfl⟩ := exists_power ha
  obtain ⟨m, rfl⟩ := exists_power hb
  obtain ⟨n, rfl⟩ := exists_power hc
  rw [power_mul_power, power_mul_power, power_mul_power, power_mul_power, Nat.add_assoc]

protected theorem one_mul (a : Gf) : 1 * a = a := by
  by_cases ha : a = 0
  · rw [ha, Gf.mul_zero]
  obtain ⟨n, rfl⟩ := exists_power ha
  rw [← power_zero, power_mul_power, Nat.zero_add]

theorem iterate_doubled_zero (n : ℕ) : (doubled generatingPolynomial)^[n] 0 = 0 := by
  induction n with
  | zero => rfl
  | succ n ih => rw [Function.iterate_succ_apply', ih]; rfl

theorem iterate_doubled_lt {b : ℕ} (hb : b < 256) (n : ℕ) :
    (doubled generatingPolynomial)^[n] b < 256 := by
  induction n with
  | zero => exact hb
  | succ n ih =>
    rw [Function.iterate_succ_apply']
    exact doubled_lt ih

theorem iterate_doubled_xor {b c : ℕ} (hb : b < 256) (hc : c < 256) (n : ℕ) :
    (doubled generatingPolynomial)^[n] (b ^^^ c) =
      (doubled generatingPolynomial)^[n] b ^^^ (doubled generatingPolynomial)^[n] c := by
  induction n with
  | zero => rfl
  | succ n ih =>
    rw [Function.iterate_succ_apply', Function.iterate_succ_apply', Function.iterate_succ_apply',
      ih, doubled_xor (iterate_doubled_lt hb n) (iterate_doubled_lt hc n)]

/-- A product with a power of two is repeated doubling. -/
theorem toNat_power_mul (n : ℕ) (a : Gf) :
    (power n * a).toNat = (doubled generatingPolynomial)^[n] a.toNat := by
  by_cases ha : a = 0
  · rw [ha, Gf.mul_zero, toNat_zero, iterate_doubled_zero]
  obtain ⟨m, rfl⟩ := exists_power ha
  rw [power_mul_power, toNat_power, toNat_power, orbit_add]

protected theorem mul_add (a b c : Gf) : a * (b + c) = a * b + a * c := by
  by_cases ha : a = 0
  · rw [ha, Gf.zero_mul, Gf.zero_mul, Gf.zero_mul]
    rfl
  obtain ⟨n, rfl⟩ := exists_power ha
  apply ext
  rw [toNat_power_mul, toNat_add, toNat_add, toNat_power_mul, toNat_power_mul,
    iterate_doubled_xor b.toNat_lt c.toNat_lt]

protected theorem mul_inv_cancel (a : Gf) (h : a ≠ 0) : a * a⁻¹ = 1 := by
  have hne : a.toNat ≠ 0 := mt toNat_eq_zero.mp h
  have hinv : a⁻¹ = power (255 - logTable a.toNat) := by
    change ofNat (invTable a.toNat) = _
    rw [invTable_eq a.toNat_lt hne]
    rfl
  have ha : a = power (logTable a.toNat) := by
    apply ext
    rw [toNat_power, orbit_logTable a.toNat_lt hne]
  have hlt := logTable_lt a.toNat_lt hne
  rw [hinv]
  nth_rewrite 1 [ha]
  rw [power_mul_power, Nat.add_sub_cancel' (by omega)]
  apply ext
  rw [toNat_power, orbit_255]
  rfl

protected theorem inv_zero : (0 : Gf)⁻¹ = 0 := by
  have hkept : invTable 0 = 0 := by
    refine forTo_invariant (σ := ℕ → ℕ) (fun _ result => result 0 = 0) rfl ?_
    intro i _ result hresult
    rw [Function.update_of_ne (Nat.succ_ne_zero i).symm, hresult]
  change ofNat (invTable 0) = 0
  rw [hkept]
  rfl

instance : Field Gf where
  add_assoc a b c := by
    apply ext
    simp only [toNat_add, Nat.xor_assoc]
  zero_add a := by
    apply ext
    rw [toNat_add, toNat_zero, Nat.zero_xor]
  add_zero a := by
    apply ext
    rw [toNat_add, toNat_zero, Nat.xor_zero]
  add_comm a b := by
    apply ext
    rw [toNat_add, toNat_add, Nat.xor_comm]
  neg_add_cancel a := by
    apply ext
    change (a + a).toNat = 0
    rw [toNat_add, Nat.xor_self]
  nsmul := nsmulRec
  zsmul := zsmulRec
  left_distrib := Gf.mul_add
  right_distrib a b c := by
    rw [Gf.mul_comm, Gf.mul_add, Gf.mul_comm c a, Gf.mul_comm c b]
  zero_mul := Gf.zero_mul
  mul_zero := Gf.mul_zero
  mul_assoc := Gf.mul_assoc
  one_mul := Gf.one_mul
  mul_one a := by rw [Gf.mul_comm, Gf.one_mul]
  mul_comm := Gf.mul_comm
  exists_pair_ne := ⟨0, 1, by decide⟩
  mul_inv_cancel := Gf.mul_inv_cancel
  inv_zero := Gf.inv_zero
  nnqsmul := _
  nnqsmul_def := fun _ _ => rfl
  qsmul := _
  qsmul_def := fun _ _ => rfl

instance : CharP Gf 2 :=
  CharTwo.of_one_ne_zero_of_two_eq_zero one_ne_zero (by
    rw [← one_add_one_eq_two]
    rfl)

/-- `EXP_TABLE`. -/
def expAt (n : ℕ) : Gf := ofNat (expTable n)

/-- `LOG_TABLE`. -/
def log (a : Gf) : ℕ := logTable a.toNat

/-- `galois::div`. -/
def div (a b : Gf) : Option Gf :=
  if b = 0 then none
  else if a = 0 then some 0
  else if a = 1 then some b⁻¹
  else some (expAt (if a.log < b.log then a.log + 255 - b.log else a.log - b.log))

/-- `galois::exp`. Taking 255 away as often as possible is a remainder. -/
def exp (a : Gf) (n : ℕ) : Gf :=
  if n = 0 then 1 else if a = 0 then 0 else expAt (a.log * n % 255)

theorem expAt_eq {n : ℕ} (hn : n < 510) : expAt n = power n := by
  unfold expAt power
  rw [expTable_eq hn]

theorem power_eq_pow (n : ℕ) : power n = power 1 ^ n := by
  induction n with
  | zero => rw [power_zero, pow_zero]
  | succ n ih => rw [pow_succ, ← ih, power_mul_power]

theorem power_mod (n : ℕ) : power (n % 255) = power n := by
  unfold power
  rw [orbit_mod]

theorem power_pow (m n : ℕ) : power m ^ n = power (m * n) := by
  rw [power_eq_pow m, ← pow_mul, ← power_eq_pow]

theorem power_log {a : Gf} (ha : a ≠ 0) : power a.log = a := by
  apply ext
  rw [toNat_power]
  exact orbit_logTable a.toNat_lt (mt toNat_eq_zero.mp ha)

theorem log_lt {a : Gf} (ha : a ≠ 0) : a.log < 255 :=
  logTable_lt a.toNat_lt (mt toNat_eq_zero.mp ha)

/-- The difference of the logarithms, or a whole round more. -/
theorem expAt_quotient {a b : Gf} (ha : a ≠ 0) (hb : b ≠ 0) {n : ℕ} (hn : n < 510)
    (hsum : (n + b.log) % 255 = a.log) : expAt n = a / b := by
  have hproduct : power n * b = a := by
    calc power n * b = power n * power b.log := by rw [power_log hb]
      _ = power ((n + b.log) % 255) := by rw [power_mul_power, power_mod]
      _ = a := by rw [hsum, power_log ha]
  rw [expAt_eq hn, eq_div_iff hb, hproduct]

theorem div_eq (a : Gf) {b : Gf} (hb : b ≠ 0) : div a b = some (a / b) := by
  unfold div
  rw [if_neg hb]
  split_ifs with h0 h1 hlt
  · rw [h0, zero_div]
  · rw [h1, one_div]
  all_goals
    have ha := log_lt h0
    have hb' := log_lt hb
    rw [expAt_quotient h0 hb (by omega) (by omega)]

theorem exp_eq_pow (a : Gf) (n : ℕ) : exp a n = a ^ n := by
  unfold exp
  by_cases hn : n = 0
  · rw [if_pos hn, hn, pow_zero]
  rw [if_neg hn]
  by_cases ha : a = 0
  · rw [if_pos ha, ha, zero_pow hn]
  have hlt : a.log * n % 255 < 510 := lt_trans (Nat.mod_lt _ (by decide)) (by decide)
  rw [if_neg ha, expAt_eq hlt, power_mod, ← power_pow, power_log ha]

/-- One full round of powers is free of repetition. -/
theorem power_inj {m n : ℕ} (hm : 0 < m ∧ m ≤ 255) (hn : 0 < n ∧ n ≤ 255)
    (h : power m = power n) : m = n := by
  have horbit : orbit (m % 255) = orbit (n % 255) := by
    rw [orbit_mod, orbit_mod, ← toNat_power, ← toNat_power, h]
  have hmod := orbit_inj (Nat.mod_lt _ (by decide)) (Nat.mod_lt _ (by decide)) horbit
  omega

end Gf

end OrionNetwork.Galois
