import OrionNetwork.CheckedIntegers
import OrionNetwork.KyberMatrix

/-!
# The reductions of Kyber

Montgomery and Barrett reduction of signed values modulo `Q`. Both keep the residue, up
to the factor of the Montgomery form, and both bring the value back into a range that
the sums of the transform need. The results say for which arguments no operation on the
way leaves its type.
-/
namespace OrionNetwork.Kyber

open CheckedIntegers

def i16 : IntType := signed 16
def i32 : IntType := signed 32

theorem i16_lo : i16.lo = -32768 := by decide
theorem i16_hi : i16.hi = 32768 := by decide
theorem i32_lo : i32.lo = -2147483648 := by decide
theorem i32_hi : i32.hi = 2147483648 := by decide

namespace Montgomery

def qinv : ℤ := -3327

/-- `mondgomery::reduce`. -/
def reduce (a : ℤ) : Except Trap ℤ := do
  let t := i16.wrap (i16.wrap a * qinv)
  let product ← i32.mul t Q
  let t ← i32.sub a product
  return i16.wrap (t >>> (16 : ℕ))

end Montgomery

namespace Barrett

/-- `(((1 << 26) + Q / 2) / Q) as i16`. -/
def v : ℤ := i16.wrap (((1 <<< 26) + Q / 2) / Q : ℕ)

/-- `barrett::reduce`. -/
def reduce (a : ℤ) : Except Trap ℤ := do
  let product ← i32.mul v a
  let t ← i32.add product (1 <<< 25 : ℕ)
  let t := t >>> (26 : ℕ)
  let multiple ← i32.mul t Q
  i16.sub a (i16.wrap multiple)

end Barrett

def fqmul (a b : ℤ) : Except Trap ℤ := do
  let product ← i32.mul a b
  Montgomery.reduce product

/-- A value with at most this absolute value. -/
def Within (bound x : ℤ) : Prop := -bound ≤ x ∧ x ≤ bound

theorem Within.mono {bound bound' x : ℤ} (h : Within bound x) (hb : bound ≤ bound') :
    Within bound' x := by
  unfold Within at *
  omega

theorem Within.mul {a b x y : ℤ} (hx : Within a x) (hy : Within b y) : Within (a * b) (x * y) := by
  have hprod : |x * y| ≤ a * b := by
    rw [abs_mul]
    exact mul_le_mul (abs_le.mpr hx) (abs_le.mpr hy) (abs_nonneg y)
      ((abs_nonneg x).trans (abs_le.mpr hx))
  exact abs_le.mp hprod

theorem Within.add {a b x y : ℤ} (hx : Within a x) (hy : Within b y) : Within (a + b) (x + y) := by
  unfold Within at *
  omega

theorem Within.sub {a b x y : ℤ} (hx : Within a x) (hy : Within b y) : Within (a + b) (x - y) := by
  unfold Within at *
  omega

/-- Results in range, with the bounds written out. -/
theorem i16_yields {x : ℤ} (h : Within 32767 x) : Yields (i16.check x) (· = x) := by
  obtain ⟨hlo, hhi⟩ := h
  apply yields_check
  · rw [i16_lo]
    omega
  · rw [i16_hi]
    omega

theorem i32_yields {x : ℤ} (h : Within 2147483647 x) : Yields (i32.check x) (· = x) := by
  obtain ⟨hlo, hhi⟩ := h
  apply yields_check
  · rw [i32_lo]
    omega
  · rw [i32_hi]
    omega

theorem i16_wrap (x : ℤ) :
    -32768 ≤ i16.wrap x ∧ i16.wrap x < 32768 ∧ (65536 : ℤ) ∣ i16.wrap x - x :=
  ⟨i16_lo ▸ (IntType.wrap_range (by decide) x).1, i16_hi ▸ (IntType.wrap_range (by decide) x).2,
    IntType.dvd_wrap_sub i16 x⟩

theorem i16_wrap_of_within {x : ℤ} (h : Within 32767 x) : i16.wrap x = x := by
  obtain ⟨hlo, hhi⟩ := h
  apply IntType.wrap_eq_self
  · rw [i16_lo]
    omega
  · rw [i16_hi]
    omega

/-- The reduction divides by `2 ^ 16`. -/
theorem montgomery_yields {a : ℤ} (ha : Within 109084671 a) :
    Yields (Montgomery.reduce a) fun r => Within 3328 r ∧ (3329 : ℤ) ∣ r * 65536 - a := by
  obtain ⟨hlo, hhi⟩ := ha
  obtain ⟨-, -, hlow⟩ := i16_wrap a
  obtain ⟨htlo, hthi, hinv⟩ := i16_wrap (i16.wrap a * Montgomery.qinv)
  unfold Montgomery.reduce
  generalize i16.wrap (i16.wrap a * Montgomery.qinv) = t at *
  -- `Q * QINV` is 1 modulo `2 ^ 16`, so that the multiple of `Q` agrees with `a` there
  have hmultiple : (65536 : ℤ) ∣ a - t * 3329 := by
    unfold Montgomery.qinv at hinv
    omega
  refine (i32_yields ⟨?_, ?_⟩).bind fun product hproduct => ?_
  · unfold Q
    omega
  · unfold Q
    omega
  subst hproduct
  refine (i32_yields ⟨?_, ?_⟩).bind fun difference hdifference => ?_
  · unfold Q
    omega
  · unfold Q
    omega
  subst hdifference
  have hQ : ((Q : ℕ) : ℤ) = 3329 := rfl
  rw [hQ, Int.shiftRight_eq_div_pow, i16_wrap_of_within ⟨by omega, by omega⟩]
  exact yields_pure ⟨⟨by omega, by omega⟩, by omega⟩

/-- Beyond this bound the last subtraction overflows. -/
theorem barrett_yields {a : ℤ} (ha : Within 31625 a) :
    Yields (Barrett.reduce a) fun r => Within 1664 r ∧ (3329 : ℤ) ∣ r - a := by
  obtain ⟨hlo, hhi⟩ := ha
  have hv : Barrett.v = 20159 := by decide
  have hQ : ((Q : ℕ) : ℤ) = 3329 := rfl
  unfold Barrett.reduce
  rw [hv, hQ]
  refine (i32_yields ⟨by omega, by omega⟩).bind fun product hproduct => ?_
  subst hproduct
  refine (i32_yields ⟨by omega, by omega⟩).bind fun t ht => ?_
  subst ht
  rw [Int.shiftRight_eq_div_pow]
  -- the quotient is the nearest one, up to the error of `v` as an approximation
  generalize ht : (20159 * a + ((1 <<< 25 : ℕ) : ℤ)) / ((2 ^ 26 : ℕ) : ℤ) = t
  obtain ⟨hclo, hchi⟩ : Within 1664 (a - t * 3329) := ⟨by omega, by omega⟩
  refine (i32_yields ⟨by omega, by omega⟩).bind fun multiple hmultiple => ?_
  subst hmultiple
  rw [i16_wrap_of_within ⟨by omega, by omega⟩]
  refine (i16_yields ⟨by omega, by omega⟩).mono fun r hr => ?_
  subst hr
  exact ⟨⟨hclo, hchi⟩, by omega⟩

theorem fqmul_yields {bound a b : ℤ} (hbound : bound ≤ 109084671) (hab : Within bound (a * b)) :
    Yields (fqmul a b) fun r => Within 3328 r ∧ (3329 : ℤ) ∣ r * 65536 - a * b := by
  refine (i32_yields (hab.mono (by omega))).bind fun product hproduct => ?_
  subst hproduct
  exact montgomery_yields (hab.mono hbound)

end OrionNetwork.Kyber
