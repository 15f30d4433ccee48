import Mathlib.Data.List.Basic
import Mathlib.Data.Nat.Bitwise
import Mathlib.Tactic

/-!
# Streams of bits

Bits are written and read with the highest one first, through an accumulator of 32 bits. What the
accumulator holds is the bits below its length, and what has been shifted out above them does not
matter. Whole bytes are taken out of it when it is written, and put into it when it is read.
-/
namespace OrionNetwork.BitStreams

/-- The lowest bits of a number, the highest of them first. -/
def bits : ℕ → ℕ → List Bool
  | 0, _ => []
  | k + 1, n => n.testBit k :: bits k n

def byteBits (bytes : List UInt8) : List Bool := bytes.flatMap fun b => bits 8 b.toNat

variable {j k m n len : ℕ}

@[simp] theorem length_bits (k n : ℕ) : (bits k n).length = k := by
  induction k with
  | zero => rfl
  | succ k ih => rw [bits, List.length_cons, ih]

theorem bits_eq_iff : bits k m = bits k n ↔ ∀ i < k, m.testBit i = n.testBit i := by
  induction k with
  | zero => simp [bits]
  | succ k ih =>
    rw [bits, bits, List.cons.injEq, ih]
    constructor
    · rintro ⟨hlast, hrest⟩ i hi
      rcases Nat.lt_succ_iff_lt_or_eq.mp hi with hi | rfl
      · exact hrest i hi
      · exact hlast
    · intro h
      exact ⟨h k (Nat.lt_succ_self k), fun i hi => h i (Nat.lt_succ_of_lt hi)⟩

theorem bits_injective (hm : m < 2 ^ k) (hn : n < 2 ^ k) (h : bits k m = bits k n) : m = n := by
  refine Nat.eq_of_testBit_eq fun i => ?_
  by_cases hi : i < k
  · exact bits_eq_iff.mp h i hi
  · have hle : 2 ^ k ≤ 2 ^ i := Nat.pow_le_pow_right (by omega) (by omega)
    rw [Nat.testBit_lt_two_pow (by omega), Nat.testBit_lt_two_pow (by omega)]

theorem bits_mod (h : k ≤ m) (n : ℕ) : bits k (n % 2 ^ m) = bits k n := by
  refine bits_eq_iff.mpr fun i hi => ?_
  rw [Nat.testBit_mod_two_pow, decide_eq_true (by omega), Bool.true_and]

theorem bits_add (j k n : ℕ) : bits (j + k) n = bits j (n >>> k) ++ bits k n := by
  induction j with
  | zero => rw [Nat.zero_add, bits, List.nil_append]
  | succ j ih =>
    rw [Nat.succ_add, bits, bits, ih, Nat.testBit_shiftRight, Nat.add_comm k j, List.cons_append]

/-- Where a number is shifted, smaller ones are put behind it. -/
theorem bits_shiftLeft_or (h : m < 2 ^ k) (j n : ℕ) :
    bits (j + k) (n <<< k ||| m) = bits j n ++ bits k m := by
  rw [bits_add, Nat.shiftRight_or_distrib, Nat.shiftLeft_shiftRight, Nat.shiftRight_eq_zero m k h,
    Nat.or_zero]
  congr 1
  refine bits_eq_iff.mpr fun i hi => ?_
  rw [Nat.testBit_or, Nat.testBit_shiftLeft, decide_eq_false (by omega), Bool.false_and,
    Bool.false_or]

theorem bits_zero (k : ℕ) : bits k 0 = List.replicate k false := by
  induction k with
  | zero => rfl
  | succ k ih => rw [bits, ih, Nat.zero_testBit, List.replicate_succ]

theorem bits_eq_zero_iff : bits k n = List.replicate k false ↔ n % 2 ^ k = 0 := by
  rw [← bits_zero]
  constructor
  · intro h
    rw [← bits_mod (Nat.le_refl k)] at h
    exact bits_injective (Nat.mod_lt _ (Nat.two_pow_pos k)) (Nat.two_pow_pos k) h
  · intro h
    rw [← bits_mod (Nat.le_refl k), h]

section Bytes

variable {l r : List UInt8}

@[simp] theorem byteBits_nil : byteBits [] = [] := rfl

theorem byteBits_cons (b : UInt8) (l : List UInt8) :
    byteBits (b :: l) = bits 8 b.toNat ++ byteBits l := rfl

theorem byteBits_append (l r : List UInt8) : byteBits (l ++ r) = byteBits l ++ byteBits r :=
  List.flatMap_append

@[simp] theorem length_byteBits (l : List UInt8) : (byteBits l).length = 8 * l.length := by
  induction l with
  | nil => rfl
  | cons b l ih =>
    rw [byteBits_cons, List.length_append, length_bits, ih, List.length_cons]
    omega

theorem byteBits_injective (h : byteBits l = byteBits r) : l = r := by
  induction l generalizing r with
  | nil =>
    cases r with
    | nil => rfl
    | cons b r => cases h
  | cons a l ih =>
    cases r with
    | nil => cases h
    | cons b r =>
      obtain ⟨hfirst, hrest⟩ := List.append_inj h rfl
      have hbyte := bits_injective a.toNat_lt b.toNat_lt hfirst
      rw [UInt8.toNat_inj.mp hbyte, ih hrest]

end Bytes

section Accumulators

variable {acc w : UInt32}

theorem toNat_ofNat_lt (h : n < 32) : (UInt32.ofNat n).toNat % 32 = n := by
  have hsmall : n % 2 ^ 32 % 32 = n := by omega
  rw [UInt32.toNat_ofNat']
  exact hsmall

theorem bits_push (hlen : len + k ≤ 32) (hk : k < 32) (hw : w.toNat < 2 ^ k) :
    bits (len + k) (acc <<< UInt32.ofNat k ||| w).toNat = bits len acc.toNat ++ bits k w.toNat := by
  rw [UInt32.toNat_or, UInt32.toNat_shiftLeft, toNat_ofNat_lt hk, ← bits_shiftLeft_or hw]
  refine bits_eq_iff.mpr fun i hi => ?_
  rw [Nat.testBit_or, Nat.testBit_or, Nat.testBit_mod_two_pow, decide_eq_true (by omega),
    Bool.true_and]

theorem bits_pop (hk : k < 32) :
    bits (len + k) acc.toNat = bits len (acc >>> UInt32.ofNat k).toNat ++ bits k acc.toNat := by
  rw [UInt32.toNat_shiftRight, toNat_ofNat_lt hk, bits_add]

theorem toNat_mask (hk : k < 32) : ((1 <<< UInt32.ofNat k) - 1 : UInt32).toNat = 2 ^ k - 1 := by
  have hpow : 2 ^ k < 2 ^ 32 := Nat.pow_lt_pow_right (by norm_num) hk
  have hone : ((1 <<< UInt32.ofNat k : UInt32)).toNat = 2 ^ k := by
    rw [UInt32.toNat_shiftLeft, toNat_ofNat_lt hk, Nat.shiftLeft_eq, UInt32.toNat_one, Nat.one_mul,
      Nat.mod_eq_of_lt hpow]
  have hle : (1 : UInt32) ≤ 1 <<< UInt32.ofNat k := by
    rw [UInt32.le_iff_toNat_le, hone]
    exact Nat.one_le_two_pow
  rw [UInt32.toNat_sub_of_le _ _ hle, hone, UInt32.toNat_one]

theorem toNat_and_mask (hk : k < 32) :
    (acc &&& ((1 <<< UInt32.ofNat k) - 1)).toNat = acc.toNat % 2 ^ k := by
  rw [UInt32.toNat_and, toNat_mask hk, Nat.and_two_pow_sub_one_eq_mod]

theorem and_mask_eq_zero_iff (hk : k < 32) :
    acc &&& ((1 <<< UInt32.ofNat k) - 1) = 0 ↔ bits k acc.toNat = List.replicate k false := by
  rw [bits_eq_zero_iff, ← toNat_and_mask hk, ← UInt32.toNat_inj, UInt32.toNat_zero]

/-- `while acc_len >= 8`: the bytes that are full. -/
def drain (acc : UInt32) : ℕ → List UInt8 × ℕ
  | accLen + 8 =>
    let (bytes, left) := drain acc accLen
    ((acc >>> UInt32.ofNat accLen).toUInt8 :: bytes, left)
  | accLen => ([], accLen)

/-- The rest with zeros behind it. -/
def flush (acc : UInt32) (accLen : ℕ) : List UInt8 :=
  if 0 < accLen then [(acc <<< UInt32.ofNat (8 - accLen)).toUInt8] else []

theorem drain_of_lt (h : len < 8) : drain acc len = ([], len) := by
  interval_cases len <;> rfl

theorem bits_toUInt8 (w : UInt32) : bits 8 w.toUInt8.toNat = bits 8 w.toNat := by
  rw [UInt32.toNat_toUInt8]
  exact bits_mod (Nat.le_refl 8) _

theorem drain_spec (acc : UInt32) (h : len < 40) :
    bits len acc.toNat = byteBits (drain acc len).1 ++ bits (drain acc len).2 acc.toNat ∧
      (drain acc len).2 < 8 := by
  induction len using Nat.strongRecOn with
  | ind len ih =>
    by_cases hsmall : len < 8
    · rw [drain_of_lt hsmall]
      exact ⟨rfl, hsmall⟩
    · obtain ⟨less, rfl⟩ : ∃ less, len = less + 8 := ⟨len - 8, by omega⟩
      obtain ⟨hbits, hleft⟩ := ih less (by omega) (by omega)
      rw [drain]
      refine ⟨?_, hleft⟩
      rw [byteBits_cons, bits_toUInt8, List.append_assoc, ← hbits, Nat.add_comm less 8]
      exact bits_pop (by omega)

theorem byteBits_flush (h : len < 8) :
    byteBits (flush acc len) =
      bits len acc.toNat ++ List.replicate (8 * (flush acc len).length - len) false := by
  unfold flush
  split_ifs with hpos
  · have hzero : (0 : UInt32).toNat < 2 ^ (8 - len) := Nat.two_pow_pos _
    have hpush : bits (len + (8 - len)) (acc <<< UInt32.ofNat (8 - len) ||| 0).toNat =
        bits len acc.toNat ++ bits (8 - len) (0 : UInt32).toNat :=
      bits_push (by omega) (by omega) hzero
    have hsum : len + (8 - len) = 8 := by omega
    rw [UInt32.or_zero, hsum] at hpush
    rw [byteBits_cons, bits_toUInt8, hpush, byteBits_nil, List.append_nil]
    exact congrArg _ (bits_zero _)
  · obtain rfl : len = 0 := by omega
    rfl

theorem length_flush (acc : UInt32) (h : len < 8) : 8 * (flush acc len).length - len < 8 ∧
    len ≤ 8 * (flush acc len).length := by
  unfold flush
  split_ifs with hpos
  · rw [List.length_singleton]
    omega
  · rw [List.length_nil]
    omega

/-- A byte is read behind what is there. -/
theorem bits_pull (b : UInt8) (h : len ≤ 24) :
    bits (len + 8) (acc <<< 8 ||| b.toUInt32).toNat = bits len acc.toNat ++ bits 8 b.toNat := by
  have hb : b.toUInt32.toNat < 2 ^ 8 := by
    rw [UInt8.toNat_toUInt32]
    exact b.toNat_lt
  have hpush : bits (len + 8) (acc <<< UInt32.ofNat 8 ||| b.toUInt32).toNat =
      bits len acc.toNat ++ bits 8 b.toUInt32.toNat := bits_push (by omega) (by omega) hb
  rw [UInt8.toNat_toUInt32] at hpush
  exact hpush

end Accumulators

end OrionNetwork.BitStreams
