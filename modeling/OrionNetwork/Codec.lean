import Mathlib.Data.List.Basic
import Mathlib.Data.Nat.Bitwise
import Mathlib.Tactic

/-!
# Byte strings, packet lengths and base-128 integers

The wire format of `component-utils`. A packet or message length is a 16-bit
big-endian number, so lengths are taken modulo 65536. Integers are written in
groups of seven bits, low group first, with the top bit of a byte set exactly
when another group follows. A decoder returns the bytes it did not consume.
-/
namespace OrionNetwork.Codec

abbrev Bytes := List UInt8

def packetLenWidth : ℕ := 2

/-- `len as u16` in big-endian order. -/
def encodeLen (len : ℕ) : Bytes := [UInt8.ofNat (len / 256), UInt8.ofNat len]

def decodeLen (hi lo : UInt8) : ℕ := hi.toNat * 256 + lo.toNat

@[simp] theorem length_encodeLen (len : ℕ) : (encodeLen len).length = 2 := rfl

@[simp] theorem decodeLen_lt (hi lo : UInt8) : decodeLen hi lo < 65536 := by
  have hh := hi.toNat_lt
  have hl := lo.toNat_lt
  simp only [decodeLen]
  omega

theorem decodeLen_encodeLen (len : ℕ) (h : len < 65536) :
    decodeLen (UInt8.ofNat (len / 256)) (UInt8.ofNat len) = len := by
  simp only [decodeLen, UInt8.toNat_ofNat']
  omega

theorem encodeLen_decodeLen (hi lo : UInt8) : encodeLen (decodeLen hi lo) = [hi, lo] := by
  have hh := hi.toNat_lt
  have hl := lo.toNat_lt
  have h1 : (hi.toNat * 256 + lo.toNat) / 256 = hi.toNat := by omega
  simp only [encodeLen, decodeLen, h1, UInt8.ofNat_toNat, List.cons.injEq, true_and, and_true]
  apply UInt8.toNat_inj.mp
  simp only [UInt8.toNat_ofNat']
  omega

/-- Ten groups hold every 64-bit value, so the budget is never exhausted. -/
def base128Loop : ℕ → ℕ → Bytes
  | 0, _ => []
  | fuel + 1, value =>
    if value / 128 = 0 then [UInt8.ofNat (value % 128)]
    else UInt8.ofNat (value % 128 + 128) :: base128Loop fuel (value / 128)

def base128Encode (value : UInt64) : Bytes := base128Loop 10 value.toNat

/-- Groups are shifted into a 64-bit accumulator; bits past it are lost. -/
def base128DecodeLoop : ℕ → ℕ → ℕ → Bytes → Option (ℕ × Bytes)
  | 0, _, _, _ => none
  | _ + 1, _, _, [] => none
  | fuel + 1, shift, value, byte :: buffer =>
    let value := value ||| ((byte.toNat % 128) <<< shift) % 2 ^ 64
    if byte.toNat < 128 then some (value, buffer)
    else base128DecodeLoop fuel (shift + 7) value buffer

def base128Decode (buffer : Bytes) : Option (UInt64 × Bytes) :=
  (base128DecodeLoop 10 0 0 buffer).map fun r => (UInt64.ofNat r.1, r.2)

lemma or_shift_eq_add (value group shift : ℕ) (h : value < 2 ^ shift) :
    value ||| group <<< shift = value + group * 2 ^ shift := by
  rw [Nat.or_comm, Nat.shiftLeft_eq, Nat.mul_comm, ← Nat.two_pow_add_eq_or_of_lt h, Nat.add_comm]

/-- A byte without its top bit ends the number. -/
lemma base128DecodeLoop_last (fuel shift acc n : ℕ) (rest : Bytes) (hacc : acc < 2 ^ shift)
    (hn : n < 128) (hfit : acc + n * 2 ^ shift < 2 ^ 64) :
    base128DecodeLoop (fuel + 1) shift acc (UInt8.ofNat (n % 128) :: rest) =
      some (acc + n * 2 ^ shift, rest) := by
  have hbyte : (UInt8.ofNat n).toNat = n := by
    rw [UInt8.toNat_ofNat']; omega
  have hshift : (n <<< shift) % 2 ^ 64 = n <<< shift := by
    rw [Nat.shiftLeft_eq]; exact Nat.mod_eq_of_lt (by omega)
  simp only [base128DecodeLoop, hbyte, if_pos hn, Nat.mod_eq_of_lt hn, hshift,
    or_shift_eq_add acc n shift hacc]

/-- After `shift` bits the accumulator holds the low part of the number, and
the rest of the bytes encode what remains of it. -/
theorem base128DecodeLoop_base128Loop (fuel shift acc n : ℕ) (rest : Bytes)
    (hacc : acc < 2 ^ shift) (hn : n < 128 ^ (fuel + 1)) (hfit : acc + n * 2 ^ shift < 2 ^ 64) :
    base128DecodeLoop (fuel + 1) shift acc (base128Loop (fuel + 1) n ++ rest) =
      some (acc + n * 2 ^ shift, rest) := by
  induction fuel generalizing shift acc n with
  | zero =>
    have hsmall : n < 128 := by simpa using hn
    rw [base128Loop, if_pos (by omega)]
    exact base128DecodeLoop_last 0 shift acc n rest hacc hsmall hfit
  | succ fuel ih =>
    by_cases hdiv : n / 128 = 0
    · rw [base128Loop, if_pos hdiv]
      exact base128DecodeLoop_last (fuel + 1) shift acc n rest hacc (by omega) hfit
    · have hsplit : n = n % 128 + n / 128 * 128 := by omega
      have hmul : n * 2 ^ shift = n % 128 * 2 ^ shift + n / 128 * 2 ^ (shift + 7) := by
        rw [pow_add]; nlinarith [hsplit]
      have hbyte : (UInt8.ofNat (n % 128 + 128)).toNat = n % 128 + 128 := by
        rw [UInt8.toNat_ofNat']; omega
      have hgroup : (n % 128 + 128) % 128 = n % 128 := by omega
      have hshift : (n % 128) <<< shift % 2 ^ 64 = (n % 128) <<< shift := by
        rw [Nat.shiftLeft_eq]; exact Nat.mod_eq_of_lt (by omega)
      have hlow : acc + n % 128 * 2 ^ shift < 2 ^ (shift + 7) := by
        have hg : n % 128 + 1 ≤ 128 := by omega
        have hm := Nat.mul_le_mul_right (2 ^ shift) hg
        rw [pow_add]; nlinarith
      have hrec := ih (shift + 7) (acc + n % 128 * 2 ^ shift) (n / 128) hlow
        (by rw [pow_succ] at hn; omega) (by omega)
      rw [base128Loop, if_neg hdiv, List.cons_append, base128DecodeLoop]
      simp only [hbyte, hgroup, hshift, or_shift_eq_add acc (n % 128) shift hacc,
        if_neg (show ¬ n % 128 + 128 < 128 by omega)]
      rw [hrec, hmul, Nat.add_assoc]

/-- Every 64-bit value survives the round trip, whatever follows it. -/
theorem base128Decode_base128Encode (value : UInt64) (rest : Bytes) :
    base128Decode (base128Encode value ++ rest) = some (value, rest) := by
  have hv := value.toNat_lt
  have h := base128DecodeLoop_base128Loop 9 0 0 value.toNat rest (by norm_num)
    (by norm_num; omega) (by simpa using hv)
  simp only [pow_zero, mul_one, zero_add] at h
  simp only [base128Decode, base128Encode, h, Option.map_some, UInt64.ofNat_toNat]

theorem length_base128Loop_le (fuel n : ℕ) : (base128Loop fuel n).length ≤ fuel := by
  induction fuel generalizing n with
  | zero => simp [base128Loop]
  | succ fuel ih =>
    have h := ih (n / 128)
    simp only [base128Loop]
    split_ifs
    · simp
    · simpa using h

theorem length_base128Encode_le (value : UInt64) : (base128Encode value).length ≤ 10 :=
  length_base128Loop_le 10 _

end OrionNetwork.Codec
