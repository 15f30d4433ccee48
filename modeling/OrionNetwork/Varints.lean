import OrionNetwork.CodecTypes

/-!
# Integers in groups of seven bits

One routine for 64-bit values serves all integer types through casts. Bytes that
spell a number end at the first byte without its top bit. A decoded number is the
spelled one modulo what the 64-bit accumulator and the type hold, so bytes and
numbers correspond exactly on the shortest spellings of numbers that fit both. The
iterator over the groups keeps its continuation bit in the value that is left and
therefore ends only on numbers of a single group.
-/
namespace OrionNetwork.Varints

open Codec

section Spelling

/-- The top bit is set on every byte but the last. -/
inductive Framed : Bytes → Prop
  | last {byte : UInt8} (hlow : byte.toNat < 128) : Framed [byte]
  | more {byte : UInt8} {bytes : Bytes} (hhigh : 128 ≤ byte.toNat) (htail : Framed bytes) :
      Framed (byte :: bytes)

/-- The number whose groups are the bytes without their top bits. -/
def spelled : Bytes → ℕ
  | [] => 0
  | byte :: bytes => byte.toNat % 128 + 128 * spelled bytes

/-- No group of zeros at the end, unless it is the only one. -/
def Shortest (bytes : Bytes) : Prop := bytes.length = 1 ∨ bytes.getLast? ≠ some 0

instance (bytes : Bytes) : Decidable (Shortest bytes) :=
  inferInstanceAs (Decidable (_ ∨ _))

theorem Framed.ne_nil {bytes : Bytes} (h : Framed bytes) : bytes ≠ [] := by
  cases h <;> exact List.cons_ne_nil _ _

/-- Bytes after another one are not alone. -/
theorem Framed.getLast_tail {byte : UInt8} {bytes : Bytes} (h : Framed bytes)
    (hshort : Shortest (byte :: bytes)) : bytes.getLast? ≠ some 0 := by
  cases hshort with
  | inl hone =>
    rw [List.length_cons] at hone
    exact absurd (List.length_eq_zero_iff.mp (by omega)) h.ne_nil
  | inr hlast => rwa [List.getLast?_cons_of_ne_nil h.ne_nil] at hlast

/-- The bytes of more than one group in shortest form spell a positive number. -/
theorem Framed.spelled_pos {bytes : Bytes} (h : Framed bytes) (hlast : bytes.getLast? ≠ some 0) :
    0 < spelled bytes := by
  induction h with
  | @last byte hlow =>
    have hne : byte.toNat ≠ 0 := by
      intro hzero
      apply hlast
      rw [List.getLast?_singleton, UInt8.toNat_inj.mp (hzero.trans UInt8.toNat_zero.symm)]
    simp only [spelled]
    omega
  | more hhigh htail ih =>
    rw [List.getLast?_cons_of_ne_nil htail.ne_nil] at hlast
    have htail_pos := ih hlast
    simp only [spelled]
    omega

end Spelling

section Loops

theorem group_or (group rest shift : ℕ) (hgroup : group < 128) :
    (group <<< shift) % 2 ^ 64 ||| (rest <<< (shift + 7)) % 2 ^ 64 =
      ((group + 128 * rest) <<< shift) % 2 ^ 64 := by
  have hjoin : group ||| rest <<< 7 = group + 128 * rest := by
    rw [or_shift_eq_add group rest 7 hgroup, Nat.mul_comm]
    norm_num
  have hshift : rest <<< (shift + 7) = (rest <<< 7) <<< shift := by
    rw [← Nat.shiftLeft_add, Nat.add_comm]
  rw [hshift, ← Nat.or_mod_two_pow, ← Nat.shiftLeft_or_distrib, hjoin]

/-- The loop consumes framed bytes and adds the spelled number, shifted, to the
accumulator; what exceeds 64 bits is lost. -/
theorem base128DecodeLoop_spelled {fuel shift value result : ℕ} {buffer rest : Bytes}
    (h : base128DecodeLoop fuel shift value buffer = some (result, rest)) :
    ∃ bytes, buffer = bytes ++ rest ∧ Framed bytes ∧
      result = value ||| (spelled bytes <<< shift) % 2 ^ 64 := by
  induction fuel generalizing shift value buffer with
  | zero => simp [base128DecodeLoop] at h
  | succ fuel ih =>
    cases buffer with
    | nil => simp [base128DecodeLoop] at h
    | cons byte buffer =>
      rw [base128DecodeLoop] at h
      split_ifs at h with hlow
      · simp only [Option.some.injEq, Prod.mk.injEq] at h
        obtain ⟨rfl, rfl⟩ := h
        refine ⟨[byte], rfl, .last hlow, ?_⟩
        simp [spelled]
      · obtain ⟨bytes, rfl, hframed, rfl⟩ := ih h
        refine ⟨byte :: bytes, rfl, .more (by omega) hframed, ?_⟩
        rw [Nat.or_assoc, group_or _ _ _ (Nat.mod_lt _ (by norm_num))]
        rfl

/-- What is decoded is what the consumed bytes spell, modulo `2 ^ 64`. -/
theorem base128Decode_spelled {buffer rest : Bytes} {value : UInt64}
    (h : base128Decode buffer = some (value, rest)) :
    ∃ bytes, buffer = bytes ++ rest ∧ Framed bytes ∧ value.toNat = spelled bytes % 2 ^ 64 := by
  simp only [base128Decode, Option.map_eq_some_iff, Prod.exists, Prod.mk.injEq] at h
  obtain ⟨result, rest', hloop, rfl, rfl⟩ := h
  obtain ⟨bytes, hbuffer, hframed, hresult⟩ := base128DecodeLoop_spelled hloop
  refine ⟨bytes, hbuffer, hframed, ?_⟩
  rw [hresult, Nat.zero_or, Nat.shiftLeft_zero, UInt64.toNat_ofNat', Nat.mod_mod]

theorem toNat_group (value : ℕ) : (UInt8.ofNat (value % 128)).toNat = value % 128 := by
  rw [UInt8.toNat_ofNat']
  omega

theorem toNat_continued (value : ℕ) :
    (UInt8.ofNat (value % 128 + 128)).toNat = value % 128 + 128 := by
  rw [UInt8.toNat_ofNat']
  omega

/-- The encoder spells its number. -/
theorem spelled_base128Loop {fuel value : ℕ} (hvalue : value < 128 ^ fuel) :
    spelled (base128Loop fuel value) = value := by
  induction fuel generalizing value with
  | zero =>
    rw [pow_zero] at hvalue
    simp only [base128Loop, spelled]
    omega
  | succ fuel ih =>
    rw [base128Loop]
    split_ifs with hdiv
    · simp only [spelled, toNat_group]
      omega
    · have hrest : spelled (base128Loop fuel (value / 128)) = value / 128 :=
        ih (by rw [pow_succ] at hvalue; omega)
      simp only [spelled, hrest, toNat_continued]
      omega

theorem ofNat_ne_zero {byte : ℕ} (hpos : 0 < byte) (hlt : byte < 256) : UInt8.ofNat byte ≠ 0 := by
  intro hzero
  have hnat := congrArg UInt8.toNat hzero
  rw [UInt8.toNat_ofNat', UInt8.toNat_zero] at hnat
  omega

/-- The last group of a positive number is not zero. -/
theorem getLast_base128Loop {fuel value : ℕ} (hpos : 0 < value) :
    (base128Loop fuel value).getLast? ≠ some 0 := by
  induction fuel generalizing value with
  | zero => simp [base128Loop]
  | succ fuel ih =>
    rw [base128Loop]
    split_ifs with hdiv
    · rw [List.getLast?_singleton, ne_eq, Option.some.injEq]
      exact ofNat_ne_zero (by omega) (by omega)
    · have htail : (base128Loop fuel (value / 128)).getLast? ≠ some 0 :=
        ih (Nat.pos_of_ne_zero hdiv)
      rw [List.getLast?_cons, ne_eq, Option.some.injEq]
      cases hlast : (base128Loop fuel (value / 128)).getLast? with
      | none => exact ofNat_ne_zero (by omega) (by omega)
      | some byte =>
        intro hzero
        rw [Option.getD_some] at hzero
        exact htail (by rw [hlast, hzero])

theorem shortest_base128Loop (fuel value : ℕ) : Shortest (base128Loop (fuel + 1) value) := by
  rcases Nat.eq_zero_or_pos value with rfl | hpos
  · exact .inl rfl
  · exact .inr (getLast_base128Loop hpos)

/-- Framed bytes in shortest form are what the encoder writes for their number. -/
theorem base128Loop_spelled {fuel : ℕ} {bytes : Bytes} (h : Framed bytes)
    (hshort : Shortest bytes) (hvalue : spelled bytes < 128 ^ (fuel + 1)) :
    base128Loop (fuel + 1) (spelled bytes) = bytes := by
  induction h generalizing fuel with
  | @last byte hlow =>
    have hbyte : spelled [byte] = byte.toNat := by
      simp only [spelled]
      omega
    rw [hbyte, base128Loop, if_pos (by omega), Nat.mod_eq_of_lt hlow, UInt8.ofNat_toNat]
  | @more byte bytes hhigh htail ih =>
    have hlast := htail.getLast_tail hshort
    have hpos := htail.spelled_pos hlast
    have hsplit : spelled (byte :: bytes) = byte.toNat % 128 + 128 * spelled bytes := rfl
    have hdiv : spelled (byte :: bytes) / 128 = spelled bytes := by omega
    have hmod : spelled (byte :: bytes) % 128 + 128 = byte.toNat := by
      have hbyte := byte.toNat_lt
      omega
    cases fuel with
    | zero => omega
    | succ fuel =>
      have hrest : spelled bytes < 128 ^ (fuel + 1) := by
        rw [pow_succ] at hvalue
        omega
      rw [base128Loop, if_neg (by omega), hdiv, hmod, UInt8.ofNat_toNat, ih (.inr hlast) hrest]

end Loops

section Widths

/-- The types of `impl_int!`; `usize` is of 64 bits. -/
inductive IntType
  | u16
  | u32
  | u64
  | u128
  | usize
  deriving DecidableEq

def IntType.bits : IntType → ℕ
  | .u16 => 16
  | .u32 => 32
  | .u64 => 64
  | .u128 => 128
  | .usize => 64

/-- `impl_int!`: both casts keep the low bits. -/
def implInt (t : IntType) : Codec (BitVec t.bits) :=
  int (fun v => ⟨v.setWidth 64⟩) (fun r => r.toBitVec.setWidth t.bits)

theorem mod_two_pow_min (a m n : ℕ) : a % 2 ^ m % 2 ^ n = a % 2 ^ min m n := by
  rcases le_total m n with h | h
  · have hlt : a % 2 ^ m < 2 ^ n :=
      lt_of_lt_of_le (Nat.mod_lt _ (by positivity)) (Nat.pow_le_pow_right (by norm_num) h)
    rw [min_eq_left h, Nat.mod_eq_of_lt hlt]
  · rw [min_eq_right h, Nat.mod_mod_of_dvd _ (pow_dvd_pow 2 h)]

theorem toBytes_implInt (t : IntType) (x : BitVec t.bits) :
    (implInt t).toBytes x = base128Loop 10 (x.toNat % 2 ^ 64) := by
  unfold implInt
  rw [toBytes_int, base128Encode]
  congr 1
  exact BitVec.toNat_setWidth 64 x

/-- Reading gives the spelled number modulo what 64 bits and the type hold. -/
theorem decode_implInt {t : IntType} {buffer rest : Bytes} {x : BitVec t.bits}
    (h : (implInt t).decode buffer = some (x, rest)) :
    ∃ bytes, buffer = bytes ++ rest ∧ Framed bytes ∧
      x.toNat = spelled bytes % 2 ^ min 64 t.bits := by
  simp only [implInt, int, Option.map_eq_some_iff, Prod.exists, Prod.mk.injEq] at h
  obtain ⟨value, rest', hdecode, rfl, rfl⟩ := h
  obtain ⟨bytes, hbuffer, hframed, hvalue⟩ := base128Decode_spelled hdecode
  refine ⟨bytes, hbuffer, hframed, ?_⟩
  rw [BitVec.toNat_setWidth, UInt64.toNat_toBitVec, hvalue, mod_two_pow_min]

/-- A value is read back exactly when it is one of 64 bits. -/
theorem readsBack_iff (t : IntType) (x : BitVec t.bits) :
    (∀ rest, (implInt t).decode ((implInt t).toBytes x ++ rest) = some (x, rest)) ↔
      x.toNat < 2 ^ 64 := by
  have hread (rest : Bytes) : (implInt t).decode ((implInt t).toBytes x ++ rest) =
      some ((x.setWidth 64).setWidth t.bits, rest) := by
    unfold implInt
    rw [toBytes_int]
    unfold int
    simp only
    rw [base128Decode_base128Encode, Option.map_some]
  constructor
  · intro h
    have hx := h []
    rw [hread, Option.some.injEq, Prod.mk.injEq] at hx
    have hnat := congrArg BitVec.toNat hx.1
    rw [BitVec.toNat_setWidth, BitVec.toNat_setWidth] at hnat
    rw [← hnat]
    exact lt_of_le_of_lt (Nat.mod_le _ _) (Nat.mod_lt _ (by norm_num))
  · intro hlt rest
    have hsame : (x.setWidth 64).setWidth t.bits = x := by
      apply BitVec.eq_of_toNat_eq
      rw [BitVec.toNat_setWidth, BitVec.toNat_setWidth, Nat.mod_eq_of_lt hlt,
        Nat.mod_eq_of_lt x.isLt]
    rw [hread, hsame]

/-- Writing what was read gives the consumed bytes exactly when they are the
shortest spelling of a number that fits. -/
theorem toBytes_eq_iff {t : IntType} {bytes : Bytes} {x : BitVec t.bits} (h : Framed bytes)
    (hx : x.toNat = spelled bytes % 2 ^ min 64 t.bits) :
    (implInt t).toBytes x = bytes ↔ Shortest bytes ∧ spelled bytes < 2 ^ min 64 t.bits := by
  have hfits : x.toNat < 2 ^ min 64 t.bits := by
    rw [hx]
    exact Nat.mod_lt _ (by positivity)
  have hlt : x.toNat < 2 ^ 64 :=
    lt_of_lt_of_le hfits (Nat.pow_le_pow_right (by norm_num) (min_le_left _ _))
  have hten : x.toNat < 128 ^ (9 + 1) := lt_trans hlt (by norm_num)
  rw [toBytes_implInt, Nat.mod_eq_of_lt hlt]
  constructor
  · rintro rfl
    exact ⟨shortest_base128Loop 9 _, by rwa [spelled_base128Loop hten]⟩
  · rintro ⟨hshort, hspelled⟩
    rw [Nat.mod_eq_of_lt hspelled] at hx
    rw [hx] at hten ⊢
    exact base128Loop_spelled h hshort hten

/-- For every integer type a value survives the wire exactly when it fits 64 bits.
Of every byte string that is read, the consumed part is what the number is written
as exactly when it is in shortest form and spells a number that fits; no two such
parts are read as the same number. -/
theorem implInt_faithful (t : IntType) :
    (∀ x, (∀ rest, (implInt t).decode ((implInt t).toBytes x ++ rest) = some (x, rest)) ↔
      x.toNat < 2 ^ 64) ∧
    (∀ buffer x rest, (implInt t).decode buffer = some (x, rest) →
      ∃ bytes, buffer = bytes ++ rest ∧ ((implInt t).toBytes x = bytes ↔
        Shortest bytes ∧ spelled bytes < 2 ^ min 64 t.bits)) ∧
    ∀ bytes bytes' x rest rest', (implInt t).decode (bytes ++ rest) = some (x, rest) →
      (implInt t).decode (bytes' ++ rest') = some (x, rest') →
      (Shortest bytes ∧ spelled bytes < 2 ^ min 64 t.bits) →
      (Shortest bytes' ∧ spelled bytes' < 2 ^ min 64 t.bits) → bytes = bytes' := by
  refine ⟨readsBack_iff t, ?_, ?_⟩
  · intro buffer x rest h
    obtain ⟨bytes, hbuffer, hframed, hx⟩ := decode_implInt h
    exact ⟨bytes, hbuffer, toBytes_eq_iff hframed hx⟩
  · intro bytes bytes' x rest rest' h h' hshort hshort'
    obtain ⟨read, hread, hframed, hx⟩ := decode_implInt h
    obtain ⟨read', hread', hframed', hx'⟩ := decode_implInt h'
    obtain rfl := List.append_cancel_right hread
    obtain rfl := List.append_cancel_right hread'
    rw [← (toBytes_eq_iff hframed hx).mpr hshort, (toBytes_eq_iff hframed' hx').mpr hshort']

/-- A number of two groups, read as one of 32 bits. -/
theorem implInt_faithful_u32 :
    (implInt .u32).toBytes 150 = [0x96, 0x01] ∧
    (implInt .u32).decode [0x96, 0x01, 7] = some (150, [7]) ∧
    ∃ bytes, [0x96, 0x01, 7] = bytes ++ [7] ∧ ((implInt .u32).toBytes 150 = bytes ↔
      Shortest bytes ∧ spelled bytes < 2 ^ 32) := by
  have hread : (implInt .u32).decode [0x96, 0x01, 7] = some (150, [7]) := by decide +kernel
  refine ⟨by decide +kernel, hread, ?_⟩
  obtain ⟨-, hbytes, -⟩ := implInt_faithful .u32
  exact hbytes _ _ _ hread

/-- The first bit past the 64 is lost on the way out; a second group of zeros, and
in the narrower types a number that does not fit, are accepted on the way in. -/
theorem implInt_not_faithful :
    (implInt .u128).decode ((implInt .u128).toBytes (BitVec.ofNat 128 (2 ^ 64))) = some (0, []) ∧
    0 ≠ BitVec.ofNat 128 (2 ^ 64) ∧
    (implInt .u64).decode [0x80, 0x00] = some (0, []) ∧ (implInt .u64).toBytes 0 ≠ [0x80, 0x00] ∧
    (implInt .u16).decode [0x80, 0x80, 0x04] = some (0, []) ∧
    (implInt .u16).decode ((implInt .u16).toBytes 0) = some (0, []) := by
  decide +kernel

end Widths

section Iterator

/-- The value that is left, and whether nothing was yielded yet. -/
structure Base128Bytes where
  value : UInt64
  first : Bool

def Base128Bytes.new (value : UInt64) : Base128Bytes := ⟨value, true⟩

/-- The continuation bit goes to the value that is left, not to the byte. -/
def Base128Bytes.next (it : Base128Bytes) : Option UInt8 × Base128Bytes :=
  if !it.first && it.value = 0 then (none, { it with first := false })
  else
    let byte := (it.value &&& 0x7f).toUInt8
    let value := it.value >>> 7
    let value := if value ≠ 0 then value ||| 0x80 else value
    (some byte, ⟨value, false⟩)

/-- The items up to the first `None`. -/
inductive Yields : Base128Bytes → Bytes → Prop
  | ended {it it' : Base128Bytes} (h : it.next = (none, it')) : Yields it []
  | item {it it' : Base128Bytes} {byte : UInt8} {bytes : Bytes} (h : it.next = (some byte, it'))
      (hrest : Yields it' bytes) : Yields it (byte :: bytes)

theorem toNat_shift_seven (value : UInt64) : (value >>> 7).toNat = value.toNat / 128 := by
  rw [UInt64.toNat_shiftRight]
  simp [Nat.shiftRight_eq_div_pow]

/-- Once there is a second group there is always another item. -/
theorem Base128Bytes.next_of_large {it : Base128Bytes} (h : 128 ≤ it.value.toNat) :
    ∃ byte it', it.next = (some byte, it') ∧ 128 ≤ it'.value.toNat := by
  have hvalue : it.value ≠ 0 := by
    intro hzero
    rw [hzero] at h
    exact absurd h (by decide)
  have hshift : it.value >>> 7 ≠ 0 := by
    intro hzero
    have hnat := congrArg UInt64.toNat hzero
    rw [toNat_shift_seven, UInt64.toNat_zero] at hnat
    omega
  refine ⟨(it.value &&& 0x7f).toUInt8, ⟨it.value >>> 7 ||| 0x80, false⟩, ?_, ?_⟩
  · unfold next
    rw [if_neg (by simp [hvalue])]
    simp only [if_pos hshift]
  · rw [UInt64.toNat_or]
    exact Nat.right_le_or

theorem not_yields_of_large {it : Base128Bytes} {bytes : Bytes} (h : 128 ≤ it.value.toNat) :
    ¬ Yields it bytes := by
  intro hyields
  induction hyields with
  | ended hnext =>
    obtain ⟨byte, it', hnext', -⟩ := Base128Bytes.next_of_large h
    rw [hnext] at hnext'
    cases hnext'
  | item hnext hrest ih =>
    obtain ⟨byte, it', hnext', hlarge⟩ := Base128Bytes.next_of_large h
    rw [hnext] at hnext'
    cases hnext'
    exact ih hlarge

/-- A single group is yielded as the byte it is. -/
theorem yields_of_small {value : UInt64} (h : value.toNat < 128) :
    Yields (.new value) (base128Encode value) := by
  have hshift : value >>> 7 = 0 := by
    apply UInt64.toNat_inj.mp
    rw [toNat_shift_seven, UInt64.toNat_zero]
    omega
  have hbyte : (value &&& 0x7f).toUInt8 = UInt8.ofNat (value.toNat % 128) := by
    apply UInt8.toNat_inj.mp
    rw [UInt64.toNat_toUInt8, UInt64.toNat_and, toNat_group]
    have hmask : (0x7f : UInt64).toNat = 2 ^ 7 - 1 := rfl
    rw [hmask, Nat.and_two_pow_sub_one_eq_mod]
    omega
  have hnext : (Base128Bytes.new value).next =
      (some (UInt8.ofNat (value.toNat % 128)), ⟨0, false⟩) := by
    unfold Base128Bytes.next Base128Bytes.new
    simp [hshift, hbyte]
  have hbytes : base128Encode value = [UInt8.ofNat (value.toNat % 128)] := by
    rw [base128Encode, base128Loop, if_pos (by omega)]
  rw [hbytes]
  exact .item hnext (@Yields.ended _ ⟨0, false⟩ rfl)

/-- The iterator over the groups ends, with the bytes of the loop, exactly on the
values of a single group. -/
theorem base128Bytes_agrees_iff (value : UInt64) :
    (∃ bytes, Yields (.new value) bytes ∧ bytes = base128Encode value ∧
      base128Decode bytes = some (value, [])) ↔ value.toNat < 128 := by
  constructor
  · rintro ⟨bytes, hyields, -, -⟩
    by_contra hlarge
    exact not_yields_of_large (Nat.le_of_not_lt hlarge) hyields
  · intro hsmall
    have hread := base128Decode_base128Encode value []
    rw [List.append_nil] at hread
    exact ⟨_, yields_of_small hsmall, rfl, hread⟩

/-- The first value of two groups is never yielded to its end. -/
theorem base128Bytes_never_ends : ¬ ∃ bytes, Yields (.new 128) bytes := by
  rintro ⟨bytes, hyields⟩
  exact not_yields_of_large (by decide) hyields

end Iterator

end OrionNetwork.Varints
