import OrionNetwork.ClientMail
import OrionNetwork.UserNames
import Mathlib.Data.List.DropRight

/-!
# Names of a fixed size

A name is written into an array and the rest of the array is padding, so the length is found
again by what is at the end. The padding of names on the chain is zero, which a name may end
with, and that of names in mail is `0xff`, which no string contains.
-/
namespace OrionNetwork.FixedNames
open Codec Onion BlockHash
open ClientMail (UserName)
open UserNames (RawUserName)

section Padding

variable {pad : UInt8} {bytes : Bytes} {size : ℕ}

def padded (pad : UInt8) (size : ℕ) (bytes : Bytes) : Bytes :=
  bytes ++ List.replicate (size - bytes.length) pad

/-- `rposition` of what is not padding, plus one. -/
def unpaddedLength (pad : UInt8) (arr : Bytes) : ℕ :=
  (arr.reverse.findIdx? (· ≠ pad)).elim 0 fun i => arr.length - i

def unpadded (pad : UInt8) (arr : Bytes) : Bytes := arr.take (unpaddedLength pad arr)

theorem length_padded (h : bytes.length ≤ size) : (padded pad size bytes).length = size := by
  unfold padded
  rw [List.length_append, List.length_replicate, Nat.add_sub_cancel' h]

theorem unpaddedLength_concat (arr : Bytes) (b : UInt8) :
    unpaddedLength pad (arr ++ [b]) =
      if b = pad then unpaddedLength pad arr else arr.length + 1 := by
  unfold unpaddedLength
  rw [List.reverse_append, List.reverse_singleton, List.singleton_append, List.findIdx?_cons,
    List.length_append, List.length_singleton]
  by_cases hb : b = pad
  · rw [if_pos hb, hb, if_neg (by simp)]
    cases arr.reverse.findIdx? (· ≠ pad) with
    | none => rfl
    | some i => exact Nat.add_sub_add_right arr.length 1 i
  · rw [if_neg hb, if_pos (by simpa using hb)]
    rfl

theorem unpaddedLength_le (arr : Bytes) : unpaddedLength pad arr ≤ arr.length := by
  unfold unpaddedLength
  cases arr.reverse.findIdx? (· ≠ pad) with
  | none => exact Nat.zero_le _
  | some i => exact Nat.sub_le _ _

theorem unpadded_eq (arr : Bytes) : unpadded pad arr = arr.rdropWhile (· = pad) := by
  unfold unpadded
  induction arr using List.reverseRecOn with
  | nil => rfl
  | append_singleton arr b ih =>
    rw [unpaddedLength_concat, List.rdropWhile_concat]
    by_cases hb : b = pad
    · rw [if_pos hb, if_pos (by simpa using hb), List.take_append_of_le_length
        (unpaddedLength_le arr), ih]
    · rw [if_neg hb, if_neg (by simpa using hb), List.take_of_length_le (by simp)]

theorem rdropWhile_padded (pad : UInt8) (size : ℕ) (bytes : Bytes) :
    (padded pad size bytes).rdropWhile (· = pad) = bytes.rdropWhile (· = pad) := by
  unfold padded
  induction size - bytes.length with
  | zero => rw [List.replicate_zero, List.append_nil]
  | succ n ih =>
    rw [List.replicate_succ', ← List.append_assoc, List.rdropWhile_concat_pos _ _ _ (by simp), ih]

/-- The padding goes, and what of the content looks like it. -/
theorem unpadded_padded (pad : UInt8) (size : ℕ) (bytes : Bytes) :
    unpadded pad (padded pad size bytes) = bytes.rdropWhile (· = pad) := by
  rw [unpadded_eq, rdropWhile_padded]

/-- Content that would be taken for padding makes no difference. -/
theorem padded_rdropWhile (h : bytes.length ≤ size) :
    padded pad size (bytes.rdropWhile (· = pad)) = padded pad size bytes := by
  unfold padded
  induction bytes using List.reverseRecOn with
  | nil => rfl
  | append_singleton bytes b ih =>
    rw [List.length_append, List.length_singleton] at h
    rw [List.rdropWhile_concat]
    by_cases hb : b = pad
    · obtain ⟨n, hn⟩ := Nat.exists_eq_add_of_le h
      rw [if_pos (by simpa using hb), ih (by omega), hb, List.append_assoc, List.length_append,
        List.length_singleton, hn, Nat.add_sub_cancel_left,
        show bytes.length + 1 + n - bytes.length = n + 1 by omega, List.replicate_succ]
      rfl
    · rw [if_neg (by simpa using hb)]

theorem padded_eq_iff {other : Bytes} (h : bytes.length ≤ size) (h' : other.length ≤ size) :
    padded pad size bytes = padded pad size other ↔
      bytes.rdropWhile (· = pad) = other.rdropWhile (· = pad) := by
  constructor
  · intro hsame
    rw [← rdropWhile_padded pad size bytes, hsame, rdropWhile_padded]
  · intro hsame
    rw [← padded_rdropWhile h, hsame, padded_rdropWhile h']

theorem rdropWhile_eq_self_iff : bytes.rdropWhile (· = pad) = bytes ↔ bytes.getLast? ≠ some pad := by
  induction bytes using List.reverseRecOn with
  | nil => exact iff_of_true rfl (by simp)
  | append_singleton bytes b _ =>
    rw [List.rdropWhile_eq_self_iff, List.getLast?_concat]
    simp

end Padding

section Strings

/-- No byte of a string is `0xff`. -/
theorem ne_of_mem_asBytes {name : String} {b : UInt8} (hb : b ∈ asBytes name) : b ≠ 0xff := by
  obtain ⟨chars, hchars⟩ := name.isValidUTF8
  unfold asBytes at hb
  rw [hchars] at hb
  unfold List.utf8Encode at hb
  rw [List.data_toByteArray, List.mem_flatMap] at hb
  obtain ⟨c, -, hc⟩ := hb
  unfold String.utf8EncodeChar at hc
  dsimp only at hc
  have hne (n : ℕ) (hn : n % 256 ≠ 255) : UInt8.ofNat n ≠ 0xff := by
    intro h
    apply hn
    rw [← UInt8.toNat_ofNat', h]
    rfl
  split_ifs at hc with h1 h2 h3
  · rw [List.mem_singleton] at hc
    subst hc
    exact hne _ (by omega)
  · simp only [List.mem_cons, List.not_mem_nil, or_false] at hc
    rcases hc with rfl | rfl
    · exact hne _ (by omega)
    · exact hne _ (by omega)
  · simp only [List.mem_cons, List.not_mem_nil, or_false] at hc
    rcases hc with rfl | rfl | rfl
    · exact hne _ (by omega)
    · exact hne _ (by omega)
    · exact hne _ (by omega)
  · simp only [List.mem_cons, List.not_mem_nil, or_false] at hc
    rcases hc with rfl | rfl | rfl | rfl
    · exact hne _ (by omega)
    · exact hne _ (by omega)
    · exact hne _ (by omega)
    · exact hne _ (by omega)

theorem length_asBytes_le {cap : UInt64} (s : ArrayString cap) :
    (asBytes s.val).length ≤ cap.toNat := by
  rw [length_asBytes]
  exact s.property

/-- The string that the bytes before the padding are, if they are one. They are not more than
the array has, so the capacity is never exceeded. -/
def readName (cap : UInt64) (pad : UInt8) (arr : Bytes) : Option (ArrayString cap) :=
  (fromUtf8 (unpadded pad arr)).bind fun s =>
    if h : s.utf8ByteSize ≤ cap.toNat then some ⟨s, h⟩ else none

theorem readName_padded {cap : UInt64} (pad : UInt8) (s : ArrayString cap) :
    readName cap pad (padded pad cap.toNat (asBytes s.val)) = some s ↔
      (asBytes s.val).getLast? ≠ some pad := by
  unfold readName
  rw [unpadded_padded, ← rdropWhile_eq_self_iff]
  constructor
  · intro hread
    obtain ⟨name, hname, hsome⟩ := Option.bind_eq_some_iff.mp hread
    split_ifs at hsome
    cases hsome
    exact (WrappedErrors.asBytes_of_fromUtf8 hname).symm
  · intro hself
    rw [hself, fromUtf8_asBytes, Option.bind_some, dif_pos s.property]

end Strings

section Names

def usernameToRaw (u : UserName) : RawUserName :=
  ⟨padded 0 32 (asBytes u.val), length_padded (length_asBytes_le u)⟩

def usernameFromRaw (name : RawUserName) : Option UserName := readName 32 0 name.bytes

def arrstrToArray {cap : UInt64} (s : ArrayString cap) : Sized cap.toNat :=
  ⟨padded 0xff cap.toNat (asBytes s.val), length_padded (length_asBytes_le s)⟩

def arrayToArrstr {cap : UInt64} (arr : Sized cap.toNat) : Option (ArrayString cap) :=
  readName cap 0xff arr.val

/-- Names in join requests have the capacity 32. -/
theorem arrayToArrstr_client (arr : Sized (32 : UInt64).toNat) :
    ClientMail.arrayToArrstr arr = arrayToArrstr arr := by
  unfold ClientMail.arrayToArrstr arrayToArrstr readName
  change _ = (fromUtf8 (arr.val.take (ClientMail.nameLength arr.val))).bind _
  ext1 name
  rw [Option.map_eq_some_iff, Option.bind_eq_some_iff]
  constructor
  · rintro ⟨⟨text, htext⟩, -, rfl⟩
    exact ⟨text, htext, dif_pos (ClientMail.utf8ByteSize_le htext)⟩
  · rintro ⟨text, htext, hname⟩
    split_ifs at hname with hsize
    exact ⟨⟨text, htext⟩, Option.attach_eq_some_iff.mpr htext, Option.some.inj hname⟩

/-- The name ends in the character `NUL`, whose only byte is zero. -/
def EndsInNul (u : UserName) : Prop := (asBytes u.val).getLast? = some 0

instance (u : UserName) : Decidable (EndsInNul u) := inferInstanceAs (Decidable (_ = _))

/-- The name as bytes, without such characters at the end. -/
def withoutNuls (u : UserName) : Bytes := (asBytes u.val).rdropWhile (· = 0)

theorem usernameFromRaw_iff (u : UserName) :
    usernameFromRaw (usernameToRaw u) = some u ↔ ¬ EndsInNul u := readName_padded 0 u

theorem usernameToRaw_eq_iff (u v : UserName) :
    usernameToRaw u = usernameToRaw v ↔ withoutNuls u = withoutNuls v := by
  unfold usernameToRaw withoutNuls
  rw [Hash.mk.injEq]
  exact padded_eq_iff (length_asBytes_le u) (length_asBytes_le v)

theorem arrayToArrstr_arrstrToArray {cap : UInt64} (s : ArrayString cap) :
    arrayToArrstr (arrstrToArray s) = some s := by
  refine (readName_padded 0xff s).mpr fun hlast => ?_
  exact ne_of_mem_asBytes (List.mem_of_getLast? hlast) rfl

/-- A name comes back from the chain unless it ends in `NUL`, and two names have the same raw
name if only such characters are between them. Other strings always come back. -/
theorem names_survive_iff (u v : UserName) {cap : UInt64} (s : ArrayString cap) :
    (usernameFromRaw (usernameToRaw u) = some u ↔ ¬ EndsInNul u) ∧
      (usernameToRaw u = usernameToRaw v ↔ withoutNuls u = withoutNuls v) ∧
      arrayToArrstr (arrstrToArray s) = some s :=
  ⟨usernameFromRaw_iff u, usernameToRaw_eq_iff u v, arrayToArrstr_arrstrToArray s⟩

theorem utf8ByteSize_nul : "a\x00".utf8ByteSize ≤ (32 : UInt64).toNat := by decide

/-- `a` with a `NUL` behind it has the raw name of `a`. -/
theorem nul_is_lost :
    usernameFromRaw (usernameToRaw ⟨"a\x00", utf8ByteSize_nul⟩) ≠ some ⟨"a\x00", utf8ByteSize_nul⟩ ∧
      (⟨"a", ClientMail.utf8ByteSize_a⟩ : UserName) ≠ ⟨"a\x00", utf8ByteSize_nul⟩ ∧
      usernameToRaw ⟨"a", ClientMail.utf8ByteSize_a⟩ =
        usernameToRaw ⟨"a\x00", utf8ByteSize_nul⟩ := by
  refine ⟨?_, ?_, ?_⟩
  · rw [Ne, usernameFromRaw_iff, not_not]
    decide
  · decide
  · rw [usernameToRaw_eq_iff]
    decide

end Names

end OrionNetwork.FixedNames
