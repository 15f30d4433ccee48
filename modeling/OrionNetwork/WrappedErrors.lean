import OrionNetwork.Protocols
import OrionNetwork.Varints

/-!
# Errors of wrapped handlers on the wire

No codec that is put together from the implementations reads a value from fewer
bytes than it is written to. The error of a handler that restores records is
written without the number of its variant, yet that number is read back. Its inner
errors therefore lose their first byte on the way and are never what arrives.
-/
namespace OrionNetwork.WrappedErrors
open Codec Varints Protocols Replicated
open ChatReplica (ChatActionError)

section Lengths

variable {α β ε K V : Type}

/-- A value is written to no more bytes than it was read from. -/
def Economical (c : Codec α) : Prop :=
  ∀ buffer v rest, c.decode buffer = some (v, rest) →
    (c.toBytes v).length + rest.length ≤ buffer.length

theorem spelled_lt (bytes : Bytes) : spelled bytes < 128 ^ bytes.length := by
  induction bytes with
  | nil => exact Nat.one_pos
  | cons byte bytes ih =>
    rw [spelled, List.length_cons, pow_succ]
    omega

/-- A number below `128 ^ len` is written to `len` bytes at most. -/
theorem length_base128Loop_le_of_lt {fuel len value : ℕ} (hvalue : value < 128 ^ (len + 1)) :
    (base128Loop fuel value).length ≤ len + 1 := by
  induction fuel generalizing len value with
  | zero => exact Nat.zero_le _
  | succ fuel ih =>
    rw [base128Loop]
    split_ifs with hdiv
    · exact Nat.succ_le_succ (Nat.zero_le _)
    · cases len with
      | zero => omega
      | succ len =>
        have hrest : (base128Loop fuel (value / 128)).length ≤ len + 1 :=
          ih (by rw [pow_succ] at hvalue; omega)
        rw [List.length_cons]
        omega

/-- A number that does not exceed the one that was read takes no more bytes. -/
theorem length_base128Encode_le_of_decode {buffer rest : Bytes} {value small : UInt64}
    (h : base128Decode buffer = some (value, rest)) (hsmall : small.toNat ≤ value.toNat) :
    (base128Encode small).length + rest.length ≤ buffer.length := by
  obtain ⟨bytes, rfl, hframed, hvalue⟩ := base128Decode_spelled h
  have hspelled := spelled_lt bytes
  have hmod := Nat.mod_le (spelled bytes) (2 ^ 64)
  rw [List.length_append]
  cases bytes with
  | nil => exact absurd rfl hframed.ne_nil
  | cons byte bytes =>
    have hlength : (base128Loop 10 small.toNat).length ≤ bytes.length + 1 :=
      length_base128Loop_le_of_lt (by rw [List.length_cons] at hspelled; omega)
    unfold base128Encode
    rw [List.length_cons]
    omega

theorem economical_int {widen : α → UInt64} {truncate : UInt64 → α}
    (h : ∀ r, (widen (truncate r)).toNat ≤ r.toNat) : Economical (int widen truncate) := by
  intro buffer v rest hdecode
  simp only [int, Option.map_eq_some_iff, Prod.exists, Prod.mk.injEq] at hdecode
  obtain ⟨value, rest', hread, rfl, rfl⟩ := hdecode
  rw [toBytes_int]
  exact length_base128Encode_le_of_decode hread (h value)

/-- The prefix of a container that has no more elements than were announced. -/
theorem length_usize_le {buffer rest : Bytes} {len : UInt64} {n : ℕ}
    (h : usize.decode buffer = some (len, rest)) (hn : n ≤ len.toNat) :
    (usize.toBytes (UInt64.ofNat n)).length + rest.length ≤ buffer.length := by
  unfold usize
  rw [toBytes_int]
  simp only [usize, int, Option.map_eq_some_iff, Prod.exists, Prod.mk.injEq] at h
  obtain ⟨value, rest', hread, rfl, rfl⟩ := h
  apply length_base128Encode_le_of_decode hread
  rw [id, UInt64.toNat_ofNat']
  exact (Nat.mod_le _ _).trans hn

theorem economical_unit : Economical unit := by
  rintro buffer v rest ⟨⟩
  exact Nat.le_of_eq (Nat.zero_add _)

theorem economical_bool : Economical bool := by
  intro buffer v rest h
  cases buffer with
  | nil => cases h
  | cons byte buffer =>
    simp only [Codec.bool] at h
    split_ifs at h <;> cases h <;> exact Nat.le_of_eq (Nat.add_comm _ _)

theorem economical_u8 : Economical u8 := by
  intro buffer v rest h
  cases buffer with
  | nil => cases h
  | cons byte buffer =>
    cases h
    exact Nat.le_of_eq (Nat.add_comm _ _)

theorem economical_pair {a : Codec α} {b : Codec β} (ha : Economical a) (hb : Economical b) :
    Economical (pair a b) := by
  intro buffer v rest h
  obtain ⟨⟨first, middle⟩, hfirst, h⟩ := Option.bind_eq_some_iff.mp h
  obtain ⟨⟨second, rest'⟩, hsecond, h⟩ := Option.bind_eq_some_iff.mp h
  cases h
  have hla := ha _ _ _ hfirst
  have hlb := hb _ _ _ hsecond
  rw [toBytes_pair, List.length_append]
  simp only at hlb ⊢
  omega

/-- What follows a byte for the case. -/
theorem length_toBytes_tagged (c : Codec α) (tag : UInt8) (v : α) :
    ([[tag]] ++ c.encode v).flatten.length = 1 + (c.toBytes v).length := by
  rw [List.flatten_append, List.length_append]
  rfl

theorem length_of_decode_bool {buffer rest : Bytes} {b : Bool}
    (h : Codec.bool.decode buffer = some (b, rest)) : rest.length + 1 = buffer.length := by
  cases buffer with
  | nil => cases h
  | cons byte buffer =>
    simp only [Codec.bool] at h
    split_ifs at h <;> cases h <;> rfl

theorem economical_option {c : Codec α} (hc : Economical c) : Economical (option c) := by
  intro buffer v rest h
  obtain ⟨⟨isSome, middle⟩, hcase, h⟩ := Option.bind_eq_some_iff.mp h
  have hlength := length_of_decode_bool hcase
  cases isSome with
  | false =>
    cases h
    exact Nat.le_of_eq ((Nat.add_comm _ _).trans hlength)
  | true =>
    obtain ⟨⟨value, rest'⟩, hvalue, h⟩ := Option.bind_eq_some_iff.mp h
    cases h
    have hle := hc _ _ _ hvalue
    have htagged := length_toBytes_tagged c 1 value
    change ([[1]] ++ c.encode value).flatten.length + rest.length ≤ _
    omega

theorem economical_result {r : Codec α} {e : Codec ε} (hr : Economical r) (he : Economical e) :
    Economical (result r e) := by
  intro buffer v rest h
  obtain ⟨⟨isOk, middle⟩, hcase, h⟩ := Option.bind_eq_some_iff.mp h
  have hlength := length_of_decode_bool hcase
  cases isOk with
  | false =>
    obtain ⟨⟨value, rest'⟩, hvalue, h⟩ := Option.bind_eq_some_iff.mp h
    cases h
    have hle := he _ _ _ hvalue
    have htagged := length_toBytes_tagged e 0 value
    change ([[0]] ++ e.encode value).flatten.length + rest.length ≤ _
    omega
  | true =>
    obtain ⟨⟨value, rest'⟩, hvalue, h⟩ := Option.bind_eq_some_iff.mp h
    cases h
    have hle := hr _ _ _ hvalue
    have htagged := length_toBytes_tagged r 1 value
    change ([[1]] ++ r.encode value).flatten.length + rest.length ≤ _
    omega

theorem economical_struct (fields : α ≃ β) {c : Codec β} (hc : Economical c) :
    Economical (struct fields c) := by
  intro buffer v rest h
  obtain ⟨⟨value, rest'⟩, hvalue, h⟩ := Option.bind_eq_some_iff.mp h
  cases h
  unfold toBytes struct
  simp only [Equiv.apply_symm_apply]
  exact hc _ _ _ hvalue

theorem economical_enum {n : ℕ} {P : Fin n → Type} (variants : α ≃ Σ i, P i)
    {c : ∀ i, Codec (P i)} (hc : ∀ i, Economical (c i)) : Economical (enum variants c) := by
  intro buffer v rest h
  cases buffer with
  | nil => cases h
  | cons index buffer =>
    simp only [enum] at h
    split_ifs at h with hindex
    obtain ⟨⟨variant, rest'⟩, hvariant, h⟩ := Option.bind_eq_some_iff.mp h
    obtain ⟨⟨value, rest''⟩, hvalue, hvariant⟩ := Option.bind_eq_some_iff.mp hvariant
    cases hvariant
    cases h
    have hle := hc _ _ _ _ hvalue
    rw [toBytes_enum, List.length_cons, List.length_cons]
    simp only
    omega

theorem length_flatMap_decodeSeq {c : Codec α} (hc : Economical c) {n : ℕ} {buffer rest : Bytes}
    {v : List.Vector α n} (h : decodeSeq c n buffer = some (v, rest)) :
    (v.toList.flatMap c.encode).flatten.length + rest.length ≤ buffer.length := by
  induction n generalizing buffer with
  | zero =>
    cases h
    exact Nat.le_of_eq (Nat.zero_add _)
  | succ n ih =>
    obtain ⟨⟨first, middle⟩, hfirst, h⟩ := Option.bind_eq_some_iff.mp h
    obtain ⟨⟨others, rest'⟩, hothers, h⟩ := Option.bind_eq_some_iff.mp h
    cases h
    have hle := hc _ _ _ hfirst
    have hles := ih hothers
    rw [List.Vector.toList_cons, List.flatMap_cons, List.flatten_append, List.length_append]
    change (c.toBytes first).length + _ + _ ≤ _
    omega

theorem economical_array (n : ℕ) {c : Codec α} (hc : Economical c) : Economical (array n c) :=
  fun _ _ _ h => length_flatMap_decodeSeq hc h

/-- A container with its length in front. -/
theorem length_encodeSeq_le {c : Codec α} (hc : Economical c) {q : ℕ → Prop} {len : UInt64}
    {buffer middle rest : Bytes} {hq : q len.toNat} {v : { l : List α // q l.length }}
    (hlen : usize.decode buffer = some (len, middle))
    (h : decodeSized c q len.toNat hq middle = some (v, rest)) :
    (encodeSeq c v.val).flatten.length + rest.length ≤ buffer.length := by
  obtain ⟨⟨elements, rest'⟩, helements, h⟩ := Option.bind_eq_some_iff.mp h
  cases h
  have hle := length_flatMap_decodeSeq hc helements
  have hprefix := length_usize_le hlen (n := elements.toList.length)
    (Nat.le_of_eq elements.toList_length)
  unfold encodeSeq
  rw [List.flatten_append, List.length_append]
  unfold toBytes at hprefix
  simp only at hle ⊢
  omega

theorem economical_vec {c : Codec α} (hc : Economical c) : Economical (vec c) := by
  intro buffer v rest h
  obtain ⟨⟨len, middle⟩, hlen, h⟩ := Option.bind_eq_some_iff.mp h
  simp only at h
  split_ifs at h
  exact length_encodeSeq_le (q := (· < 2 ^ 64)) hc hlen h

theorem economical_arrayVec (cap : UInt64) {c : Codec α} (hc : Economical c) :
    Economical (arrayVec cap c) := by
  intro buffer v rest h
  obtain ⟨⟨len, middle⟩, hlen, h⟩ := Option.bind_eq_some_iff.mp h
  simp only at h
  split_ifs at h
  exact length_encodeSeq_le (q := (· ≤ cap.toNat)) hc hlen h

theorem economical_slice : Economical slice := by
  intro buffer v rest h
  obtain ⟨⟨len, middle⟩, hlen, h⟩ := Option.bind_eq_some_iff.mp h
  simp only at h
  split_ifs at h with hroom
  cases h
  have htake : (middle.take len.toNat).length ≤ len.toNat := List.length_take_le _ _
  have hprefix := length_usize_le hlen htake
  unfold toBytes slice
  simp only
  rw [List.flatten_append, List.length_append, List.flatten_singleton, List.length_drop]
  unfold toBytes at hprefix
  omega

/-- Bytes that were read as a string are its bytes. -/
theorem asBytes_of_fromUtf8 {bytes : Bytes} {s : String} (h : fromUtf8 bytes = some s) :
    asBytes s = bytes := by
  unfold fromUtf8 String.fromUTF8? at h
  split_ifs at h
  cases h
  rfl

/-- A string is written like its bytes. -/
theorem length_string_le {buffer rest : Bytes} {bytes : Vec UInt8} {s : String}
    (hslice : slice.decode buffer = some (bytes, rest)) (h : fromUtf8 bytes.val = some s) :
    (usize.encode (UInt64.ofNat s.utf8ByteSize) ++ [asBytes s]).flatten.length + rest.length ≤
      buffer.length := by
  rw [← length_asBytes, asBytes_of_fromUtf8 h]
  exact economical_slice _ _ _ hslice

/-- A text was read from the bytes of a slice. -/
theorem slice_of_text {q : ℕ → Prop} [DecidablePred q] {buffer rest : Bytes}
    {text : { s : String // q s.utf8ByteSize }}
    (h : ((slice.decode buffer).bind fun r => (fromUtf8 r.1.val).bind fun s =>
      if h : q s.utf8ByteSize then some (⟨s, h⟩, r.2) else none) = some (text, rest)) :
    ∃ bytes, slice.decode buffer = some (bytes, rest) ∧ fromUtf8 bytes.val = some text.val := by
  obtain ⟨⟨bytes, rest'⟩, hslice, h⟩ := Option.bind_eq_some_iff.mp h
  obtain ⟨s, hs, h⟩ := Option.bind_eq_some_iff.mp h
  split_ifs at h
  cases h
  exact ⟨bytes, hslice, hs⟩

theorem economical_str : Economical str := by
  intro buffer v rest h
  obtain ⟨bytes, hslice, htext⟩ := slice_of_text (q := (· < 2 ^ 64)) h
  exact length_string_le hslice htext

theorem economical_arrayString (cap : UInt64) : Economical (arrayString cap) := by
  intro buffer v rest h
  obtain ⟨bytes, hslice, htext⟩ := slice_of_text (q := (· ≤ cap.toNat)) h
  exact length_string_le hslice htext

theorem economical_reminder : Economical reminder := by
  rintro buffer v rest ⟨⟩
  unfold toBytes reminder
  rw [List.flatten_singleton]
  exact Nat.le_refl _

section Maps

variable [DecidableEq K]

/-- What the entries of a map weigh together. -/
def weight (f : (Σ _ : K, V) → ℕ) (m : Finmap fun _ : K => V) : ℕ := (m.entries.map f).sum

omit [DecidableEq K] in
theorem weight_toFinmap (f : (Σ _ : K, V) → ℕ) (s : AList fun _ : K => V) :
    weight f s.toFinmap = (s.entries.map f).sum := rfl

omit [DecidableEq K] in
theorem weight_one (m : Finmap fun _ : K => V) : weight (fun _ => 1) m = m.keys.card := by
  induction m using Finmap.induction_on with
  | _ s =>
    have hcard : (Finmap.keys s.toFinmap).card = s.keys.length :=
      congrArg Multiset.card (Finmap.keys_val s)
    rw [weight_toFinmap, hcard, AList.keys, List.keys, List.length_map, List.map_const',
      List.sum_replicate, smul_eq_mul, Nat.mul_one]

/-- An entry that is replaced takes its weight with it. -/
theorem weight_insert_le (f : (Σ _ : K, V) → ℕ) (m : Finmap fun _ : K => V) (key : K) (value : V) :
    weight f (m.insert key value) ≤ f ⟨key, value⟩ + weight f m := by
  induction m using Finmap.induction_on with
  | _ s =>
    have hsublist : List.Sublist ((s.entries.kerase key).map f) (s.entries.map f) :=
      (List.kerase_sublist key s.entries).map f
    have herase : ((s.entries.kerase key).map f).sum ≤ (s.entries.map f).sum :=
      hsublist.sum_le_sum fun _ _ => Nat.zero_le _
    rw [Finmap.insert_toFinmap, weight_toFinmap, AList.entries_insert, List.map_cons,
      List.sum_cons]
    exact Nat.add_le_add_left herase _

variable {k : Codec K} {v : Codec V}

/-- Reading entries adds as many as were asked for at most. -/
theorem card_decodeEntries {n : ℕ} {m m' : Finmap fun _ : K => V} {buffer rest : Bytes}
    (h : decodeEntries k v n m buffer = some (m', rest)) :
    m'.keys.card ≤ m.keys.card + n := by
  induction n generalizing m buffer with
  | zero =>
    cases h
    exact Nat.le_refl _
  | succ n ih =>
    obtain ⟨⟨key, middle⟩, hkey, h⟩ := Option.bind_eq_some_iff.mp h
    obtain ⟨⟨value, middle'⟩, hvalue, h⟩ := Option.bind_eq_some_iff.mp h
    have hrest := ih h
    have hinsert := weight_insert_le (fun _ => 1) m key value
    rw [weight_one, weight_one] at hinsert
    omega

/-- The bytes of the entries are no more than those that were read. -/
theorem weight_decodeEntries (hk : Economical k) (hv : Economical v) {n : ℕ}
    {m m' : Finmap fun _ : K => V} {buffer rest : Bytes}
    (h : decodeEntries k v n m buffer = some (m', rest)) :
    weight (fun e => (encodeEntry k v e).flatten.length) m' + rest.length ≤
      weight (fun e => (encodeEntry k v e).flatten.length) m + buffer.length := by
  induction n generalizing m buffer with
  | zero =>
    cases h
    exact Nat.le_refl _
  | succ n ih =>
    obtain ⟨⟨key, middle⟩, hkey, h⟩ := Option.bind_eq_some_iff.mp h
    obtain ⟨⟨value, middle'⟩, hvalue, h⟩ := Option.bind_eq_some_iff.mp h
    have hlk := hk _ _ _ hkey
    have hlv := hv _ _ _ hvalue
    have hrest := ih h
    have hinsert := weight_insert_le (fun e => (encodeEntry k v e).flatten.length) m key value
    have hentry : (encodeEntry k v ⟨key, value⟩).flatten.length =
        (k.toBytes key).length + (v.toBytes value).length := by
      rw [encodeEntry, List.flatten_append, List.length_append]
      rfl
    rw [hentry] at hinsert
    omega

theorem length_flatten_flatMap {α : Type} (f : α → List Bytes) (l : List α) :
    (l.flatMap f).flatten.length = (l.map fun a => (f a).flatten.length).sum := by
  induction l with
  | nil => rfl
  | cons a l ih =>
    rw [List.flatMap_cons, List.flatten_append, List.length_append, ih, List.map_cons,
      List.sum_cons]

theorem economical_hashMap (order : Order K V) (hk : Economical k) (hv : Economical v) :
    Economical (hashMap order k v) := by
  intro buffer m rest h
  obtain ⟨⟨len, middle⟩, hlen, h⟩ := Option.bind_eq_some_iff.mp h
  simp only at h
  split_ifs at h
  obtain ⟨⟨m', rest'⟩, hentries, h⟩ := Option.bind_eq_some_iff.mp h
  split_ifs at h with hcard
  cases h
  have hprefix := length_usize_le hlen (n := m'.keys.card)
    (by simpa using card_decodeEntries hentries)
  have hweight := weight_decodeEntries hk hv hentries
  have hbytes : ((order.entries ⟨m', hcard⟩).entries.flatMap (encodeEntry k v)).flatten.length =
      weight (fun e => (encodeEntry k v e).flatten.length) m' := by
    rw [length_flatten_flatMap, ← weight_toFinmap, order.toFinmap_entries]
  have hempty : weight (fun e => (encodeEntry k v e).flatten.length)
      (∅ : Finmap fun _ : K => V) = 0 := rfl
  unfold toBytes hashMap
  simp only
  rw [List.flatten_append, List.length_append, hbytes]
  unfold toBytes at hprefix
  omega

end Maps

/-- Induction over how the type is built. -/
theorem economical_of_built {last : Bool} {c : Codec α} (h : Built last c) : Economical c := by
  induction h with
  | unit => exact economical_unit
  | bool => exact economical_bool
  | u8 => exact economical_u8
  | u16 => exact economical_int fun r => by simpa using Nat.mod_le _ _
  | u32 => exact economical_int fun r => by simpa using Nat.mod_le _ _
  | u64 => exact economical_int fun r => Nat.le_refl _
  | usize => exact economical_int fun r => Nat.le_refl _
  | slice => exact economical_slice
  | boxSlice => exact economical_slice
  | str => exact economical_str
  | string => exact economical_str
  | arrayString cap => exact economical_arrayString cap
  | pair _ _ iha ihb => exact economical_pair iha ihb
  | range _ ih => exact economical_pair ih ih
  | option _ ih => exact economical_option ih
  | result _ _ ihr ihe => exact economical_result ihr ihe
  | struct fields _ ih => exact economical_struct fields ih
  | enum hn variants _ ih => exact economical_enum variants ih
  | array n _ ih => exact economical_array n ih
  | arrayVec cap _ ih => exact economical_arrayVec cap ih
  | vec _ _ ih => exact economical_vec ih
  | vecDeque _ _ ih => exact economical_vec ih
  | arcSlice _ _ ih => exact economical_vec ih
  | hashMap order _ _ _ ihk ihv => exact economical_hashMap order ihk ihv
  | reminder => exact economical_reminder
  | ownedReminder => exact economical_reminder
  | unbound => exact economical_reminder

end Lengths

section Errors

variable {E : Type}

/-- What is read from the bytes of a value is the value, to the last byte. -/
def Survives (c : Codec E) (v : E) : Prop := c.decode (c.toBytes v) = some (v, [])

instance [DecidableEq E] (c : Codec E) (v : E) : Decidable (Survives c v) :=
  inferInstanceAs (Decidable (_ = _))

/-- The first byte of an inner error is taken for the number of the variant. -/
def Arrives (e : Codec E) : NotFoundError E → Prop
  | .notFound => True
  | .inner error => ∃ tag rest, e.toBytes error = tag :: rest ∧ tag ≠ 0 ∧
      e.decode rest = some (error, [])

theorem survives_notFoundError_iff (e : Codec E) (err : NotFoundError E) :
    Survives (notFoundError e) err ↔ Arrives e err := by
  cases err with
  | notFound => exact ⟨fun _ => trivial, fun _ => rfl⟩
  | inner error =>
    have hbytes : (notFoundError e).toBytes (.inner error) = e.toBytes error := rfl
    unfold Survives
    rw [hbytes]
    simp only [Arrives]
    cases hcase : e.toBytes error with
    | nil => simp [notFoundError]
    | cons tag rest =>
      by_cases htag : tag = 0
      · simp [notFoundError, htag]
      · simp only [notFoundError, if_neg htag]
        constructor
        · intro h
          obtain ⟨⟨error', rest'⟩, hread, h⟩ := Option.bind_eq_some_iff.mp h
          cases h
          exact ⟨tag, rest, rfl, htag, hread⟩
        · rintro ⟨tag', rest', hcons, -, hread⟩
          cases hcons
          rw [hread]
          rfl

theorem survives_replError_iff (e : Codec E) (err : ReplError E) :
    Survives (replError e) err ↔ ∀ inner, err = .inner inner → Survives e inner := by
  cases err with
  | inner error =>
    have hread : (replError e).decode ((replError e).toBytes (.inner error)) =
        (e.decode (e.toBytes error)).bind fun r => some (.inner r.1, r.2) := by
      change ((e.decode (e.toBytes error)).bind fun r => _).bind _ = _
      rw [Option.bind_assoc]
      rfl
    unfold Survives
    rw [hread]
    constructor
    · rintro h inner ⟨⟩
      obtain ⟨⟨error', rest'⟩, hinner, h⟩ := Option.bind_eq_some_iff.mp h
      cases h
      exact hinner
    · intro h
      rw [h error rfl]
      rfl
  | _ =>
    constructor
    · rintro - inner ⟨⟩
    · intro _
      rfl

/-- One byte less is not enough. -/
theorem not_arrives_inner {e : Codec E} (he : Economical e) (error : E) :
    ¬ Arrives e (.inner error) := by
  rintro ⟨tag, rest, hbytes, -, hread⟩
  have hle := he _ _ _ hread
  rw [hbytes, List.length_cons, List.length_nil] at hle
  omega

theorem arrives_iff_of_economical {e : Codec E} (he : Economical e) (err : NotFoundError E) :
    Arrives e err ↔ err = .notFound := by
  cases err with
  | notFound => exact ⟨fun _ => rfl, fun _ => trivial⟩
  | inner error =>
    constructor
    · intro h
      exact absurd h (not_arrives_inner he error)
    · rintro ⟨⟩

/-- A wrapped error survives the wire exactly when it is not an inner one of the
handler that restores records, or its first byte happens to be no zero and the
others are read as the same error. That never happens with an error whose codec is
put together from the implementations. -/
theorem wrapped_survives_iff (e : Codec E) :
    (∀ err, Survives (notFoundError e) err ↔ Arrives e err) ∧
    (∀ err, Survives (replError (notFoundError e)) err ↔
      ∀ inner, err = .inner inner → Arrives e inner) ∧
    ∀ last, Built last e →
      (∀ err, Survives (notFoundError e) err ↔ err = .notFound) ∧
      ∀ err, Survives (replError (notFoundError e)) err ↔
        ∀ error, err ≠ .inner (.inner error) := by
  have hrepl (err : ReplError (NotFoundError E)) : Survives (replError (notFoundError e)) err ↔
      ∀ inner, err = .inner inner → Arrives e inner := by
    rw [survives_replError_iff]
    exact forall₂_congr fun inner _ => survives_notFoundError_iff e inner
  refine ⟨survives_notFoundError_iff e, hrepl, ?_⟩
  intro last hbuilt
  have he := economical_of_built hbuilt
  refine ⟨fun err => ?_, fun err => ?_⟩
  · rw [survives_notFoundError_iff, arrives_iff_of_economical he]
  · rw [hrepl]
    constructor
    · rintro h error rfl
      exact not_arrives_inner he error (h _ rfl)
    · rintro h inner rfl
      cases inner with
      | notFound => trivial
      | inner error => exact absurd rfl (h error)

/-- The errors of a chat action that was looked up elsewhere first. -/
theorem wrapped_survives_iff_chatAction :
    Survives (replError (notFoundError chatActionError)) (.inner .notFound) ∧
    ¬ Survives (replError (notFoundError chatActionError)) (.inner (.inner .notMember)) := by
  obtain ⟨-, -, hbuilt⟩ := wrapped_survives_iff chatActionError
  obtain ⟨-, hrepl⟩ := hbuilt true built_chatActionError
  refine ⟨(hrepl _).mpr fun error => by rintro ⟨⟩, ?_⟩
  intro h
  exact (hrepl _).mp h _ rfl

/-- An action that is refused for its nonce arrives as a message that is too large. -/
theorem inner_arrives_as_other :
    Survives chatActionError (.invalidAction 5) ∧
    (notFoundError chatActionError).decode
        ((notFoundError chatActionError).toBytes (.inner (.invalidAction 5))) =
      some (.inner .messageTooLarge, []) ∧
    ¬ Survives (notFoundError chatActionError) (.inner (.invalidAction 5)) ∧
    ¬ Survives (replError (notFoundError chatActionError)) (.inner (.inner (.invalidAction 5))) := by
  decide +kernel

end Errors

end OrionNetwork.WrappedErrors
