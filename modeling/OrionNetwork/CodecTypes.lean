import OrionNetwork.Codec
import Mathlib.Data.Finmap
import Mathlib.Data.Vector.Basic

/-!
# Codecs of types

The trait `Codec` and its implementations. A value is written to a buffer slice
by slice and is read back from the front of a slice of bytes. Containers that
reserve space for their elements first compare their number with the bytes that
are left. Lengths are below what the type of the container admits, so a value
that cannot exist is not a value of the model either.
-/
namespace OrionNetwork

/-- The slices that are written for a value, and how it is read back. -/
structure Codec (α : Type*) where
  encode : α → List Codec.Bytes
  decode : Codec.Bytes → Option (α × Codec.Bytes)

namespace Codec

variable {α β ε K V : Type}

/-- The trait `Buffer`; `push` is a slice of one byte. -/
structure Buffer (β : Type*) where
  extendFromSlice : β → Bytes → Option β

/-- A vector grows. -/
def vecBuffer : Buffer Bytes := ⟨fun buffer slice => some (buffer ++ slice)⟩

def encodeInto (b : Buffer β) : List Bytes → β → Option β
  | [], buffer => some buffer
  | slice :: slices, buffer => (b.extendFromSlice buffer slice).bind (encodeInto b slices)

def toBytes (c : Codec α) (v : α) : Bytes := (c.encode v).flatten

theorem encodeInto_vec (slices : List Bytes) (buffer : Bytes) :
    encodeInto vecBuffer slices buffer = some (buffer ++ slices.flatten) := by
  induction slices generalizing buffer with
  | nil => simp [encodeInto]
  | cons slice slices ih =>
    unfold encodeInto
    simp only [vecBuffer, Option.bind_some]
    rw [← vecBuffer, ih, List.append_assoc, List.flatten_cons]

/-- Reading gives back what was written and leaves what follows, whenever that is
as required by `R`. -/
def RoundTrips (R : Bytes → Prop) (c : Codec α) : Prop :=
  ∀ v rest, R rest → c.decode (c.toBytes v ++ rest) = some (v, rest)

section Plain

def unit : Codec Unit := ⟨fun _ => [], fun buffer => some ((), buffer)⟩

def bool : Codec Bool where
  encode b := [[if b then 1 else 0]]
  decode
    | [] => none
    | byte :: rest => if byte = 0 then some (false, rest) else if byte = 1 then some (true, rest)
      else none

def u8 : Codec UInt8 where
  encode byte := [[byte]]
  decode
    | [] => none
    | byte :: rest => some (byte, rest)

/-- An integer is written as one of 64 bits and truncated when it is read. -/
def int (widen : α → UInt64) (truncate : UInt64 → α) : Codec α where
  encode v := (base128Encode (widen v)).map fun byte => [byte]
  decode buffer := (base128Decode buffer).map fun r => (truncate r.1, r.2)

def u16 : Codec UInt16 := int UInt16.toUInt64 UInt64.toUInt16

def u32 : Codec UInt32 := int UInt32.toUInt64 UInt64.toUInt32

def u64 : Codec UInt64 := int id id

/-- Of 64 bits. -/
def usize : Codec UInt64 := int id id

theorem flatten_map_singleton (bytes : Bytes) : (bytes.map fun byte => [byte]).flatten = bytes := by
  induction bytes with
  | nil => rfl
  | cons byte bytes ih => rw [List.map_cons, List.flatten_cons, ih, List.singleton_append]

theorem toBytes_int (widen : α → UInt64) (truncate : UInt64 → α) (v : α) :
    (int widen truncate).toBytes v = base128Encode (widen v) :=
  flatten_map_singleton _

variable {R : Bytes → Prop}

theorem roundTrips_unit : RoundTrips R unit := by
  intro v rest _
  rfl

theorem roundTrips_bool : RoundTrips R bool := by
  intro b rest _
  cases b <;> rfl

theorem roundTrips_u8 : RoundTrips R u8 := by
  intro byte rest _
  rfl

theorem roundTrips_int {widen : α → UInt64} {truncate : UInt64 → α}
    (h : ∀ v, truncate (widen v) = v) : RoundTrips R (int widen truncate) := by
  intro v rest _
  rw [toBytes_int]
  unfold int
  simp only
  rw [base128Decode_base128Encode, Option.map_some, h]

end Plain

section Compound

/-- A tuple, or the fields of a struct. -/
def pair (a : Codec α) (b : Codec β) : Codec (α × β) where
  encode v := a.encode v.1 ++ b.encode v.2
  decode buffer := do
    let (first, buffer) ← a.decode buffer
    let (second, buffer) ← b.decode buffer
    some ((first, second), buffer)

/-- The two ends of a range. -/
def range (c : Codec α) : Codec (α × α) := pair c c

def option (c : Codec α) : Codec (Option α) where
  encode
    | some v => bool.encode true ++ c.encode v
    | none => bool.encode false
  decode buffer := do
    let (isSome, buffer) ← bool.decode buffer
    if isSome then
      let (v, buffer) ← c.decode buffer
      some (some v, buffer)
    else some (none, buffer)

def result (r : Codec α) (e : Codec ε) : Codec (Except ε α) where
  encode
    | .ok v => bool.encode true ++ r.encode v
    | .error v => bool.encode false ++ e.encode v
  decode buffer := do
    let (isOk, buffer) ← bool.decode buffer
    if isOk then
      let (v, buffer) ← r.decode buffer
      some (.ok v, buffer)
    else
      let (v, buffer) ← e.decode buffer
      some (.error v, buffer)

/-- A derived struct is written as the tuple of its fields. -/
def struct (fields : α ≃ β) (c : Codec β) : Codec α where
  encode v := c.encode (fields v)
  decode buffer := do
    let (v, buffer) ← c.decode buffer
    some (fields.symm v, buffer)

section Variants

variable {n : ℕ} {P : Fin n → Type}

def encodeVariant (c : ∀ i, Codec (P i)) (v : Σ i, P i) : List Bytes :=
  [UInt8.ofNat v.1] :: (c v.1).encode v.2

def decodeVariant (c : ∀ i, Codec (P i)) (i : Fin n) (buffer : Bytes) :
    Option ((Σ i, P i) × Bytes) := do
  let (v, buffer) ← (c i).decode buffer
  some (⟨i, v⟩, buffer)

/-- A derived enum is written as the number of the variant and its fields. -/
def enum (variants : α ≃ Σ i, P i) (c : ∀ i, Codec (P i)) : Codec α where
  encode v := encodeVariant c (variants v)
  decode
    | [] => none
    | index :: buffer =>
      if h : index.toNat < n then do
        let (v, buffer) ← decodeVariant c ⟨index.toNat, h⟩ buffer
        some (variants.symm v, buffer)
      else none

end Variants

theorem toBytes_pair (a : Codec α) (b : Codec β) (v : α × β) :
    (pair a b).toBytes v = a.toBytes v.1 ++ b.toBytes v.2 :=
  List.flatten_append

/-- The encoding of a value of the first codec may be followed by anything. -/
abbrev Everywhere (c : Codec α) : Prop := RoundTrips (fun _ => True) c

variable {R : Bytes → Prop} {a : Codec α} {b : Codec β} {e : Codec ε}

theorem roundTrips_pair (ha : Everywhere a) (hb : RoundTrips R b) : RoundTrips R (pair a b) := by
  rintro ⟨first, second⟩ rest hrest
  rw [toBytes_pair, List.append_assoc]
  unfold pair
  simp only
  rw [ha first _ trivial, Option.bind_eq_bind, Option.bind_some, hb second rest hrest]
  rfl

theorem roundTrips_option (ha : RoundTrips R a) : RoundTrips R (option a) := by
  intro v rest hrest
  cases v with
  | none => rfl
  | some v =>
    change (a.decode (a.toBytes v ++ rest)).bind (fun r => some (some r.1, r.2)) = _
    rw [ha v rest hrest]
    rfl

theorem roundTrips_result (ha : RoundTrips R a) (he : RoundTrips R e) :
    RoundTrips R (result a e) := by
  intro v rest hrest
  cases v with
  | ok v =>
    change (a.decode (a.toBytes v ++ rest)).bind (fun r => some (Except.ok r.1, r.2)) = _
    rw [ha v rest hrest]
    rfl
  | error v =>
    change (e.decode (e.toBytes v ++ rest)).bind (fun r => some (Except.error r.1, r.2)) = _
    rw [he v rest hrest]
    rfl

theorem roundTrips_struct (fields : α ≃ β) (hb : RoundTrips R b) :
    RoundTrips R (struct fields b) := by
  intro v rest hrest
  have hv := hb (fields v) rest hrest
  change (b.decode (b.toBytes (fields v) ++ rest)).bind (fun r => some (fields.symm r.1, r.2)) = _
  rw [hv, Option.bind_some, Equiv.symm_apply_apply]

theorem toBytes_enum {n : ℕ} {P : Fin n → Type} (variants : α ≃ Σ i, P i) (c : ∀ i, Codec (P i))
    (i : Fin n) (w : P i) :
    (enum variants c).toBytes (variants.symm ⟨i, w⟩) = UInt8.ofNat i.val :: (c i).toBytes w := by
  unfold toBytes enum
  simp only [Equiv.apply_symm_apply]
  rfl

/-- More variants than numbers in a byte do not compile. -/
theorem roundTrips_enum {n : ℕ} (hn : n ≤ 255) {P : Fin n → Type} (variants : α ≃ Σ i, P i)
    {c : ∀ i, Codec (P i)} (hc : ∀ i, RoundTrips R (c i)) : RoundTrips R (enum variants c) := by
  intro v rest hrest
  obtain ⟨⟨i, w⟩, rfl⟩ := variants.symm.surjective v
  have hindex : (UInt8.ofNat i.val).toNat = i.val := by
    rw [UInt8.toNat_ofNat']
    omega
  have hlt : (UInt8.ofNat i.val).toNat < n := by
    rw [hindex]
    exact i.isLt
  have hfin : (⟨(UInt8.ofNat i.val).toNat, hlt⟩ : Fin n) = i := Fin.ext hindex
  rw [toBytes_enum, List.cons_append]
  unfold enum
  simp only [dif_pos hlt]
  rw [hfin, decodeVariant, hc i w rest hrest]
  rfl

end Compound

section Sequences

/-- The loop of the containers. -/
def decodeSeq (c : Codec α) : (n : ℕ) → Bytes → Option (List.Vector α n × Bytes)
  | 0, buffer => some (⟨[], rfl⟩, buffer)
  | n + 1, buffer => do
    let (a, buffer) ← c.decode buffer
    let (as, buffer) ← decodeSeq c n buffer
    some (a ::ᵥ as, buffer)

/-- The same into a container that admits the number of elements. -/
def decodeSized (c : Codec α) (q : ℕ → Prop) (n : ℕ) (hn : q n) (buffer : Bytes) :
    Option ({ l : List α // q l.length } × Bytes) := do
  let (as, buffer) ← decodeSeq c n buffer
  some (⟨as.toList, by rwa [as.toList_length]⟩, buffer)

/-- A fixed array has no length on the wire. -/
def array (n : ℕ) (c : Codec α) : Codec (List.Vector α n) where
  encode v := v.toList.flatMap c.encode
  decode := decodeSeq c n

/-- A vector whose length is a `usize`. -/
abbrev Vec (α : Type) := { l : List α // l.length < 2 ^ 64 }

def encodeSeq (c : Codec α) (l : List α) : List Bytes :=
  usize.encode (UInt64.ofNat l.length) ++ l.flatMap c.encode

/-- As many elements as bytes are left at most. -/
def vec (c : Codec α) : Codec (Vec α) where
  encode v := encodeSeq c v.val
  decode buffer := do
    let (len, buffer) ← usize.decode buffer
    if len.toNat > buffer.length then none
    else decodeSized c (· < 2 ^ 64) len.toNat len.toNat_lt buffer

def vecDeque (c : Codec α) : Codec (Vec α) := vec c

def arcSlice (c : Codec α) : Codec (Vec α) := vec c

abbrev ArrayVec (cap : UInt64) (α : Type) := { l : List α // l.length ≤ cap.toNat }

/-- As many elements as there is room for at most. -/
def arrayVec (cap : UInt64) (c : Codec α) : Codec (ArrayVec cap α) where
  encode v := encodeSeq c v.val
  decode buffer := do
    let (len, buffer) ← usize.decode buffer
    if h : len.toNat > cap.toNat then none
    else decodeSized c (· ≤ cap.toNat) len.toNat (Nat.le_of_not_lt h) buffer

def slice : Codec (Vec UInt8) where
  encode v := usize.encode (UInt64.ofNat v.val.length) ++ [v.val]
  decode buffer := do
    let (len, buffer) ← usize.decode buffer
    if buffer.length < len.toNat then none
    else some (⟨buffer.take len.toNat, by
      have := len.toNat_lt
      rw [List.length_take]
      omega⟩, buffer.drop len.toNat)

def boxSlice : Codec (Vec UInt8) := slice

abbrev Str := { s : String // s.utf8ByteSize < 2 ^ 64 }

def asBytes (s : String) : Bytes := s.toByteArray.data.toList

def fromUtf8 (bytes : Bytes) : Option String := String.fromUTF8? ⟨bytes.toArray⟩

def str : Codec Str where
  encode s := usize.encode (UInt64.ofNat s.val.utf8ByteSize) ++ [asBytes s.val]
  decode buffer := do
    let (bytes, buffer) ← slice.decode buffer
    let s ← fromUtf8 bytes.val
    if h : s.utf8ByteSize < 2 ^ 64 then some (⟨s, h⟩, buffer) else none

def string : Codec Str := str

abbrev ArrayString (cap : UInt64) := { s : String // s.utf8ByteSize ≤ cap.toNat }

def arrayString (cap : UInt64) : Codec (ArrayString cap) where
  encode s := usize.encode (UInt64.ofNat s.val.utf8ByteSize) ++ [asBytes s.val]
  decode buffer := do
    let (bytes, buffer) ← slice.decode buffer
    let s ← fromUtf8 bytes.val
    if h : s.utf8ByteSize ≤ cap.toNat then some (⟨s, h⟩, buffer) else none

variable {R : Bytes → Prop} {c : Codec α}

theorem decodeSeq_flatMap (hc : Everywhere c) {n : ℕ} (v : List.Vector α n) (rest : Bytes) :
    decodeSeq c n ((v.toList.flatMap c.encode).flatten ++ rest) = some (v, rest) := by
  induction v with
  | nil => rfl
  | @cons n a v ih =>
    rw [List.Vector.toList_cons, List.flatMap_cons, List.flatten_append, List.append_assoc]
    unfold decodeSeq
    have ha := hc a ((v.toList.flatMap c.encode).flatten ++ rest) trivial
    unfold toBytes at ha
    simp only [ha, ih, Option.bind_eq_bind, Option.bind_some]

theorem decodeSized_flatMap (hc : Everywhere c) (q : ℕ → Prop) (l : List α) (hl : q l.length)
    (rest : Bytes) : decodeSized c q l.length hl ((l.flatMap c.encode).flatten ++ rest) =
      some (⟨l, hl⟩, rest) := by
  unfold decodeSized
  have hseq := decodeSeq_flatMap hc ⟨l, rfl⟩ rest
  rw [List.Vector.toList_mk] at hseq
  simp only [hseq, Option.bind_eq_bind, Option.bind_some, List.Vector.toList_mk]

theorem roundTrips_array (n : ℕ) (hc : Everywhere c) : RoundTrips R (array n c) := by
  intro v rest _
  exact decodeSeq_flatMap hc v rest

/-- A length is read back. -/
theorem decode_usize (n : UInt64) (rest : Bytes) :
    usize.decode ((usize.encode n).flatten ++ rest) = some (n, rest) := by
  have h : Everywhere usize := roundTrips_int fun _ => rfl
  exact h n rest trivial

theorem toNat_ofNat {n : ℕ} (hn : n < 2 ^ 64) : (UInt64.ofNat n).toNat = n := by
  rw [UInt64.toNat_ofNat']
  exact Nat.mod_eq_of_lt hn

/-- Elements take up at least a byte each. -/
theorem length_le_flatMap (hpos : ∀ v, 1 ≤ (c.toBytes v).length) (l : List α) :
    l.length ≤ (l.flatMap c.encode).flatten.length := by
  induction l with
  | nil => exact Nat.zero_le _
  | cons a l ih =>
    have ha := hpos a
    unfold toBytes at ha
    rw [List.flatMap_cons, List.flatten_append, List.length_append, List.length_cons]
    omega

theorem roundTrips_vec (hc : Everywhere c) (hpos : ∀ v, 1 ≤ (c.toBytes v).length) :
    RoundTrips R (vec c) := by
  rintro ⟨l, hl⟩ rest _
  have hlen := length_le_flatMap hpos l
  unfold toBytes vec encodeSeq
  simp only [List.flatten_append, List.append_assoc, decode_usize, Option.bind_eq_bind,
    Option.bind_some, toNat_ofNat hl]
  rw [if_neg (by rw [List.length_append]; omega)]
  exact decodeSized_flatMap hc _ l hl rest

theorem roundTrips_arrayVec (cap : UInt64) (hc : Everywhere c) :
    RoundTrips R (arrayVec cap c) := by
  rintro ⟨l, hl⟩ rest _
  have hlt := lt_of_le_of_lt hl cap.toNat_lt
  unfold toBytes arrayVec encodeSeq
  simp only [List.flatten_append, List.append_assoc, decode_usize, Option.bind_eq_bind,
    Option.bind_some, toNat_ofNat hlt]
  rw [dif_neg (by omega)]
  exact decodeSized_flatMap hc _ l hl rest

theorem decode_slice (bytes : Bytes) (h : bytes.length < 2 ^ 64) (rest : Bytes) :
    slice.decode ((usize.encode (UInt64.ofNat bytes.length) ++ [bytes]).flatten ++ rest) =
      some (⟨bytes, h⟩, rest) := by
  unfold slice
  simp only [List.flatten_append, List.append_assoc, decode_usize, Option.bind_eq_bind,
    Option.bind_some, toNat_ofNat h, List.flatten_singleton]
  rw [if_neg (by rw [List.length_append]; omega)]
  simp only [List.take_left, List.drop_left]

theorem roundTrips_slice : RoundTrips R slice := by
  rintro ⟨bytes, h⟩ rest _
  exact decode_slice bytes h rest

theorem length_asBytes (s : String) : (asBytes s).length = s.utf8ByteSize := rfl

theorem fromUtf8_asBytes (s : String) : fromUtf8 (asBytes s) = some s := by
  unfold fromUtf8 asBytes String.fromUTF8?
  rw [Array.toArray_toList]
  exact dif_pos s.isValidUTF8

theorem roundTrips_str : RoundTrips R str := by
  rintro ⟨s, hs⟩ rest _
  have hslice := decode_slice (asBytes s) (by rwa [length_asBytes]) rest
  unfold toBytes str
  simp only
  rw [← length_asBytes, hslice]
  simp only [Option.bind_eq_bind, Option.bind_some, fromUtf8_asBytes, dif_pos hs]

theorem roundTrips_arrayString (cap : UInt64) : RoundTrips R (arrayString cap) := by
  rintro ⟨s, hs⟩ rest _
  have hlt := lt_of_le_of_lt hs cap.toNat_lt
  have hslice := decode_slice (asBytes s) (by rwa [length_asBytes]) rest
  unfold toBytes arrayString
  simp only
  rw [← length_asBytes, hslice]
  simp only [Option.bind_eq_bind, Option.bind_some, fromUtf8_asBytes, dif_pos hs]

end Sequences

section Maps

variable [DecidableEq K]

/-- A map, whatever the order of its entries. -/
abbrev HashMap (K V : Type) [DecidableEq K] :=
  { m : Finmap (fun _ : K => V) // m.keys.card < 2 ^ 63 }

/-- The order in which a hasher makes a map list its entries. -/
structure Order (K V : Type) [DecidableEq K] where
  entries : HashMap K V → AList (fun _ : K => V)
  toFinmap_entries : ∀ m, (entries m).toFinmap = m.val

def encodeEntry (k : Codec K) (v : Codec V) (e : Σ _ : K, V) : List Bytes :=
  k.encode e.1 ++ v.encode e.2

def decodeEntries (k : Codec K) (v : Codec V) :
    ℕ → Finmap (fun _ : K => V) → Bytes → Option (Finmap (fun _ : K => V) × Bytes)
  | 0, m, buffer => some (m, buffer)
  | n + 1, m, buffer => do
    let (key, buffer) ← k.decode buffer
    let (value, buffer) ← v.decode buffer
    decodeEntries k v n (m.insert key value) buffer

/-- The doubled length may overflow. -/
def hashMap (order : Order K V) (k : Codec K) (v : Codec V) : Codec (HashMap K V) where
  encode m := usize.encode (UInt64.ofNat m.val.keys.card) ++
    (order.entries m).entries.flatMap (encodeEntry k v)
  decode buffer := do
    let (len, buffer) ← usize.decode buffer
    if (len * 2).toNat > buffer.length then none
    else
      let (m, buffer) ← decodeEntries k v len.toNat ∅ buffer
      -- reserving space for more entries panics
      if h : m.keys.card < 2 ^ 63 then some (⟨m, h⟩, buffer) else none

variable {R : Bytes → Prop} {k : Codec K} {v : Codec V}

theorem decodeEntries_flatMap (hk : Everywhere k) (hv : Everywhere v)
    (l : List (Σ _ : K, V)) (m : Finmap fun _ : K => V) (rest : Bytes) :
    decodeEntries k v l.length m ((l.flatMap (encodeEntry k v)).flatten ++ rest) =
      some (l.foldl (fun m e => m.insert e.1 e.2) m, rest) := by
  induction l generalizing m with
  | nil => rfl
  | cons e l ih =>
    have hkey := hk e.1 ((v.encode e.2).flatten ++
      ((l.flatMap (encodeEntry k v)).flatten ++ rest)) trivial
    have hvalue := hv e.2 ((l.flatMap (encodeEntry k v)).flatten ++ rest) trivial
    unfold toBytes at hkey hvalue
    rw [List.flatMap_cons, encodeEntry, List.length_cons, decodeEntries]
    simp only [List.flatten_append, List.append_assoc, hkey, hvalue, Option.bind_eq_bind,
      Option.bind_some, ih, List.foldl_cons]

/-- Inserted one by one, every entry is found again. -/
theorem lookup_foldl_insert {l : List (Σ _ : K, V)} (hl : l.NodupKeys)
    (m : Finmap fun _ : K => V) (a : K) :
    (l.foldl (fun m e => m.insert e.1 e.2) m).lookup a = (l.dlookup a).or (m.lookup a) := by
  induction l generalizing m with
  | nil => rfl
  | cons e l ih =>
    rw [List.nodupKeys_cons] at hl
    rw [List.foldl_cons, ih hl.2]
    by_cases ha : a = e.1
    · subst ha
      have hnone : l.dlookup e.1 = none := List.dlookup_eq_none.mpr hl.1
      rw [hnone, Finmap.lookup_insert, List.dlookup_cons_eq]
      rfl
    · rw [Finmap.lookup_insert_of_ne _ ha, List.dlookup_cons_ne _ e ha]

theorem foldl_insert_entries (s : AList fun _ : K => V) :
    s.entries.foldl (fun m e => m.insert e.1 e.2) ∅ = s.toFinmap := by
  apply Finmap.ext_lookup
  intro a
  rw [lookup_foldl_insert s.nodupKeys, Finmap.lookup_empty, Option.or_none]
  rfl

theorem length_entries (order : Order K V) (m : HashMap K V) :
    (order.entries m).entries.length = m.val.keys.card := by
  rw [← order.toFinmap_entries m]
  have hcard : (Finmap.keys (order.entries m).toFinmap).card = (order.entries m).keys.length :=
    congrArg Multiset.card (Finmap.keys_val (order.entries m))
  rw [hcard, AList.keys, List.keys, List.length_map]

omit [DecidableEq K] in
/-- Entries take up at least two bytes each. -/
theorem length_le_flatMap_entries
    (hpos : ∀ key value, 2 ≤ (k.toBytes key).length + (v.toBytes value).length)
    (l : List (Σ _ : K, V)) : l.length * 2 ≤ (l.flatMap (encodeEntry k v)).flatten.length := by
  induction l with
  | nil => exact Nat.zero_le _
  | cons e l ih =>
    have he := hpos e.1 e.2
    unfold toBytes at he
    rw [List.flatMap_cons, encodeEntry, List.flatten_append, List.flatten_append,
      List.length_append, List.length_append, List.length_cons]
    omega

theorem roundTrips_hashMap (order : Order K V) (hk : Everywhere k) (hv : Everywhere v)
    (hpos : ∀ key value, 2 ≤ (k.toBytes key).length + (v.toBytes value).length) :
    RoundTrips R (hashMap order k v) := by
  intro m rest _
  have hlen := length_le_flatMap_entries hpos (order.entries m).entries
  have hcard := m.property
  have htwice : (UInt64.ofNat m.val.keys.card * 2).toNat = m.val.keys.card * 2 := by
    rw [UInt64.toNat_mul, toNat_ofNat (by omega), show (2 : UInt64).toNat = 2 from rfl]
    exact Nat.mod_eq_of_lt (by omega)
  rw [length_entries] at hlen
  have hentries := decodeEntries_flatMap hk hv (order.entries m).entries ∅ rest
  rw [foldl_insert_entries, order.toFinmap_entries, length_entries] at hentries
  unfold toBytes hashMap
  simp only [List.flatten_append, List.append_assoc, decode_usize, Option.bind_eq_bind,
    Option.bind_some, htwice, toNat_ofNat (show m.val.keys.card < 2 ^ 64 by omega)]
  rw [if_neg (by rw [List.length_append]; omega), hentries]
  simp only [Option.bind_some, dif_pos hcard]

end Maps

/-- The bytes up to the end of the buffer. -/
def reminder : Codec Bytes := ⟨fun bytes => [bytes], fun buffer => some (buffer, [])⟩

def ownedReminder : Codec Bytes := reminder

/-- A vector of bytes in the last place of a message. -/
def unbound : Codec Bytes := reminder

theorem roundTrips_reminder : RoundTrips (· = []) reminder := by
  rintro bytes rest rfl
  unfold toBytes reminder
  rw [List.append_nil, List.flatten_singleton]

/-- The types that are put together from the implementations, with what they
demand of their parts. The flag says that a value must come last. -/
inductive Built : Bool → {α : Type} → Codec α → Prop where
  | unit {last} : Built last unit
  | bool {last} : Built last bool
  | u8 {last} : Built last u8
  | u16 {last} : Built last u16
  | u32 {last} : Built last u32
  | u64 {last} : Built last u64
  | usize {last} : Built last usize
  | slice {last} : Built last slice
  | boxSlice {last} : Built last boxSlice
  | str {last} : Built last str
  | string {last} : Built last string
  | arrayString {last} (cap : UInt64) : Built last (arrayString cap)
  | pair {last α β} {a : Codec α} {b : Codec β} : Built false a → Built last b →
      Built last (pair a b)
  | range {last α} {c : Codec α} : Built false c → Built last (range c)
  | option {last α} {c : Codec α} : Built last c → Built last (option c)
  | result {last α ε} {r : Codec α} {e : Codec ε} : Built last r → Built last e →
      Built last (result r e)
  | struct {last α β} {c : Codec β} (fields : α ≃ β) : Built last c → Built last (struct fields c)
  | enum {last α} {n : ℕ} (hn : n ≤ 255) {P : Fin n → Type} {c : ∀ i, Codec (P i)}
      (variants : α ≃ Σ i, P i) : (∀ i, Built last (c i)) → Built last (enum variants c)
  | array {last α} {c : Codec α} (n : ℕ) : Built false c → Built last (array n c)
  | arrayVec {last α} {c : Codec α} (cap : UInt64) : Built false c → Built last (arrayVec cap c)
  | vec {last α} {c : Codec α} : Built false c → (∀ v, 1 ≤ (c.toBytes v).length) →
      Built last (vec c)
  | vecDeque {last α} {c : Codec α} : Built false c → (∀ v, 1 ≤ (c.toBytes v).length) →
      Built last (vecDeque c)
  | arcSlice {last α} {c : Codec α} : Built false c → (∀ v, 1 ≤ (c.toBytes v).length) →
      Built last (arcSlice c)
  | hashMap {last K V} [DecidableEq K] {k : Codec K} {v : Codec V} (order : Order K V) :
      Built false k → Built false v →
      (∀ key value, 2 ≤ (k.toBytes key).length + (v.toBytes value).length) →
      Built last (hashMap order k v)
  | reminder : Built true reminder
  | ownedReminder : Built true ownedReminder
  | unbound : Built true unbound

/-- What may follow a value. -/
def Follows (last : Bool) (rest : Bytes) : Prop := last = true → rest = []

/-- Induction over how the type is built. -/
theorem roundTrips_of_built {last : Bool} {c : Codec α} (h : Built last c) :
    RoundTrips (Follows last) c := by
  have everywhere : ∀ {γ : Type} {c : Codec γ}, RoundTrips (Follows false) c → Everywhere c := by
    intro γ c hc v rest _
    apply hc v rest
    intro hfalse
    cases hfalse
  have atEnd : RoundTrips (Follows true) Codec.reminder := by
    intro bytes rest hrest
    exact roundTrips_reminder bytes rest (hrest rfl)
  induction h with
  | unit => exact roundTrips_unit
  | bool => exact roundTrips_bool
  | u8 => exact roundTrips_u8
  | u16 => exact roundTrips_int fun v => by simp
  | u32 => exact roundTrips_int fun v => by simp
  | u64 => exact roundTrips_int fun v => rfl
  | usize => exact roundTrips_int fun v => rfl
  | slice => exact roundTrips_slice
  | boxSlice => exact roundTrips_slice
  | str => exact roundTrips_str
  | string => exact roundTrips_str
  | arrayString cap => exact roundTrips_arrayString cap
  | pair _ _ iha ihb => exact roundTrips_pair (everywhere iha) ihb
  | range _ ih =>
    apply roundTrips_pair (everywhere ih)
    intro v rest _
    exact everywhere ih v rest trivial
  | option _ ih => exact roundTrips_option ih
  | result _ _ ihr ihe => exact roundTrips_result ihr ihe
  | struct fields _ ih => exact roundTrips_struct fields ih
  | enum hn variants _ ih => exact roundTrips_enum hn variants ih
  | array n _ ih => exact roundTrips_array n (everywhere ih)
  | arrayVec cap _ ih => exact roundTrips_arrayVec cap (everywhere ih)
  | vec _ hpos ih => exact roundTrips_vec (everywhere ih) hpos
  | vecDeque _ hpos ih => exact roundTrips_vec (everywhere ih) hpos
  | arcSlice _ hpos ih => exact roundTrips_vec (everywhere ih) hpos
  | hashMap order _ _ hpos ihk ihv =>
    exact roundTrips_hashMap order (everywhere ihk) (everywhere ihv) hpos
  | reminder => exact atEnd
  | ownedReminder => exact atEnd
  | unbound => exact atEnd

/-- Writing to a vector succeeds and reading gives the value back, before any
bytes or, for a type that takes the rest of the buffer, at its end. -/
theorem roundTrip_of_built :
    (∀ (α : Type) (c : Codec α), Built false c → ∀ v rest, ∃ bytes,
      encodeInto vecBuffer (c.encode v) [] = some bytes ∧
        c.decode (bytes ++ rest) = some (v, rest)) ∧
    ∀ (α : Type) (c : Codec α), Built true c → ∀ v, ∃ bytes,
      encodeInto vecBuffer (c.encode v) [] = some bytes ∧ c.decode bytes = some (v, []) := by
  constructor
  · intro α c hc v rest
    refine ⟨c.toBytes v, encodeInto_vec _ _, ?_⟩
    apply roundTrips_of_built hc v rest
    intro hfalse
    cases hfalse
  · intro α c hc v
    refine ⟨c.toBytes v, encodeInto_vec _ _, ?_⟩
    have h := roundTrips_of_built hc v [] fun _ => rfl
    rwa [List.append_nil] at h

/-- A number with a list of bytes, and a call with its payload. -/
theorem roundTrip_of_built_packet :
    (∃ bytes, encodeInto vecBuffer ((pair u16 (vec u8)).encode (300, ⟨[1, 2], by decide⟩)) [] =
        some bytes ∧
      (pair u16 (vec u8)).decode (bytes ++ [9]) = some ((300, ⟨[1, 2], by decide⟩), [9])) ∧
    ∃ bytes, encodeInto vecBuffer ((pair u64 (result reminder bool)).encode (7, .ok [5])) [] =
        some bytes ∧
      (pair u64 (result reminder bool)).decode bytes = some ((7, .ok [5]), []) := by
  constructor
  · exact roundTrip_of_built.1 _ _ (.pair .u16 (.vec .u8 fun _ => le_refl 1)) _ _
  · exact roundTrip_of_built.2 _ _ (.pair .u64 (.result .reminder .bool)) _

end Codec

end OrionNetwork
