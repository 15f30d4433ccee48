import OrionNetwork.Reads
import OrionNetwork.WrappedErrors

/-!
# Decoding untrusted bytes

The decoders of all types with what they reserve, index and compute. Bytes come from
a peer or from disk, so length prefixes are arbitrary. Most containers compare their
length with the bytes that are left before they reserve space. A map doubles the length
first, which overflows from `2 ^ 63` on, and the storage of a compact vector compares it
with nothing. Nothing else goes wrong on any input. An allocation for no more elements
than the input has bytes is taken to succeed.
-/
namespace OrionNetwork.CodecReads
open Codec Protocols Reads Varints WrappedErrors

variable {α β ε K V : Type}

abbrev Reader (α : Type) := Bytes → Read UInt8 α

/-- `isize::MAX` bounds every allocation. -/
def capacityLimit : ℕ := 2 ^ 63

/-- The loop of `base128_decode`, with the shift and the final slice checked. -/
def varintLoop (buffer : Bytes) : ℕ → ℕ → ℕ → ℕ → Bytes → Read UInt8 ℕ
  | 0, _, _, _, _ => .refuse buffer
  | _ + 1, _, _, _, [] => .refuse buffer
  | fuel + 1, advanced, shift, value, byte :: bytes =>
    if 64 ≤ shift then .overflow true buffer (.refuse buffer)
    else
      let value := value ||| ((byte.toNat % 128) <<< shift) % 2 ^ 64
      if byte.toNat < 128 then
        if advanced + 1 ≤ buffer.length then .pure value (buffer.drop (advanced + 1))
        else .panic buffer
      else varintLoop buffer fuel (advanced + 1) (shift + 7) value bytes

def readInt (truncate : UInt64 → α) : Reader α := fun buffer =>
  (varintLoop buffer 10 0 0 0 buffer).map fun value => truncate (UInt64.ofNat value)

def readUsize : Reader UInt64 := readInt id

/-- A byte that is no bool is not consumed. -/
def readBool : Reader Bool
  | [] => .refuse []
  | byte :: rest => if byte = 0 then .pure false rest else if byte = 1 then .pure true rest
    else .refuse (byte :: rest)

def readU8 : Reader UInt8
  | [] => .refuse []
  | byte :: rest => .pure byte rest

def readPair (a : Reader α) (b : Reader β) : Reader (α × β) := fun buffer =>
  (a buffer).bind fun first buffer => (b buffer).map fun second => (first, second)

def readOption (c : Reader α) : Reader (Option α) := fun buffer =>
  (readBool buffer).bind fun isSome buffer =>
    if isSome then (c buffer).map some else .pure none buffer

def readResult (r : Reader α) (e : Reader ε) : Reader (Except ε α) := fun buffer =>
  (readBool buffer).bind fun isOk buffer =>
    if isOk then (r buffer).map .ok else (e buffer).map .error

/-- A number of no variant is consumed. -/
def readEnum {n : ℕ} {P : Fin n → Type} (build : (Σ i, P i) → α) (c : ∀ i, Reader (P i)) : Reader α
  | [] => .refuse []
  | index :: buffer =>
    if h : index.toNat < n then (c ⟨index.toNat, h⟩ buffer).map fun v => build ⟨_, v⟩
    else .refuse buffer

def readNotFoundError (e : Reader ε) : Reader (NotFoundError ε) := fun buffer =>
  (readU8 buffer).bind fun byte buffer =>
    if byte = 0 then .pure .notFound buffer else (e buffer).map .inner

theorem length_take_lt (len : UInt64) (buffer : Bytes) :
    (buffer.take len.toNat).length < 2 ^ 64 := by
  rw [List.length_take]
  exact lt_of_le_of_lt (Nat.min_le_left _ _) len.toNat_lt

/-- `split_at` panics past the end. -/
def splitAt (len : UInt64) : Reader (Vec UInt8) := fun buffer =>
  if len.toNat ≤ buffer.length then
    .pure ⟨buffer.take len.toNat, length_take_lt len buffer⟩ (buffer.drop len.toNat)
  else .panic buffer

def readSlice : Reader (Vec UInt8) := fun buffer =>
  (readUsize buffer).bind fun len buffer =>
    if buffer.length < len.toNat then .refuse buffer else splitAt len buffer

/-- Bytes that are no text, or too long a text, are consumed. -/
def readText (q : ℕ → Prop) [DecidablePred q] : Reader { s : String // q s.utf8ByteSize } :=
  fun buffer =>
    (readSlice buffer).bind fun bytes buffer =>
      match fromUtf8 bytes.val with
      | none => .refuse buffer
      | some s => if h : q s.utf8ByteSize then .pure ⟨s, h⟩ buffer else .refuse buffer

/-- A copy of what was read. -/
def copied (size : α → ℕ) (c : Reader α) : Reader α := fun buffer =>
  (c buffer).bind fun v buffer => (Read.pure v buffer).reserve capacityLimit (size v)

section Loops

variable (c : Reader α)

def readSeq : (n : ℕ) → Reader (List.Vector α n)
  | 0 => fun buffer => .pure List.Vector.nil buffer
  | n + 1 => fun buffer =>
    (c buffer).bind fun a buffer => (readSeq n buffer).map fun as => a ::ᵥ as

/-- Pushing into a vector of fixed capacity panics when it is full. -/
def readPushed (cap : ℕ) : (n filled : ℕ) → Reader (List.Vector α n)
  | 0, _ => fun buffer => .pure List.Vector.nil buffer
  | n + 1, filled => fun buffer =>
    (c buffer).bind fun a buffer =>
      if filled < cap then (readPushed cap n (filled + 1) buffer).map fun as => a ::ᵥ as
      else .panic buffer

/-- The elements of an array are all read, also after one that was refused. -/
def readTries : (n : ℕ) → Reader (List.Vector α n)
  | 0 => fun buffer => .pure List.Vector.nil buffer
  | n + 1 => fun buffer =>
    ((c buffer).both (readTries n)).map fun as => as.1 ::ᵥ as.2

end Loops

theorem admitted_toList {q : ℕ → Prop} {n : ℕ} (hn : q n) (as : List.Vector α n) :
    q as.toList.length := by
  rwa [as.toList_length]

/-- The elements in a container that admits their number. -/
def sized (q : ℕ → Prop) {n : ℕ} (hn : q n) (x : Read UInt8 (List.Vector α n)) :
    Read UInt8 { l : List α // q l.length } :=
  x.map fun as => ⟨as.toList, admitted_toList hn as⟩

/-- The length is compared with what is left before space is reserved. -/
def readVec (c : Reader α) : Reader (Vec α) := fun buffer =>
  (readUsize buffer).bind fun len buffer =>
    if len.toNat > buffer.length then .refuse buffer
    else
      (sized (· < 2 ^ 64) len.toNat_lt (readSeq c len.toNat buffer)).reserve capacityLimit len.toNat

theorem le_of_not_many {len cap : UInt64} (h : ¬ len.toNat > cap.toNat) :
    len.toNat ≤ cap.toNat := Nat.le_of_not_lt h

def readArrayVec (cap : UInt64) (c : Reader α) : Reader (ArrayVec cap α) := fun buffer =>
  (readUsize buffer).bind fun len buffer =>
    if h : len.toNat > cap.toNat then .refuse buffer
    else sized (· ≤ cap.toNat) (le_of_not_many h) (readPushed c cap.toNat len.toNat 0 buffer)

def readEntries [DecidableEq K] (k : Reader K) (v : Reader V) :
    ℕ → Finmap (fun _ : K => V) → Reader (Finmap fun _ : K => V)
  | 0, m => fun buffer => .pure m buffer
  | n + 1, m => fun buffer =>
    (k buffer).bind fun key buffer =>
      (v buffer).bind fun value buffer => readEntries k v n (m.insert key value) buffer

/-- A map holds fewer than `2 ^ 63` entries. -/
def finishMap [DecidableEq K] (m : Finmap fun _ : K => V) : Reader (HashMap K V) := fun buffer =>
  if h : m.keys.card < 2 ^ 63 then .pure ⟨m, h⟩ buffer else .panic buffer

/-- The doubled length is compared with what is left, and as many entries as the length
says are reserved. -/
def readMap [DecidableEq K] (checks : Bool) (k : Reader K) (v : Reader V) : Reader (HashMap K V) :=
  fun buffer =>
    (readUsize buffer).bind fun len buffer =>
      let checked := if (len * 2).toNat > buffer.length then .refuse buffer
        else ((readEntries k v len.toNat ∅ buffer).bind finishMap).reserve capacityLimit len.toNat
      if 2 ^ 64 ≤ len.toNat * 2 then .overflow checks buffer checked else checked

/-- Both halves of the storage of a compact vector. -/
abbrev SimdStorage (α : Type) :=
  Σ len : UInt64, List.Vector α len.toNat × List.Vector α len.toNat

def simdStorage (c : Codec α) : Codec (SimdStorage α) where
  encode v := usize.encode v.1 ++ (v.2.1.toList ++ v.2.2.toList).flatMap c.encode
  decode buffer := do
    let (len, buffer) ← usize.decode buffer
    let (left, buffer) ← decodeSeq c len.toNat buffer
    let (right, buffer) ← decodeSeq c len.toNat buffer
    some (⟨len, left, right⟩, buffer)

def lanes : ℕ := 64

/-- `ensure_capacity` of an empty storage, in elements of both halves. -/
def ensureCapacity (len : ℕ) : ℕ :=
  if 0 < len then ((len + lanes - 1) / lanes).nextPowerOfTwo * lanes * 2 else 0

def readHalves (c : Reader α) (len : UInt64) : Reader (SimdStorage α) := fun buffer =>
  (readSeq c len.toNat buffer).bind fun left buffer =>
    (readSeq c len.toNat buffer).map fun right => ⟨len, left, right⟩

/-- The length is compared with nothing. -/
def readSimdStorage (checks : Bool) (size : ℕ) (c : Reader α) : Reader (SimdStorage α) :=
  fun buffer =>
    (readUsize buffer).bind fun len buffer =>
      let halves := readHalves c len buffer
      let capacity := ensureCapacity len.toNat
      -- unchecked, the storage is too small for what is written to it
      if 2 ^ 64 ≤ len.toNat + lanes ∨ 2 ^ 64 ≤ capacity * size then .overflow checks buffer halves
      -- an allocation that fails is written to all the same
      else if capacityLimit ≤ capacity * size then .panic buffer
      else halves.reserve capacityLimit capacity

/-- A codec with its reader and the inputs on which a length is met that is too large for
what is computed or reserved, with the bound on what may be reserved. -/
structure Decoder (α : Type) where
  codec : Codec α
  read : Reader α
  hazard : ℕ → Bytes → Prop

/-- After a value that is read, something is met in what it leaves. -/
def Later (plain : Option (α × Bytes)) (hazard : α → Bytes → Prop) : Prop :=
  ∃ a rest, plain = some (a, rest) ∧ hazard a rest

/-- The bytes left of an input of the length in question, which is that of a slice. -/
structure Fits (bound : ℕ) (buffer : Bytes) : Prop where
  le : buffer.length ≤ bound
  lt : buffer.length < capacityLimit

theorem Fits.suffix {bound : ℕ} {buffer rest : Bytes} (h : Fits bound buffer)
    (hrest : rest <:+ buffer) : Fits bound rest :=
  ⟨hrest.length_le.trans h.le, lt_of_le_of_lt hrest.length_le h.lt⟩

/-- As much space as there are bytes may be reserved. -/
theorem Fits.reserve {bound n : ℕ} {buffer rest : Bytes} {x : Read UInt8 α}
    {plain : Option (α × Bytes)} {hazard : Prop} (h : Fits bound buffer) (hn : n ≤ buffer.length)
    (hx : Read.Sound bound rest x plain hazard) :
    Read.Sound bound rest (x.reserve capacityLimit n) plain hazard :=
  hx.reserveFew (lt_of_le_of_lt hn h.lt) (hn.trans h.le)

namespace Decoder

def Sound (d : Decoder α) : Prop :=
  ∀ {bound : ℕ} {buffer : Bytes}, Fits bound buffer →
    Read.Sound bound buffer (d.read buffer) (d.codec.decode buffer) (d.hazard bound buffer)

/-- No part of the type is a map. -/
def leaf (codec : Codec α) (read : Reader α) : Decoder α := ⟨codec, read, fun _ _ => False⟩

def unit : Decoder Unit := leaf Codec.unit fun buffer => .pure () buffer

def bool : Decoder Bool := leaf Codec.bool readBool

def u8 : Decoder UInt8 := leaf Codec.u8 readU8

def int (widen : α → UInt64) (truncate : UInt64 → α) : Decoder α :=
  leaf (Codec.int widen truncate) (readInt truncate)

def pair (a : Decoder α) (b : Decoder β) : Decoder (α × β) where
  codec := Codec.pair a.codec b.codec
  read := readPair a.read b.read
  hazard bound buffer :=
    a.hazard bound buffer ∨ Later (a.codec.decode buffer) fun _ rest => b.hazard bound rest

def range (c : Decoder α) : Decoder (α × α) := pair c c

def option (c : Decoder α) : Decoder (Option α) where
  codec := Codec.option c.codec
  read := readOption c.read
  hazard bound buffer := Later (Codec.bool.decode buffer) fun isSome rest =>
    isSome = true ∧ c.hazard bound rest

def result (r : Decoder α) (e : Decoder ε) : Decoder (Except ε α) where
  codec := Codec.result r.codec e.codec
  read := readResult r.read e.read
  hazard bound buffer := Later (Codec.bool.decode buffer) fun isOk rest =>
    (isOk = true ∧ r.hazard bound rest) ∨ (isOk = false ∧ e.hazard bound rest)

/-- A derived struct. Fields that are skipped get their default. -/
def struct (fields : α → β) (build : β → α) (c : Decoder β) : Decoder α where
  codec := ⟨fun v => c.codec.encode (fields v),
    fun buffer => (c.codec.decode buffer).bind fun r => some (build r.1, r.2)⟩
  read buffer := (c.read buffer).map build
  hazard := c.hazard

/-- A derived enum. -/
def enum {n : ℕ} {P : Fin n → Type} (variants : α → Σ i, P i) (build : (Σ i, P i) → α)
    (c : ∀ i, Decoder (P i)) : Decoder α where
  codec := ⟨fun v => encodeVariant (fun i => (c i).codec) (variants v), fun
    | [] => none
    | index :: buffer =>
      if h : index.toNat < n then
        ((c ⟨index.toNat, h⟩).codec.decode buffer).bind fun r => some (build ⟨_, r.1⟩, r.2)
      else none⟩
  read := readEnum build fun i => (c i).read
  hazard bound buffer := ∃ index rest, buffer = index :: rest ∧
    ∃ h : index.toNat < n, (c ⟨index.toNat, h⟩).hazard bound rest

/-- The only codec of an error that is written by hand. -/
def notFoundError (e : Decoder ε) : Decoder (NotFoundError ε) where
  codec := Protocols.notFoundError e.codec
  read := readNotFoundError e.read
  hazard bound buffer := Later (Codec.u8.decode buffer) fun byte rest =>
    byte ≠ 0 ∧ e.hazard bound rest

/-- A type without values. -/
def infallible : Decoder Empty := leaf ⟨Empty.elim, fun _ => none⟩ fun buffer => .refuse buffer

def slice : Decoder (Vec UInt8) := leaf Codec.slice readSlice

def boxSlice : Decoder (Vec UInt8) :=
  leaf Codec.boxSlice (copied (fun bytes => bytes.val.length) readSlice)

def str : Decoder Str := leaf Codec.str (readText (· < 2 ^ 64))

def string : Decoder Str :=
  leaf Codec.string (copied (fun s => s.val.utf8ByteSize) (readText (· < 2 ^ 64)))

def arrayString (cap : UInt64) : Decoder (ArrayString cap) :=
  leaf (Codec.arrayString cap) (readText (· ≤ cap.toNat))

def reminder : Decoder Bytes := leaf Codec.reminder fun buffer => .pure buffer []

def ownedReminder : Decoder Bytes :=
  leaf Codec.ownedReminder (copied List.length fun buffer => .pure buffer [])

def unbound : Decoder Bytes := leaf Codec.unbound (copied List.length fun buffer => .pure buffer [])

/-- Among a number of values one after the other. -/
def seqHazard (c : Decoder α) (bound : ℕ) : ℕ → Bytes → Prop
  | 0, _ => False
  | n + 1, buffer =>
    c.hazard bound buffer ∨ Later (c.codec.decode buffer) fun _ rest => c.seqHazard bound n rest

/-- The same where a refusal does not end the loop. -/
def triesHazard (c : Decoder α) (bound : ℕ) : ℕ → Bytes → Prop
  | 0, _ => False
  | n + 1, buffer => c.hazard bound buffer ∨ c.triesHazard bound n (c.read buffer).rest

def array (n : ℕ) (c : Decoder α) : Decoder (List.Vector α n) :=
  ⟨Codec.array n c.codec, readTries c.read n, fun bound => c.triesHazard bound n⟩

def vec (c : Decoder α) : Decoder (Vec α) where
  codec := Codec.vec c.codec
  read := readVec c.read
  hazard bound buffer := Later (usize.decode buffer) fun len rest =>
    len.toNat ≤ rest.length ∧ c.seqHazard bound len.toNat rest

def vecDeque (c : Decoder α) : Decoder (Vec α) := { vec c with codec := Codec.vecDeque c.codec }

def arcSlice (c : Decoder α) : Decoder (Vec α) where
  codec := Codec.arcSlice c.codec
  read := copied (fun elements => elements.val.length) (readVec c.read)
  hazard := (vec c).hazard

def arrayVec (cap : UInt64) (c : Decoder α) : Decoder (ArrayVec cap α) where
  codec := Codec.arrayVec cap c.codec
  read := readArrayVec cap c.read
  hazard bound buffer := Later (usize.decode buffer) fun len rest =>
    len.toNat ≤ cap.toNat ∧ c.seqHazard bound len.toNat rest

/-- A length from `2 ^ 63` on, or a map inside an entry. -/
def hashMap [DecidableEq K] (checks : Bool) (order : Order K V) (k : Decoder K) (v : Decoder V) :
    Decoder (HashMap K V) where
  codec := Codec.hashMap order k.codec v.codec
  read := readMap checks k.read v.read
  hazard bound buffer := Later (usize.decode buffer) fun len rest =>
    2 ^ 63 ≤ len.toNat ∨
      (len.toNat * 2 ≤ rest.length ∧ (pair k v).seqHazard bound len.toNat rest)

/-- A length whose capacity is above the bound or that overflows on the way to it. -/
def simdStorage (checks : Bool) (size : ℕ) (c : Decoder α) : Decoder (SimdStorage α) where
  codec := CodecReads.simdStorage c.codec
  read := readSimdStorage checks size c.read
  hazard bound buffer := Later (usize.decode buffer) fun len rest =>
    2 ^ 64 ≤ len.toNat + lanes ∨ capacityLimit ≤ ensureCapacity len.toNat * size ∨
      bound < ensureCapacity len.toNat ∨ c.seqHazard bound len.toNat rest ∨
      Later (decodeSeq c.codec len.toNat rest) fun _ rest => c.seqHazard bound len.toNat rest

end Decoder

section Leaves

/-- The loop does what the plain one does: the shift stays below the width, and the
slice after the last byte is inside. -/
theorem varintLoop_eq {buffer bytes : Bytes} {fuel advanced shift value : ℕ}
    (hbytes : bytes = buffer.drop advanced) (hshift : shift = 7 * advanced)
    (hfuel : fuel + advanced = 10) :
    varintLoop buffer fuel advanced shift value bytes =
      (base128DecodeLoop fuel shift value bytes).elim (.refuse buffer) fun r => .pure r.1 r.2 := by
  induction fuel generalizing advanced shift value bytes with
  | zero => rfl
  | succ fuel ih =>
    cases bytes with
    | nil => rfl
    | cons byte bytes =>
      have hinside : advanced < buffer.length := by
        by_contra houtside
        rw [List.drop_of_length_le (Nat.le_of_not_lt houtside)] at hbytes
        cases hbytes
      have hrest : bytes = buffer.drop (advanced + 1) := by
        rw [← List.tail_drop, ← hbytes, List.tail_cons]
      rw [varintLoop, base128DecodeLoop, if_neg (by omega)]
      by_cases hlast : byte.toNat < 128
      · have hslice : advanced + 1 ≤ buffer.length := hinside
        rw [if_pos hlast, if_pos hlast, if_pos hslice, Option.elim_some, hrest]
      · rw [if_neg hlast, if_neg hlast]
        exact ih hrest (by omega) (by omega)

theorem sound_int (widen : α → UInt64) (truncate : UInt64 → α) :
    (Decoder.int widen truncate).Sound := by
  intro bound buffer _
  change Read.Sound bound buffer (readInt truncate buffer)
    ((base128Decode buffer).map fun r => (truncate r.1, r.2)) False
  have hplain : varintLoop buffer 10 0 0 0 buffer =
      (base128DecodeLoop 10 0 0 buffer).elim (.refuse buffer) fun r => .pure r.1 r.2 :=
    varintLoop_eq rfl rfl rfl
  unfold readInt base128Decode
  rw [hplain]
  cases hloop : base128DecodeLoop 10 0 0 buffer with
  | none => exact .refuse List.suffix_rfl
  | some r =>
    obtain ⟨bytes, hsplit, -, -⟩ := base128DecodeLoop_spelled hloop
    exact .pure _ ⟨bytes, hsplit.symm⟩

theorem sound_usize {bound : ℕ} {buffer : Bytes} (hfits : Fits bound buffer) :
    Read.Sound bound buffer (readUsize buffer) (usize.decode buffer) False := sound_int id id hfits

theorem sound_unit : Decoder.unit.Sound := by
  intro bound buffer _
  exact .pure () List.suffix_rfl

theorem sound_bool : Decoder.bool.Sound := by
  intro bound buffer _
  change Read.Sound bound buffer (readBool buffer) (Codec.bool.decode buffer) False
  cases buffer with
  | nil => exact .refuse List.suffix_rfl
  | cons byte rest =>
    simp only [readBool, Codec.bool]
    split_ifs
    · exact .pure false (List.suffix_cons byte rest)
    · exact .pure true (List.suffix_cons byte rest)
    · exact .refuse List.suffix_rfl

theorem sound_u8 : Decoder.u8.Sound := by
  intro bound buffer _
  cases buffer with
  | nil => exact .refuse List.suffix_rfl
  | cons byte rest => exact .pure byte (List.suffix_cons byte rest)

end Leaves

section Compound

variable {a : Decoder α} {b : Decoder β} {c : Decoder α} {e : Decoder ε}

/-- What is known of a reader holds for the end of an input that is small enough. -/
theorem Decoder.Sound.at {bound : ℕ} {buffer rest : Bytes} (h : c.Sound) (hfits : Fits bound buffer)
    (hrest : rest <:+ buffer) :
    Read.Sound bound buffer (c.read rest) (c.codec.decode rest) (c.hazard bound rest) :=
  (h (hfits.suffix hrest)).longer hrest

theorem sound_pair (ha : a.Sound) (hb : b.Sound) : (Decoder.pair a b).Sound := by
  intro bound buffer hfits
  unfold Decoder.pair readPair Codec.pair Later
  dsimp only [Option.bind_eq_bind]
  exact (ha hfits).bind fun first rest _ hrest => (hb.at hfits hrest).map _

theorem sound_option (hc : c.Sound) : (Decoder.option c).Sound := by
  intro bound buffer hfits
  unfold Decoder.option readOption Codec.option Later
  dsimp only [Option.bind_eq_bind]
  refine (sound_bool hfits).bindClear fun isSome rest _ hrest => ?_
  cases isSome with
  | false => exact (Read.Sound.pure none hrest).congr (by simp)
  | true => exact ((hc.at hfits hrest).map some).congr (by simp)

theorem sound_result (hc : c.Sound) (he : e.Sound) : (Decoder.result c e).Sound := by
  intro bound buffer hfits
  unfold Decoder.result readResult Codec.result Later
  dsimp only [Option.bind_eq_bind]
  refine (sound_bool hfits).bindClear fun isOk rest _ hrest => ?_
  cases isOk with
  | false => exact ((he.at hfits hrest).map Except.error).congr (by simp)
  | true => exact ((hc.at hfits hrest).map Except.ok).congr (by simp)

theorem sound_struct (fields : β → α) (build : α → β) (hc : c.Sound) :
    (Decoder.struct fields build c).Sound := by
  intro bound buffer hfits
  exact (hc hfits).map build

theorem sound_enum {n : ℕ} {P : Fin n → Type} (variants : α → Σ i, P i) (build : (Σ i, P i) → α)
    {c : ∀ i, Decoder (P i)} (hc : ∀ i, (c i).Sound) : (Decoder.enum variants build c).Sound := by
  intro bound buffer hfits
  cases buffer with
  | nil =>
    refine (Read.Sound.refuse List.suffix_rfl).congr ?_
    simp [Decoder.enum]
  | cons index rest =>
    have hrest : rest <:+ index :: rest := List.suffix_cons index rest
    simp only [Decoder.enum, readEnum]
    by_cases hindex : index.toNat < n
    · simp only [dif_pos hindex]
      refine ((Decoder.Sound.at (hc ⟨index.toNat, hindex⟩) hfits hrest).map _).congr ?_
      simp [hindex]
    · simp only [dif_neg hindex]
      refine (Read.Sound.refuse hrest).congr ?_
      simp [hindex]

end Compound

section Texts

/-- A copy of no more than the input is small enough to be reserved. -/
theorem sound_copied {size : α → ℕ} {c : Decoder α} (hc : c.Sound)
    (hsize : ∀ buffer v rest, c.codec.decode buffer = some (v, rest) → size v ≤ buffer.length) :
    (⟨c.codec, copied size c.read, c.hazard⟩ : Decoder α).Sound := by
  intro bound buffer hfits
  have hcopy : Read.Sound bound buffer (copied size c.read buffer)
      ((c.codec.decode buffer).bind fun r => some r) (c.hazard bound buffer) := by
    refine (hc hfits).bindCalm fun v rest hv hrest => ?_
    exact hfits.reserve (hsize buffer v rest hv) (.pure v hrest)
  exact hcopy.plain_eq (Option.bind_fun_some _)

theorem sound_infallible : Decoder.infallible.Sound := by
  intro bound buffer _
  exact .refuse List.suffix_rfl

theorem sound_slice : Decoder.slice.Sound := by
  intro bound buffer hfits
  unfold Decoder.slice Decoder.leaf readSlice Codec.slice
  dsimp only [Option.bind_eq_bind]
  refine (sound_usize hfits).bindCalm fun len rest _ hrest => ?_
  unfold splitAt
  dsimp only
  by_cases hshort : rest.length < len.toNat
  · rw [if_pos hshort, if_pos hshort]
    exact .refuse hrest
  · rw [if_neg hshort, if_neg hshort, if_pos (Nat.le_of_not_lt hshort)]
    exact .pure _ ((List.drop_suffix _ _).trans hrest)

theorem length_le_toBytes_slice (bytes : Vec UInt8) :
    bytes.val.length ≤ (Codec.slice.toBytes bytes).length := by
  unfold toBytes Codec.slice
  simp

theorem length_le_of_decode_slice (buffer : Bytes) (bytes : Vec UInt8) (rest : Bytes)
    (h : Codec.slice.decode buffer = some (bytes, rest)) : bytes.val.length ≤ buffer.length := by
  have hwritten := economical_slice buffer bytes rest h
  have hbytes := length_le_toBytes_slice bytes
  omega

theorem sound_boxSlice : Decoder.boxSlice.Sound :=
  sound_copied sound_slice length_le_of_decode_slice

theorem sound_text (q : ℕ → Prop) [DecidablePred q] {bound : ℕ}
    {buffer : Bytes} (hfits : Fits bound buffer) :
    Read.Sound bound buffer (readText q buffer)
      ((Codec.slice.decode buffer).bind fun r => (fromUtf8 r.1.val).bind fun s =>
        if h : q s.utf8ByteSize then some (⟨s, h⟩, r.2) else none) False := by
  refine (sound_slice hfits).bindCalm fun bytes rest _ hrest => ?_
  dsimp only
  cases fromUtf8 bytes.val with
  | none => exact .refuse hrest
  | some s =>
    dsimp only [Option.bind_some]
    by_cases hadmitted : q s.utf8ByteSize
    · rw [dif_pos hadmitted, dif_pos hadmitted]
      exact .pure _ hrest
    · rw [dif_neg hadmitted, dif_neg hadmitted]
      exact .refuse hrest

theorem sound_str : Decoder.str.Sound := by
  intro bound buffer hfits
  exact sound_text (· < 2 ^ 64) hfits

theorem sound_arrayString (cap : UInt64) : (Decoder.arrayString cap).Sound := by
  intro bound buffer hfits
  exact sound_text (· ≤ cap.toNat) hfits

theorem sound_string : Decoder.string.Sound := by
  refine sound_copied sound_str fun buffer s rest h => ?_
  obtain ⟨bytes, hslice, htext⟩ := slice_of_text (q := (· < 2 ^ 64)) h
  rw [← length_asBytes, asBytes_of_fromUtf8 htext]
  exact length_le_of_decode_slice _ _ _ hslice

theorem sound_reminder : Decoder.reminder.Sound := by
  intro bound buffer _
  exact .pure buffer List.nil_suffix

theorem sound_unbound : Decoder.unbound.Sound := by
  refine sound_copied sound_reminder ?_
  rintro buffer bytes rest ⟨⟩
  exact Nat.le_refl _

theorem sound_ownedReminder : Decoder.ownedReminder.Sound := sound_unbound

end Texts

section Containers

variable {c : Decoder α}

theorem sound_seq (hc : c.Sound) (n : ℕ) {bound : ℕ} {buffer : Bytes}
    (hfits : Fits bound buffer) :
    Read.Sound bound buffer (readSeq c.read n buffer) (decodeSeq c.codec n buffer)
      (c.seqHazard bound n buffer) := by
  induction n generalizing buffer with
  | zero => exact .pure _ List.suffix_rfl
  | succ n ih =>
    unfold readSeq decodeSeq Decoder.seqHazard Later
    dsimp only [Option.bind_eq_bind]
    refine (hc hfits).bind fun a rest _ hrest => ?_
    have hothers := ih (hfits.suffix hrest)
    exact (hothers.longer hrest).map _

/-- There is room for every element, so the push never panics. -/
theorem readPushed_eq (read : Reader α) {cap n filled : ℕ} (h : filled + n ≤ cap) :
    readPushed read cap n filled = readSeq read n := by
  induction n generalizing filled with
  | zero => rfl
  | succ n ih =>
    funext buffer
    have hfilled : filled < cap := by omega
    have hothers : readPushed read cap n (filled + 1) = readSeq read n := ih (by omega)
    simp only [readPushed, readSeq, if_pos hfilled, hothers]

theorem sound_tries (hc : c.Sound) (n : ℕ) {bound : ℕ} {buffer : Bytes}
    (hfits : Fits bound buffer) :
    Read.Sound bound buffer (readTries c.read n buffer) (decodeSeq c.codec n buffer)
      (c.triesHazard bound n buffer) := by
  induction n generalizing buffer with
  | zero => exact .pure _ List.suffix_rfl
  | succ n ih =>
    unfold readTries decodeSeq Decoder.triesHazard
    dsimp only [Option.bind_eq_bind]
    have hboth := (hc hfits).both fun hrest =>
      (ih (hfits.suffix hrest)).longer hrest
    refine (hboth.map fun as => as.1 ::ᵥ as.2).plain_eq ?_
    simp only [Option.bind_assoc, Option.bind_some]

theorem sound_array (n : ℕ) (hc : c.Sound) : (Decoder.array n c).Sound := by
  intro bound buffer hfits
  exact sound_tries hc n hfits

theorem sound_sized {q : ℕ → Prop} {bound n : ℕ} (hn : q n) {codec : Codec α}
    {buffer rest : Bytes} {x : Read UInt8 (List.Vector α n)} {hazard : Prop}
    (hx : Read.Sound bound buffer x (decodeSeq codec n rest) hazard) :
    Read.Sound bound buffer (sized q hn x) (decodeSized codec q n hn rest) hazard := hx.map _

theorem sound_vec (hc : c.Sound) : (Decoder.vec c).Sound := by
  intro bound buffer hfits
  unfold Decoder.vec readVec Codec.vec Later
  dsimp only [Option.bind_eq_bind]
  refine (sound_usize hfits).bindClear fun len rest _ hrest => ?_
  have hinner := hfits.suffix hrest
  by_cases hmany : len.toNat > rest.length
  · rw [if_pos hmany, if_pos hmany]
    refine (Read.Sound.refuse hrest).congr ?_
    simp only [false_iff, not_and]
    omega
  · rw [if_neg hmany, if_neg hmany]
    have hfew : len.toNat ≤ rest.length := Nat.le_of_not_lt hmany
    have helements := sound_sized (q := (· < 2 ^ 64)) len.toNat_lt (sound_seq hc len.toNat hinner)
    refine ((hinner.reserve hfew helements).longer hrest).congr ?_
    rw [and_iff_right hfew]

theorem sound_vecDeque (hc : c.Sound) : (Decoder.vecDeque c).Sound := sound_vec hc

/-- As many elements as there were bytes at most. -/
theorem length_le_of_decode_vec (codec : Codec α) (buffer : Bytes) (v : Vec α) (rest : Bytes)
    (h : (Codec.vec codec).decode buffer = some (v, rest)) : v.val.length ≤ buffer.length := by
  obtain ⟨⟨len, middle⟩, hlen, h⟩ := Option.bind_eq_some_iff.mp h
  have hprefix := length_usize_le hlen (Nat.le_refl _)
  simp only at h
  split_ifs at h with hmany
  obtain ⟨⟨as, rest'⟩, -, h⟩ := Option.bind_eq_some_iff.mp h
  cases h
  rw [as.toList_length]
  omega

theorem sound_arcSlice (hc : c.Sound) : (Decoder.arcSlice c).Sound :=
  sound_copied (sound_vec hc) (length_le_of_decode_vec c.codec)

theorem sound_arrayVec (cap : UInt64) (hc : c.Sound) : (Decoder.arrayVec cap c).Sound := by
  intro bound buffer hfits
  unfold Decoder.arrayVec readArrayVec Codec.arrayVec Later
  dsimp only [Option.bind_eq_bind]
  refine (sound_usize hfits).bindClear fun len rest _ hrest => ?_
  have hinner := hfits.suffix hrest
  by_cases hmany : len.toNat > cap.toNat
  · rw [dif_pos hmany, dif_pos hmany]
    refine (Read.Sound.refuse hrest).congr ?_
    simp only [false_iff, not_and]
    omega
  · rw [dif_neg hmany, dif_neg hmany]
    have hfew : len.toNat ≤ cap.toNat := Nat.le_of_not_lt hmany
    rw [readPushed_eq c.read (by omega)]
    refine ((sound_sized _ (sound_seq hc len.toNat hinner)).longer hrest).congr ?_
    rw [and_iff_right hfew]

end Containers

section Maps

variable {k : Decoder K} {v : Decoder V}

/-- The entries are read like pairs one after the other. -/
theorem seqHazard_pair (bound n : ℕ) (buffer : Bytes) :
    (Decoder.pair k v).seqHazard bound (n + 1) buffer ↔
      k.hazard bound buffer ∨ Later (k.codec.decode buffer) fun _ rest =>
        v.hazard bound rest ∨ Later (v.codec.decode rest) fun _ rest =>
          (Decoder.pair k v).seqHazard bound n rest := by
  have hpair : Later ((Codec.pair k.codec v.codec).decode buffer)
        (fun _ rest => (Decoder.pair k v).seqHazard bound n rest) ↔
      Later (k.codec.decode buffer) fun _ rest => Later (v.codec.decode rest) fun _ rest =>
        (Decoder.pair k v).seqHazard bound n rest := by
    unfold Later Codec.pair
    simp only [Option.bind_eq_bind, Option.bind_eq_some_iff, Prod.exists, Option.some.injEq,
      Prod.mk.injEq]
    constructor
    · rintro ⟨_, _, _, ⟨key, middle, hkey, value, rest, hvalue, ⟨rfl, rfl⟩, rfl⟩, h⟩
      exact ⟨key, middle, hkey, value, rest, hvalue, h⟩
    · rintro ⟨key, middle, hkey, value, rest, hvalue, h⟩
      exact ⟨_, _, _, ⟨key, middle, hkey, value, rest, hvalue, ⟨rfl, rfl⟩, rfl⟩, h⟩
  rw [Decoder.seqHazard]
  change (k.hazard bound buffer ∨ _) ∨ Later ((Codec.pair k.codec v.codec).decode buffer) _ ↔ _
  rw [hpair, or_assoc]
  refine or_congr_right ?_
  unfold Later
  simp only [and_or_left, exists_or]

variable [DecidableEq K]

theorem sound_entries (hk : k.Sound) (hv : v.Sound) (n : ℕ) (m : Finmap fun _ : K => V)
    {bound : ℕ} {buffer : Bytes} (hfits : Fits bound buffer) :
    Read.Sound bound buffer (readEntries k.read v.read n m buffer)
      (decodeEntries k.codec v.codec n m buffer) ((Decoder.pair k v).seqHazard bound n buffer) := by
  induction n generalizing m buffer with
  | zero => exact .pure _ List.suffix_rfl
  | succ n ih =>
    rw [seqHazard_pair]
    unfold readEntries decodeEntries Later
    dsimp only [Option.bind_eq_bind]
    refine (hk hfits).bind fun key middle _ hmiddle => ?_
    refine (hv.at hfits hmiddle).bind fun value rest _ hrest => ?_
    exact (ih (m.insert key value) (hfits.suffix hrest)).longer hrest

/-- The entries never get too many for a map. -/
theorem sound_finished (hk : k.Sound) (hv : v.Sound) {n : ℕ} (hn : n < 2 ^ 63) {bound : ℕ}
    {buffer : Bytes} (hfits : Fits bound buffer) :
    Read.Sound bound buffer ((readEntries k.read v.read n ∅ buffer).bind finishMap)
      ((decodeEntries k.codec v.codec n ∅ buffer).bind fun r =>
        if h : r.1.keys.card < 2 ^ 63 then some (⟨r.1, h⟩, r.2) else none)
      ((Decoder.pair k v).seqHazard bound n buffer) := by
  refine (sound_entries hk hv n ∅ hfits).bindCalm fun m rest hm hrest => ?_
  have hempty : (∅ : Finmap fun _ : K => V).keys.card = 0 := by simp
  have hcard : m.keys.card < 2 ^ 63 := by
    have hadded := card_decodeEntries hm
    omega
  unfold finishMap
  rw [dif_pos hcard, dif_pos hcard]
  exact .pure _ hrest

theorem sound_hashMap (checks : Bool) (order : Order K V) (hk : k.Sound) (hv : v.Sound) :
    (Decoder.hashMap checks order k v).Sound := by
  intro bound buffer hfits
  unfold Decoder.hashMap readMap Codec.hashMap Later
  dsimp only [Option.bind_eq_bind]
  refine (sound_usize hfits).bindClear fun len rest _ hrest => ?_
  have hinner := hfits.suffix hrest
  dsimp only
  by_cases hlarge : 2 ^ 64 ≤ len.toNat * 2
  · rw [if_pos hlarge]
    exact .overflow (.inl (by omega))
  · rw [if_neg hlarge]
    have hdoubled : (len * 2).toNat = len.toNat * 2 := by
      rw [UInt64.toNat_mul]
      exact Nat.mod_eq_of_lt (Nat.lt_of_not_le hlarge)
    have hsmall : ¬ 2 ^ 63 ≤ len.toNat := by omega
    rw [hdoubled]
    by_cases hmany : len.toNat * 2 > rest.length
    · rw [if_pos hmany, if_pos hmany]
      refine (Read.Sound.refuse hrest).congr ?_
      simp only [hsmall, false_or, false_iff, not_and]
      omega
    · rw [if_neg hmany, if_neg hmany]
      have hfew : len.toNat ≤ rest.length := by omega
      have hfinished := sound_finished hk hv (Nat.lt_of_not_le hsmall) hinner
      refine ((hinner.reserve hfew hfinished).longer hrest).congr ?_
      simp only [hsmall, false_or, and_iff_right (Nat.le_of_not_lt hmany)]

end Maps

theorem sound_notFoundError {e : Decoder ε} (he : e.Sound) : (Decoder.notFoundError e).Sound := by
  intro bound buffer hfits
  have hplain : (Protocols.notFoundError e.codec).decode buffer =
      (Codec.u8.decode buffer).bind fun r => if r.1 = 0 then some (.notFound, r.2)
        else (e.codec.decode r.2).bind fun r => some (.inner r.1, r.2) := by
    cases buffer with
    | nil => rfl
    | cons byte rest => rfl
  unfold Decoder.notFoundError readNotFoundError Later
  dsimp only
  rw [hplain]
  refine (sound_u8 hfits).bindClear fun byte rest _ hrest => ?_
  dsimp only
  by_cases hzero : byte = 0
  · rw [if_pos hzero, if_pos hzero]
    exact (Read.Sound.pure _ hrest).congr (by simp [hzero])
  · rw [if_neg hzero, if_neg hzero]
    exact ((he.at hfits hrest).map _).congr (by simp [hzero])

theorem sound_halves {c : Decoder α} (hc : c.Sound) (len : UInt64) {bound : ℕ} {buffer : Bytes}
    (hfits : Fits bound buffer) :
    Read.Sound bound buffer (readHalves c.read len buffer)
      ((decodeSeq c.codec len.toNat buffer).bind fun left =>
        (decodeSeq c.codec len.toNat left.2).bind fun right =>
          some (⟨len, left.1, right.1⟩, right.2))
      (c.seqHazard bound len.toNat buffer ∨ Later (decodeSeq c.codec len.toNat buffer)
        fun _ rest => c.seqHazard bound len.toNat rest) := by
  refine (sound_seq hc len.toNat hfits).bind fun left rest _ hrest => ?_
  exact ((sound_seq hc len.toNat (hfits.suffix hrest)).longer hrest).map _

theorem sound_simdStorage (checks : Bool) {size : ℕ} (hsize : 0 < size) {c : Decoder α}
    (hc : c.Sound) : (Decoder.simdStorage checks size c).Sound := by
  intro bound buffer hfits
  unfold Decoder.simdStorage readSimdStorage simdStorage Later
  dsimp only [Option.bind_eq_bind]
  refine (sound_usize hfits).bindClear fun len rest _ hrest => ?_
  have hinner := hfits.suffix hrest
  dsimp only
  by_cases hoverflow : 2 ^ 64 ≤ len.toNat + lanes ∨ 2 ^ 64 ≤ ensureCapacity len.toNat * size
  · rw [if_pos hoverflow]
    refine .overflow ?_
    unfold capacityLimit
    omega
  · rw [if_neg hoverflow]
    by_cases hfails : capacityLimit ≤ ensureCapacity len.toNat * size
    · rw [if_pos hfails]
      exact .of_not_calm (Read.not_calm_panic rest) (.inr (.inl hfails))
    · rw [if_neg hfails]
      have hreserve := (sound_halves hc len hinner).reserve capacityLimit (ensureCapacity len.toNat)
      refine (hreserve.longer hrest).congr ?_
      have hcapacity : ¬ capacityLimit ≤ ensureCapacity len.toNat := by
        have hscaled := Nat.le_mul_of_pos_right (ensureCapacity len.toNat) hsize
        omega
      have hsum : ¬ 2 ^ 64 ≤ len.toNat + lanes := fun hsum => hoverflow (.inl hsum)
      rw [or_iff_right hcapacity, or_iff_right hsum, or_iff_right hfails]
      rfl

/-- The types with a codec, as they are put together. The flag says whether some part is a
map or the storage of a compact vector. -/
inductive Known (checks : Bool) : Bool → {α : Type} → Decoder α → Prop where
  | unit {wide} : Known checks wide .unit
  | infallible {wide} : Known checks wide .infallible
  | bool {wide} : Known checks wide .bool
  | u8 {wide} : Known checks wide .u8
  | int {wide} {α : Type} (widen : α → UInt64) (truncate : UInt64 → α) :
      Known checks wide (.int widen truncate)
  | slice {wide} : Known checks wide .slice
  | boxSlice {wide} : Known checks wide .boxSlice
  | str {wide} : Known checks wide .str
  | string {wide} : Known checks wide .string
  | arrayString {wide} (cap : UInt64) : Known checks wide (.arrayString cap)
  | reminder {wide} : Known checks wide .reminder
  | ownedReminder {wide} : Known checks wide .ownedReminder
  | unbound {wide} : Known checks wide .unbound
  | pair {wide} {α β : Type} {a : Decoder α} {b : Decoder β} : Known checks wide a →
      Known checks wide b → Known checks wide (.pair a b)
  | range {wide} {α : Type} {c : Decoder α} : Known checks wide c → Known checks wide (.range c)
  | option {wide} {α : Type} {c : Decoder α} : Known checks wide c → Known checks wide (.option c)
  | result {wide} {α ε : Type} {r : Decoder α} {e : Decoder ε} : Known checks wide r →
      Known checks wide e → Known checks wide (.result r e)
  | notFoundError {wide} {ε : Type} {e : Decoder ε} : Known checks wide e →
      Known checks wide (.notFoundError e)
  | struct {wide} {α β : Type} {c : Decoder β} (fields : α → β) (build : β → α) :
      Known checks wide c → Known checks wide (.struct fields build c)
  | enum {wide} {α : Type} {n : ℕ} {P : Fin n → Type} {c : ∀ i, Decoder (P i)}
      (variants : α → Σ i, P i) (build : (Σ i, P i) → α) : (∀ i, Known checks wide (c i)) →
      Known checks wide (.enum variants build c)
  | array {wide} {α : Type} {c : Decoder α} (n : ℕ) : Known checks wide c →
      Known checks wide (.array n c)
  | arrayVec {wide} {α : Type} {c : Decoder α} (cap : UInt64) : Known checks wide c →
      Known checks wide (.arrayVec cap c)
  | vec {wide} {α : Type} {c : Decoder α} : Known checks wide c → Known checks wide (.vec c)
  | vecDeque {wide} {α : Type} {c : Decoder α} : Known checks wide c →
      Known checks wide (.vecDeque c)
  | arcSlice {wide} {α : Type} {c : Decoder α} : Known checks wide c →
      Known checks wide (.arcSlice c)
  | hashMap {K V : Type} [DecidableEq K] {k : Decoder K} {v : Decoder V} (order : Order K V) :
      Known checks true k → Known checks true v → Known checks true (.hashMap checks order k v)
  | simdStorage {α : Type} {c : Decoder α} {size : ℕ} (hsize : 0 < size) : Known checks true c →
      Known checks true (.simdStorage checks size c)

theorem sound_of_known {checks wide : Bool} {d : Decoder α} (h : Known checks wide d) :
    d.Sound := by
  induction h with
  | unit => exact sound_unit
  | infallible => exact sound_infallible
  | bool => exact sound_bool
  | u8 => exact sound_u8
  | int widen truncate => exact sound_int widen truncate
  | slice => exact sound_slice
  | boxSlice => exact sound_boxSlice
  | str => exact sound_str
  | string => exact sound_string
  | arrayString cap => exact sound_arrayString cap
  | reminder => exact sound_reminder
  | ownedReminder => exact sound_ownedReminder
  | unbound => exact sound_unbound
  | pair _ _ iha ihb => exact sound_pair iha ihb
  | range _ ih => exact sound_pair ih ih
  | option _ ih => exact sound_option ih
  | result _ _ ihr ihe => exact sound_result ihr ihe
  | notFoundError _ ih => exact sound_notFoundError ih
  | struct fields build _ ih => exact sound_struct fields build ih
  | enum variants build _ ih => exact sound_enum variants build ih
  | array n _ ih => exact sound_array n ih
  | arrayVec cap _ ih => exact sound_arrayVec cap ih
  | vec _ ih => exact sound_vec ih
  | vecDeque _ ih => exact sound_vecDeque ih
  | arcSlice _ ih => exact sound_arcSlice ih
  | hashMap order _ _ ihk ihv => exact sound_hashMap checks order ihk ihv
  | simdStorage hsize _ ih => exact sound_simdStorage checks hsize ih

section Narrow

variable {c : Decoder α} {bound : ℕ}

theorem not_later {plain : Option (α × Bytes)} {hazard : α → Bytes → Prop}
    (h : ∀ a rest, ¬ hazard a rest) : ¬ Later plain hazard := by
  rintro ⟨a, rest, -, ha⟩
  exact h a rest ha

theorem not_seqHazard (h : ∀ buffer, ¬ c.hazard bound buffer) (n : ℕ) (buffer : Bytes) :
    ¬ c.seqHazard bound n buffer := by
  induction n generalizing buffer with
  | zero => exact id
  | succ n ih => exact not_or.mpr ⟨h buffer, not_later fun _ rest => ih rest⟩

theorem not_triesHazard (h : ∀ buffer, ¬ c.hazard bound buffer) (n : ℕ) (buffer : Bytes) :
    ¬ c.triesHazard bound n buffer := by
  induction n generalizing buffer with
  | zero => exact id
  | succ n ih => exact not_or.mpr ⟨h buffer, ih _⟩

/-- Only maps and storages have hazards. -/
theorem not_hazard_of_narrow {checks wide : Bool} {d : Decoder α} (h : Known checks wide d)
    (hwide : wide = false) (buffer : Bytes) : ¬ d.hazard bound buffer := by
  induction h generalizing buffer with
  | unit | infallible | bool | u8 | int | slice | boxSlice | str | string | arrayString
  | reminder | ownedReminder | unbound => exact id
  | pair _ _ iha ihb =>
    exact not_or.mpr ⟨iha hwide buffer, not_later fun _ rest => ihb hwide rest⟩
  | range _ ih => exact not_or.mpr ⟨ih hwide buffer, not_later fun _ rest => ih hwide rest⟩
  | option _ ih => exact not_later fun _ rest hsome => ih hwide rest hsome.2
  | result _ _ ihr ihe =>
    refine not_later fun _ rest => not_or.mpr ⟨?_, ?_⟩
    · exact fun hok => ihr hwide rest hok.2
    · exact fun herr => ihe hwide rest herr.2
  | notFoundError _ ih => exact not_later fun _ rest hinner => ih hwide rest hinner.2
  | struct fields build _ ih => exact ih hwide buffer
  | enum variants build _ ih =>
    rintro ⟨index, rest, -, hindex, hvariant⟩
    exact ih ⟨index.toNat, hindex⟩ hwide rest hvariant
  | array n _ ih => exact not_triesHazard (ih hwide) n buffer
  | arrayVec cap _ ih =>
    exact not_later fun len rest h => not_seqHazard (ih hwide) len.toNat rest h.2
  | vec _ ih | vecDeque _ ih | arcSlice _ ih =>
    exact not_later fun len rest h => not_seqHazard (ih hwide) len.toNat rest h.2
  | hashMap => cases hwide
  | simdStorage => cases hwide

end Narrow

/-- Decoding is safe exactly where no length is met that is too large for what a map
computes from it or a storage reserves for it. It then does what the codec says, and types
without such parts are safe on every input. -/
theorem decode_safe_iff {checks wide : Bool} {d : Decoder α} (h : Known checks wide d)
    {factor : ℕ} (hfactor : 1 ≤ factor) {buffer : Bytes} (hlength : buffer.length < capacityLimit) :
    ((d.read buffer).Safe factor buffer ↔ ¬ d.hazard (factor * buffer.length) buffer) ∧
      ((d.read buffer).Safe factor buffer →
        d.codec.decode buffer = (d.read buffer).answer.toOption (d.read buffer).rest) ∧
      (wide = false → (d.read buffer).Safe factor buffer) := by
  have hfits : Fits (factor * buffer.length) buffer :=
    ⟨Nat.le_mul_of_pos_left buffer.length hfactor, hlength⟩
  have hsound := sound_of_known h hfits
  refine ⟨hsound.safe_iff, fun hsafe => hsound.agrees hsafe.calm, fun hwide => ?_⟩
  exact hsound.safe_iff.mpr (not_hazard_of_narrow h hwide buffer)

/-- The members of a chat, each with the nonce of its next action. -/
def members (checks : Bool) (order : Order (List.Vector UInt8 32) UInt64) :
    Decoder (HashMap (List.Vector UInt8 32) UInt64) :=
  .hashMap checks order (.array 32 .u8) (.int id id)

theorem known_members (checks : Bool) (order : Order (List.Vector UInt8 32) UInt64) :
    Known checks true (members checks order) := .hashMap order (.array 32 .u8) (.int id id)

theorem exists_order [DecidableEq K] : Nonempty (Order K V) := by
  have hlisted (m : HashMap K V) : ∃ s : AList fun _ : K => V, s.toFinmap = m.val :=
    Finmap.induction_on m.val fun s => ⟨s, rfl⟩
  exact ⟨⟨fun m => (hlisted m).choose, fun m => (hlisted m).choose_spec⟩⟩

theorem decode_safe_iff_members :
    ∃ order, ((members true order).read [0]).Safe 1 [0] := by
  obtain ⟨order⟩ : Nonempty (Order (List.Vector UInt8 32) UInt64) := exists_order
  refine ⟨order, (decode_safe_iff (known_members true order) (by decide) (by decide)).1.mpr ?_⟩
  rintro ⟨len, rest, hlen, hhazard⟩
  cases hlen
  rcases hhazard with hlarge | ⟨-, hentry⟩
  · exact absurd hlarge (by decide)
  · exact hentry

/-- A length of `2 ^ 63` before no entries panics in either build, and one of `2 ^ 64 - 1`
overflows where a storage is read. -/
theorem decode_not_safe :
    ∃ order,
      (∀ checks, Known checks true (members checks order) ∧
        ((members checks order).read (List.replicate 9 128 ++ [1])).answer = .panicked ∧
        ((members checks order).read (List.replicate 9 128 ++ [1])).overflowed = true) ∧
      ∀ checks factor, Known checks true (.simdStorage checks 8 (.int id id)) ∧
        ¬ ((Decoder.simdStorage checks 8 (.int id id)).read
          (List.replicate 9 255 ++ [1])).Safe factor (List.replicate 9 255 ++ [1]) := by
  obtain ⟨order⟩ : Nonempty (Order (List.Vector UInt8 32) UInt64) := exists_order
  refine ⟨order, fun checks => ⟨known_members checks order, ?_⟩, fun checks factor => ?_⟩
  · cases checks with
    | false => exact ⟨rfl, rfl⟩
    | true => exact ⟨rfl, rfl⟩
  · refine ⟨.simdStorage (by decide) (.int id id), ?_⟩
    rintro ⟨⟨-, hcalm, -⟩, -⟩
    cases checks with
    | false => cases hcalm
    | true => cases hcalm

end OrionNetwork.CodecReads
