import OrionNetwork.ByteMemory
import OrionNetwork.Codec
import OrionNetwork.Runs

/-!
# The packet writer

A byte queue inside one allocation that is never grown. Its contents lie between
`start` and `end`, or from `start` to the length of the vector and on from zero
to `end`. A guard appends to them: an extending guard after the contents, a
replacing one into the part that was already sent. Neither an empty nor a full
flag is kept. Cells past the length of the vector exist and may be written, so
the memory is a function of the index here. A value reaches the buffer as a list
of pieces, each of which is written whole or not at all.
-/
namespace OrionNetwork.Stream
open Codec ByteMemory Runs

/-- The pieces that the codec of a value hands to the buffer, in order. -/
abbrev Value := List Bytes

/-- An index or a range outside of the vector. -/
inductive Fault where
  | outOfBounds
  deriving DecidableEq, Repr

structure PacketWriter where
  memory : ℕ → UInt8
  capacity : ℕ
  len : ℕ
  start : ℕ
  stop : ℕ

def new (capacity : ℕ) : PacketWriter := ⟨fun _ => 0, capacity, 0, 0, 0⟩

/-- What is written of a value into a bounded buffer, and whether all of it was. -/
def encode (room : ℕ) : Value → Bytes × Bool
  | [] => ([], true)
  | piece :: pieces =>
    if piece.length ≤ room then
      let rest := encode (room - piece.length) pieces
      (piece ++ rest.1, rest.2)
    else ([], false)

/-- An extending guard holds the position of its next byte, which is the end of
the contents or a copy of the length. A replacing guard holds what it has
written and the bounds of its target. -/
inductive PacketWriterGuard where
  | extending (stop : ℕ) (owned : Bool)
  | replacing (written next last : ℕ)

namespace PacketWriter

/-- The part of the vector that holds no contents. -/
def space (w : PacketWriter) : ℕ × ℕ := if w.start > w.stop then (w.stop, w.start) else (0, w.start)

def guard (w : PacketWriter) : Except Fault (PacketWriter × PacketWriterGuard) :=
  if w.capacity - w.len < w.space.2 - w.space.1 then
    if w.space.2 ≤ w.len then
      .ok ({ w with stop := if w.len ≠ w.stop then w.stop else 0 },
        .replacing 0 w.space.1 w.space.2)
    else .error .outOfBounds
  else .ok (w, if w.stop ≥ w.start then .extending w.stop true else .extending w.len false)

/-- One `write` through a guard: the bytes go to memory in either case. The
slice that is returned is given by its position and its length. -/
def write (w : PacketWriter) (g : PacketWriterGuard) (value : Value) :
    PacketWriter × PacketWriterGuard × Option (ℕ × ℕ) :=
  match g with
  | .extending stop owned =>
    let out := encode (w.capacity - stop) value
    let w := { w with memory := store w.memory stop out.1 }
    if out.2 then (w, .extending (stop + out.1.length) owned, some (stop, out.1.length))
    else (w, .extending w.len owned, none)
  | .replacing written next last =>
    let out := encode (last - next) value
    let w := { w with memory := store w.memory next out.1 }
    if out.2 then
      (w, .replacing (written + out.1.length) (next + out.1.length) last,
        some (next, out.1.length))
    else (w, .replacing 0 (next + out.1.length) last, none)

def drop (w : PacketWriter) : PacketWriterGuard → PacketWriter
  | .extending stop true => { w with stop := stop, len := stop }
  | .extending stop false => { w with len := stop }
  | .replacing written _ _ => { w with stop := w.stop + written }

/-- The writes of one guard, and whether all of them succeeded. -/
def writeAll (w : PacketWriter) (g : PacketWriterGuard) :
    List Value → PacketWriter × PacketWriterGuard × Bool
  | [] => (w, g, true)
  | value :: values =>
    let out := w.write g value
    let rest := writeAll out.1 out.2.1 values
    (rest.1, rest.2.1, out.2.2.isSome && rest.2.2)

/-- A guard that is opened, written through and dropped. -/
def session (w : PacketWriter) (values : List Value) : Except Fault (PacketWriter × Bool) :=
  match w.guard with
  | .error e => .error e
  | .ok (w, g) =>
    let out := w.writeAll g values
    .ok (out.1.drop out.2.1, out.2.2)

/-- The two writes of `write_packet`: room for a length, then the message, whose
length is filled in afterwards. -/
def writeFramed (w : PacketWriter) (g : PacketWriterGuard) (message : Value) :
    PacketWriter × Option Unit :=
  match w.write g [[0, 0]] with
  | (w, g, none) => (w.drop g, none)
  | (w, g, some (reserved, _)) =>
    match w.write g message with
    | (w, g, none) => (w.drop g, none)
    | (w, g, some (_, len)) =>
      ({ w with memory := store w.memory reserved (encodeLen len) }.drop g, some ())

def writePacket (w : PacketWriter) (message : Value) : Except Fault (PacketWriter × Option Unit) :=
  match w.guard with
  | .error e => .error e
  | .ok (w, g) => .ok (w.writeFramed g message)

@[simp] theorem start_drop (w : PacketWriter) (g : PacketWriterGuard) :
    (w.drop g).start = w.start := by
  rcases g with ⟨stop, _ | _⟩ | ⟨written, next, last⟩ <;> rfl

@[simp] theorem start_write (w : PacketWriter) (g : PacketWriterGuard) (value : Value) :
    (w.write g value).1.start = w.start := by
  cases g with
  | extending stop owned =>
    simp only [write]
    split_ifs <;> rfl
  | replacing written next last =>
    simp only [write]
    split_ifs <;> rfl

/-- Only the reader moves the start of the contents. -/
@[simp] theorem start_writeFramed (w : PacketWriter) (g : PacketWriterGuard) (message : Value) :
    (w.writeFramed g message).1.start = w.start := by
  have hfirst := w.start_write g [[0, 0]]
  unfold writeFramed
  split
  · next w₁ g₁ heq =>
    rw [heq] at hfirst
    rw [start_drop, hfirst]
  · next w₁ g₁ reserved n heq =>
    rw [heq] at hfirst
    have hsecond := w₁.start_write g₁ message
    split
    · next w₂ g₂ heq₂ =>
      rw [heq₂] at hsecond
      rw [start_drop, hsecond, hfirst]
    · next w₂ g₂ n₂ len heq₂ =>
      rw [heq₂] at hsecond
      rw [start_drop]
      exact hsecond.trans hfirst

/-- Contents that begin at zero are in one piece, so there is nothing to trip
over. -/
theorem writePacket_of_start {w : PacketWriter} (h : w.start = 0) (message : Value) :
    ∃ w' out, w.writePacket message = .ok (w', out) ∧ w'.start = 0 := by
  have hspace : w.space = (0, 0) := by
    unfold space
    rw [if_neg (by omega), h]
  obtain ⟨g, hg⟩ : ∃ g, w.guard = .ok (w, g) := by
    unfold guard
    rw [hspace, if_neg (by simp)]
    exact ⟨_, rfl⟩
  refine ⟨(w.writeFramed g message).1, (w.writeFramed g message).2, ?_, ?_⟩
  · rw [writePacket, hg]
  · rw [start_writeFramed, h]

/-- The one or two runs of cells that hold the contents. -/
def writableParts (w : PacketWriter) : Except Fault (Bytes × Bytes) :=
  if w.start > w.stop then
    if w.start ≤ w.len then .ok (slice w.memory w.start w.len, slice w.memory 0 w.stop)
    else .error .outOfBounds
  else if w.start < w.stop then
    if w.stop ≤ w.len then .ok (slice w.memory w.start w.stop, []) else .error .outOfBounds
  else .ok ([], [])

/-- The bookkeeping of `poll` when nothing is left to send. -/
def settle (w : PacketWriter) : PacketWriter :=
  let w := if w.start = w.stop then { w with start := 0, stop := 0 } else w
  if w.start ≤ w.stop then { w with len := min w.len w.stop } else w

def advance (w : PacketWriter) (n : ℕ) : PacketWriter :=
  { w with start := w.start + n - (if w.start + n > w.len then w.len else 0) }

/-- The first part that is not empty. -/
def nextPart (parts : Bytes × Bytes) : Bytes := if parts.1.isEmpty then parts.2 else parts.1

/-- One `poll`. The destination takes a byte and up to as many more as the list
says, once for each of its entries, and is pending afterwards. The result holds
the bytes it took and whether the writer was ready. -/
def poll : List ℕ → PacketWriter → Except Fault (PacketWriter × Bytes × Bool)
  | [], w =>
    match w.writableParts with
    | .error e => .error e
    | .ok parts =>
      if (nextPart parts).isEmpty then .ok (w.settle, [], true) else .ok (w, [], false)
  | more :: accepts, w =>
    match w.writableParts with
    | .error e => .error e
    | .ok parts =>
      if (nextPart parts).isEmpty then .ok (w.settle, [], true)
      else
        let n := min (more + 1) (nextPart parts).length
        match poll accepts (w.advance n) with
        | .error e => .error e
        | .ok (w, out, ready) => .ok (w, (nextPart parts).take n ++ out, ready)

end PacketWriter

/-- All bytes of a list of values. -/
def bytesOf (values : List Value) : Bytes := values.flatten.flatten

@[simp] theorem bytesOf_nil : bytesOf [] = [] := rfl

@[simp] theorem bytesOf_cons (value : Value) (values : List Value) :
    bytesOf (value :: values) = value.flatten ++ bytesOf values := by
  simp [bytesOf]

@[simp] theorem bytesOf_append (values values' : List Value) :
    bytesOf (values ++ values') = bytesOf values ++ bytesOf values' := by
  simp [bytesOf]

theorem encode_fits {room : ℕ} {value : Value} (h : value.flatten.length ≤ room) :
    encode room value = (value.flatten, true) := by
  induction value generalizing room with
  | nil => rfl
  | cons piece pieces ih =>
    rw [List.flatten_cons, List.length_append] at h
    simp only [encode, if_pos (show piece.length ≤ room by omega)]
    rw [ih (by omega), List.flatten_cons]

theorem length_encode_le (room : ℕ) (value : Value) : (encode room value).1.length ≤ room := by
  induction value generalizing room with
  | nil => exact Nat.zero_le _
  | cons piece pieces ih =>
    unfold encode
    split_ifs with hfit
    · have hrest := ih (room - piece.length)
      simp only [List.length_append]
      omega
    · exact Nat.zero_le _

theorem encode_overflow {room : ℕ} {value : Value} (h : room < value.flatten.length) :
    (encode room value).2 = false := by
  induction value generalizing room with
  | nil => simp at h
  | cons piece pieces ih =>
    rw [List.flatten_cons, List.length_append] at h
    unfold encode
    split_ifs with hfit
    · exact ih (by omega)
    · rfl

namespace PacketWriter

variable {w : PacketWriter} {values : List Value}

lemma write_extending {stop : ℕ} {owned : Bool} {value : Value}
    (h : value.flatten.length ≤ w.capacity - stop) :
    w.write (.extending stop owned) value =
      ({ w with memory := store w.memory stop value.flatten },
        .extending (stop + value.flatten.length) owned, some (stop, value.flatten.length)) := by
  simp [write, encode_fits h]

lemma write_replacing {written next last : ℕ} {value : Value}
    (h : value.flatten.length ≤ last - next) :
    w.write (.replacing written next last) value =
      ({ w with memory := store w.memory next value.flatten },
        .replacing (written + value.flatten.length) (next + value.flatten.length) last,
        some (next, value.flatten.length)) := by
  simp [write, encode_fits h]

/-- Values that fit are stored one after the other. -/
lemma writeAll_extending {stop : ℕ} {owned : Bool}
    (h : (bytesOf values).length ≤ w.capacity - stop) :
    w.writeAll (.extending stop owned) values =
      ({ w with memory := store w.memory stop (bytesOf values) },
        .extending (stop + (bytesOf values).length) owned, true) := by
  induction values generalizing w stop with
  | nil => simp [writeAll]
  | cons value values ih =>
    rw [bytesOf_cons, List.length_append] at h
    simp only [writeAll]
    rw [write_extending (by omega), ih (by simp only; omega), bytesOf_cons, store_append,
      List.length_append, Nat.add_assoc]
    rfl

lemma writeAll_replacing {written next last : ℕ} (h : (bytesOf values).length ≤ last - next) :
    w.writeAll (.replacing written next last) values =
      ({ w with memory := store w.memory next (bytesOf values) },
        .replacing (written + (bytesOf values).length) (next + (bytesOf values).length) last,
        true) := by
  induction values generalizing w written next with
  | nil => simp [writeAll]
  | cons value values ih =>
    rw [bytesOf_cons, List.length_append] at h
    simp only [writeAll]
    rw [write_replacing (by omega), ih (by omega), bytesOf_cons, store_append,
      List.length_append, Nat.add_assoc, Nat.add_assoc]
    rfl

lemma writeAll_append (w : PacketWriter) (g : PacketWriterGuard) (values values' : List Value) :
    w.writeAll g (values ++ values') =
      (((w.writeAll g values).1.writeAll (w.writeAll g values).2.1 values').1,
        ((w.writeAll g values).1.writeAll (w.writeAll g values).2.1 values').2.1,
        (w.writeAll g values).2.2 &&
          ((w.writeAll g values).1.writeAll (w.writeAll g values).2.1 values').2.2) := by
  induction values generalizing w g with
  | nil => simp [writeAll]
  | cons value values ih => simp [writeAll, ih, Bool.and_assoc]

/-- A last value that does not fit takes the guard back to its beginning. The
cells before it are untouched. -/
lemma writeAll_extending_overflow (w : PacketWriter) (owned : Bool) {stop : ℕ} {value : Value}
    (h : (bytesOf values).length ≤ w.capacity - stop)
    (hover : w.capacity - stop < (bytesOf values).length + value.flatten.length) :
    ∃ memory, w.writeAll (.extending stop owned) (values ++ [value]) =
        ({ w with memory := memory }, .extending w.len owned, false) ∧
      ∀ i, i < stop → memory i = w.memory i := by
  have hfalse := encode_overflow (show w.capacity - (stop + (bytesOf values).length) <
    value.flatten.length by omega)
  refine ⟨store (store w.memory stop (bytesOf values)) (stop + (bytesOf values).length)
    (encode (w.capacity - (stop + (bytesOf values).length)) value).1, ?_, fun i hi => ?_⟩
  · rw [writeAll_append, writeAll_extending h]
    simp [writeAll, write, hfalse]
  · rw [store_outside (by omega), store_outside (by omega)]

lemma writeAll_replacing_overflow (w : PacketWriter) (written : ℕ) {next last : ℕ} {value : Value}
    (hle : next ≤ last)
    (h : (bytesOf values).length ≤ last - next)
    (hover : last - next < (bytesOf values).length + value.flatten.length) :
    ∃ memory next', w.writeAll (.replacing written next last) (values ++ [value]) =
        ({ w with memory := memory }, .replacing 0 next' last, false) ∧
      ∀ i, i < next ∨ last ≤ i → memory i = w.memory i := by
  have hroom := length_encode_le (last - (next + (bytesOf values).length)) value
  have hfalse := encode_overflow (show last - (next + (bytesOf values).length) <
    value.flatten.length by omega)
  refine ⟨store (store w.memory next (bytesOf values)) (next + (bytesOf values).length)
    (encode (last - (next + (bytesOf values).length)) value).1,
    next + (bytesOf values).length +
      (encode (last - (next + (bytesOf values).length)) value).1.length, ?_, fun i hi => ?_⟩
  · rw [writeAll_append, writeAll_replacing h]
    simp [writeAll, write, hfalse]
  · rw [store_outside (by omega), store_outside (by omega)]

/-- The queue that the writer stands for. -/
def pending (w : PacketWriter) : Bytes :=
  if w.start > w.stop then slice w.memory w.start w.len ++ slice w.memory 0 w.stop
  else slice w.memory w.start w.stop

structure WellFormed (w : PacketWriter) : Prop where
  len_le : w.len ≤ w.capacity
  start_le : w.start ≤ w.len
  stop_le : w.stop ≤ w.len

lemma wellFormed_new (capacity : ℕ) : (new capacity).WellFormed :=
  ⟨Nat.zero_le _, le_rfl, le_rfl⟩

/-- A guard replaces when the sent part is larger than the part never used. -/
def Replaces (w : PacketWriter) : Prop := w.capacity - w.len < w.space.2 - w.space.1

instance (w : PacketWriter) : Decidable w.Replaces := inferInstanceAs (Decidable (_ < _))

/-- Bytes that the next guard can take. -/
def room (w : PacketWriter) : ℕ :=
  if w.Replaces then w.space.2 - w.space.1
  else w.capacity - (if w.stop ≥ w.start then w.stop else w.len)

/-- Sent bytes are left behind the contents, as a wrapped queue leaves them when
its first run is sent. -/
def Stale (w : PacketWriter) : Prop := w.start ≤ w.stop ∧ w.stop < w.len

/-- When a guard that takes `total` bytes appends them. A replacing guard must
not fill its target and must not meet a stale tail. An extending one must not
meet a wrapped queue, unless its second run is empty. A guard that is refused
must not extend over a stale tail. -/
def Appends (w : PacketWriter) (total : ℕ) : Prop :=
  (total ≤ w.room → 0 < total →
    (w.Replaces → total < w.room ∧ ¬ w.Stale) ∧
    (¬ w.Replaces → w.stop < w.start → w.stop = 0)) ∧
  (w.room < total → ¬ w.Replaces → ¬ w.Stale)

/-- What is promised of one guard. -/
def Appended (w w' : PacketWriter) (bytes : Bytes) : Prop :=
  w'.WellFormed ∧ w'.capacity = w.capacity ∧ w'.pending = w.pending ++ bytes

lemma guard_replacing (hwf : w.WellFormed) (h : w.Replaces) :
    w.guard = .ok ({ w with stop := if w.len ≠ w.stop then w.stop else 0 },
      .replacing 0 w.space.1 w.space.2) := by
  have hspace : w.space.2 ≤ w.len := by
    have hstart := hwf.start_le
    unfold space
    split_ifs <;> exact hstart
  unfold Replaces at h
  simp [guard, h, hspace]

lemma guard_extending (h : ¬ w.Replaces) :
    w.guard = .ok (w, if w.stop ≥ w.start then .extending w.stop true
      else .extending w.len false) := by
  unfold Replaces at h
  simp [guard, h]

/-- Contents in one run, extended behind it. -/
lemma appended_linear {bytes : Bytes} (hwf : w.WellFormed) (hlin : w.start ≤ w.stop)
    (hfit : w.stop + bytes.length ≤ w.capacity) :
    Appended w { w with
      memory := store w.memory w.stop bytes
      stop := w.stop + bytes.length
      len := w.stop + bytes.length } bytes := by
  have hstart := hwf.start_le
  refine ⟨⟨hfit, by simp only; omega, le_rfl⟩, rfl, ?_⟩
  unfold pending
  rw [if_neg (by simp only; omega), if_neg (by omega)]
  simp only
  rw [← slice_append hlin (Nat.le_add_right w.stop bytes.length), slice_store,
    slice_store_of_disjoint (.inl le_rfl)]

/-- Contents in two runs, the first of them extended. -/
lemma appended_wrapped {bytes : Bytes} (hwf : w.WellFormed) (hwrap : w.stop < w.start)
    (hfit : w.len + bytes.length ≤ w.capacity) (hone : w.stop = 0 ∨ bytes = []) :
    Appended w { w with
      memory := store w.memory w.len bytes
      len := w.len + bytes.length } bytes := by
  have hstart := hwf.start_le
  have hstop := hwf.stop_le
  refine ⟨⟨hfit, by simp only; omega, by simp only; omega⟩, rfl, ?_⟩
  unfold pending
  rw [if_pos (by simp only; omega), if_pos (by omega)]
  simp only
  rw [← slice_append hstart (Nat.le_add_right w.len bytes.length), slice_store,
    slice_store_of_disjoint (.inl le_rfl), slice_store_of_disjoint (.inl hstop)]
  obtain hzero | hnil := hone
  · rw [hzero, slice_self, List.append_nil, List.append_nil]
  · rw [hnil, List.append_nil, List.append_nil]

/-- The sent part written from its beginning, and not filled. -/
lemma appended_replaced {bytes : Bytes} (hwf : w.WellFormed)
    (hroom : bytes.length < w.space.2 - w.space.1) (hstale : w.Stale → bytes = []) :
    Appended w { w with
      memory := store w.memory w.space.1 bytes
      stop := (if w.len ≠ w.stop then w.stop else 0) + bytes.length } bytes := by
  obtain ⟨hlen, hstart, hstop⟩ := hwf
  by_cases hwrap : w.start > w.stop
  · have hspace : w.space = (w.stop, w.start) := if_pos hwrap
    rw [hspace] at hroom ⊢
    simp only at hroom
    rw [if_pos (by omega)]
    refine ⟨⟨hlen, hstart, by simp only; omega⟩, rfl, ?_⟩
    unfold pending
    rw [if_pos (by simp only; omega), if_pos hwrap]
    simp only
    rw [← slice_append (Nat.zero_le w.stop) (Nat.le_add_right w.stop bytes.length), slice_store,
      slice_store_of_disjoint (.inr (by omega)), slice_store_of_disjoint (.inl le_rfl),
      List.append_assoc]
  · have hspace : w.space = (0, w.start) := if_neg hwrap
    rw [hspace] at hroom ⊢
    simp only at hroom
    by_cases hfull : w.len = w.stop
    · rw [if_neg (by omega)]
      refine ⟨⟨hlen, hstart, by simp only; omega⟩, rfl, ?_⟩
      unfold pending
      rw [if_pos (by simp only; omega), if_neg hwrap]
      simp only
      rw [slice_store_of_disjoint (.inr (by omega)), slice_store, hfull]
    · have hnil : bytes = [] := hstale ⟨by omega, by omega⟩
      rw [if_pos hfull, hnil, store_nil]
      exact ⟨⟨hlen, hstart, hstop⟩, rfl, (List.append_nil _).symm⟩

/-- Contents are only read where they lie, so cells elsewhere do not matter. -/
lemma appended_nil (memory : ℕ → UInt8) (stop : ℕ) (hwf : w.WellFormed)
    (hstop : stop = w.stop ∨ w.start ≤ w.stop ∧ w.stop = w.len ∧ stop = 0 ∧ 0 < w.start)
    (hmemory : ∀ i, w.start ≤ i ∧ i < w.len ∨ i < w.stop ∧ w.stop < w.start → memory i = w.memory i) :
    Appended w { w with memory := memory, stop := stop } [] := by
  obtain ⟨hlen, hstart, hle⟩ := hwf
  refine ⟨⟨hlen, hstart, by simp only; omega⟩, rfl, ?_⟩
  rw [List.append_nil]
  unfold pending
  simp only
  obtain rfl | ⟨hlin, hfull, rfl, hpos⟩ := hstop
  · split_ifs with hwrap
    · congr 1
      · exact slice_congr fun i h₁ h₂ => hmemory i (by omega)
      · exact slice_congr fun i h₁ h₂ => hmemory i (by omega)
    · exact slice_congr fun i h₁ h₂ => hmemory i (by omega)
  · rw [if_pos hpos, if_neg (by omega), slice_self, List.append_nil, hfull]
    exact slice_congr fun i h₁ h₂ => hmemory i (by omega)

/-- One guard whose values fit. -/
lemma session_fits (hwf : w.WellFormed) (hok : w.Appends (bytesOf values).length)
    (hfit : (bytesOf values).length ≤ w.room) :
    ∃ w', w.session values = .ok (w', true) ∧ Appended w w' (bytesOf values) := by
  have hnew := hok.1 hfit
  by_cases hrep : w.Replaces
  · rw [room, if_pos hrep] at hfit
    refine ⟨_, ?_, appended_replaced hwf ?_ ?_⟩
    · simp only [session, guard_replacing hwf hrep, writeAll_replacing hfit, drop]
      simp
    · by_cases hpos : 0 < (bytesOf values).length
      · have hlt := ((hnew hpos).1 hrep).1
        rwa [room, if_pos hrep] at hlt
      · unfold Replaces at hrep
        omega
    · intro hstale
      by_contra hne
      exact ((hnew (List.length_pos_iff.mpr hne)).1 hrep).2 hstale
  · rw [room, if_neg hrep] at hfit
    have hlen := hwf.len_le
    have hstop := hwf.stop_le
    by_cases hlin : w.stop ≥ w.start
    · rw [if_pos hlin] at hfit
      refine ⟨_, ?_, appended_linear hwf hlin (by omega)⟩
      simp only [session, guard_extending hrep, if_pos hlin, writeAll_extending hfit, drop]
    · rw [if_neg hlin] at hfit
      refine ⟨_, ?_, appended_wrapped hwf (by omega) (by omega) ?_⟩
      · simp only [session, guard_extending hrep, if_neg hlin, writeAll_extending hfit, drop]
      · by_cases hpos : 0 < (bytesOf values).length
        · exact .inl ((hnew hpos).2 hrep (by omega))
        · exact .inr (List.length_eq_zero_iff.mp (by omega))

/-- Writing succeeds by the room alone. -/
lemma session_succeeds (hwf : w.WellFormed) (hfit : (bytesOf values).length ≤ w.room) :
    ∃ w', w.session values = .ok (w', true) := by
  unfold session
  by_cases hrep : w.Replaces
  · rw [room, if_pos hrep] at hfit
    exact ⟨_, by simp only [guard_replacing hwf hrep, writeAll_replacing hfit]; rfl⟩
  · rw [room, if_neg hrep] at hfit
    by_cases hlin : w.stop ≥ w.start
    · rw [if_pos hlin] at hfit
      exact ⟨_, by simp only [guard_extending hrep, if_pos hlin, writeAll_extending hfit]; rfl⟩
    · rw [if_neg hlin] at hfit
      exact ⟨_, by simp only [guard_extending hrep, if_neg hlin, writeAll_extending hfit]; rfl⟩

/-- One guard whose last value does not fit. -/
lemma session_overflow {value : Value} (hwf : w.WellFormed)
    (hok : w.Appends (bytesOf (values ++ [value])).length)
    (hfit : (bytesOf values).length ≤ w.room)
    (hover : w.room < (bytesOf (values ++ [value])).length) :
    ∃ w', w.session (values ++ [value]) = .ok (w', false) ∧ Appended w w' [] := by
  have hstale := hok.2 hover
  have hlength : (bytesOf (values ++ [value])).length =
      (bytesOf values).length + value.flatten.length := by simp
  rw [hlength] at hover
  have hstart := hwf.start_le
  have hstop := hwf.stop_le
  by_cases hrep : w.Replaces
  · rw [room, if_pos hrep] at hfit hover
    have hspace : w.space.1 ≤ w.space.2 := by
      unfold Replaces at hrep
      omega
    obtain ⟨memory, next, hwrite, hmemory⟩ := writeAll_replacing_overflow
      { w with stop := if w.len ≠ w.stop then w.stop else 0 } 0 hspace hfit hover
    refine ⟨_, ?_, appended_nil memory (if w.len ≠ w.stop then w.stop else 0) hwf ?_
      fun i hi => hmemory i ?_⟩
    · simp only [session, guard_replacing hwf hrep]
      rw [hwrite]
      rfl
    · unfold Replaces space at hrep
      by_cases hfull : w.len = w.stop
      · rw [if_neg (by omega)] at hrep
        simp only at hrep
        rw [if_neg (by omega)]
        omega
      · exact .inl (if_pos hfull)
    · unfold space
      split_ifs with hwrap
      · simp only
        omega
      · simp only
        omega
  · rw [room, if_neg hrep] at hfit hover
    by_cases hlin : w.stop ≥ w.start
    · rw [if_pos hlin] at hfit hover
      obtain ⟨memory, hwrite, hmemory⟩ := writeAll_extending_overflow w true hfit hover
      have hfull : w.stop = w.len := by
        have hnot := hstale hrep
        unfold Stale at hnot
        omega
      refine ⟨_, ?_, appended_nil memory w.len hwf (.inl hfull.symm) fun i hi => hmemory i ?_⟩
      · simp only [session, guard_extending hrep, if_pos hlin, hwrite, drop]
      · omega
    · rw [if_neg hlin] at hfit hover
      obtain ⟨memory, hwrite, hmemory⟩ := writeAll_extending_overflow w false hfit hover
      refine ⟨_, ?_, appended_nil memory w.stop hwf (.inl rfl) fun i hi => hmemory i ?_⟩
      · simp only [session, guard_extending hrep, if_neg hlin, hwrite, drop]
      · omega

/-- A packet is its length followed by the message. -/
def packet (message : Value) : List Value := [[encodeLen message.flatten.length], message]

lemma length_packet (message : Value) :
    (bytesOf (packet message)).length = 2 + message.flatten.length := by
  simp [packet]

/-- The length replaces the bytes reserved for it. -/
lemma store_packet (memory : ℕ → UInt8) (pos : ℕ) (message : Value) :
    store (store (store memory pos [0, 0]) (pos + 2) message.flatten) pos
      (encodeLen message.flatten.length) = store memory pos (bytesOf (packet message)) := by
  have hreserved : store (store memory pos [0, 0]) (pos + 2) message.flatten =
      store memory pos ([0, 0] ++ message.flatten) := store_append.symm
  have hlen : ([0, 0] : Bytes).length = (encodeLen message.flatten.length).length := rfl
  rw [hreserved, store_patch hlen]
  simp [packet]

lemma writeFramed_extending {stop : ℕ} {owned : Bool} {message : Value}
    (h : (bytesOf (packet message)).length ≤ w.capacity - stop) :
    w.writeFramed (.extending stop owned) message =
      (PacketWriter.drop { w with memory := store w.memory stop (bytesOf (packet message)) }
        (.extending (stop + (bytesOf (packet message)).length) owned), some ()) := by
  have hlength := length_packet message
  have hreserved : w.write (.extending stop owned) [[0, 0]] =
      ({ w with memory := store w.memory stop [0, 0] }, .extending (stop + 2) owned,
        some (stop, 2)) := write_extending (show 2 ≤ w.capacity - stop by omega)
  unfold writeFramed
  simp only [hreserved]
  rw [write_extending (by simp only; omega)]
  simp only [store_packet, hlength, Nat.add_assoc]

lemma writeFramed_replacing {written next last : ℕ} {message : Value}
    (h : (bytesOf (packet message)).length ≤ last - next) :
    w.writeFramed (.replacing written next last) message =
      (PacketWriter.drop { w with memory := store w.memory next (bytesOf (packet message)) }
        (.replacing (written + (bytesOf (packet message)).length)
          (next + (bytesOf (packet message)).length) last), some ()) := by
  have hlength := length_packet message
  have hreserved : w.write (.replacing written next last) [[0, 0]] =
      ({ w with memory := store w.memory next [0, 0] }, .replacing (written + 2) (next + 2) last,
        some (next, 2)) := write_replacing (show 2 ≤ last - next by omega)
  unfold writeFramed
  simp only [hreserved]
  rw [write_replacing (by omega)]
  simp only [store_packet, hlength, Nat.add_assoc]

/-- A packet that fits is written as its length and its message. -/
lemma writePacket_fits {message : Value} {w' : PacketWriter} (hwf : w.WellFormed)
    (hfit : (bytesOf (packet message)).length ≤ w.room)
    (h : w.session (packet message) = .ok (w', true)) :
    w.writePacket message = .ok (w', some ()) := by
  by_cases hrep : w.Replaces
  · rw [room, if_pos hrep] at hfit
    simp only [session, guard_replacing hwf hrep, writeAll_replacing hfit, Except.ok.injEq,
      Prod.mk.injEq, and_true] at h
    simp only [writePacket, guard_replacing hwf hrep, writeFramed_replacing hfit, h]
  · rw [room, if_neg hrep] at hfit
    by_cases hlin : w.stop ≥ w.start
    · rw [if_pos hlin] at hfit
      simp only [session, guard_extending hrep, if_pos hlin, writeAll_extending hfit,
        Except.ok.injEq, Prod.mk.injEq, and_true] at h
      simp only [writePacket, guard_extending hrep, if_pos hlin, writeFramed_extending hfit, h]
    · rw [if_neg hlin] at hfit
      simp only [session, guard_extending hrep, if_neg hlin, writeAll_extending hfit,
        Except.ok.injEq, Prod.mk.injEq, and_true] at h
      simp only [writePacket, guard_extending hrep, if_neg hlin, writeFramed_extending hfit, h]

/-- Whether a packet is taken depends on the room alone. -/
lemma writePacket_of_room {message : Value} {w' : PacketWriter} {r : Option Unit}
    (h : w.writePacket message = .ok (w', r)) (hfit : 2 + message.flatten.length ≤ w.room) :
    r = some () := by
  rw [← length_packet] at hfit
  unfold writePacket at h
  by_cases hrep : w.Replaces
  · rw [room, if_pos hrep] at hfit
    unfold guard at h
    rw [if_pos (show w.capacity - w.len < w.space.2 - w.space.1 from hrep)] at h
    by_cases hspace : w.space.2 ≤ w.len
    · rw [if_pos hspace] at h
      simp only [writeFramed_replacing hfit] at h
      cases h
      rfl
    · rw [if_neg hspace] at h
      cases h
  · rw [room, if_neg hrep] at hfit
    rw [guard_extending hrep] at h
    by_cases hlin : w.stop ≥ w.start
    · rw [if_pos hlin] at hfit h
      simp only [writeFramed_extending hfit] at h
      cases h
      rfl
    · rw [if_neg hlin] at hfit h
      simp only [writeFramed_extending hfit] at h
      cases h
      rfl

/-- Without room for the length nothing else is tried. -/
lemma writePacket_refused_length {message : Value} {w' : PacketWriter}
    (h : w.session [[[0, 0]]] = .ok (w', false)) : w.writePacket message = .ok (w', none) := by
  unfold session at h
  unfold writePacket writeFramed
  split at h
  · contradiction
  · rename_i w₀ g hguard
    simp only [writeAll, Bool.and_true, Except.ok.injEq, Prod.mk.injEq] at h
    obtain ⟨hdrop, hnone⟩ := h
    match hw : w₀.write g [[0, 0]] with
    | (w₁, g₁, none) =>
      rw [hw] at hdrop
      simp only [hdrop]
    | (w₁, g₁, some r) =>
      rw [hw] at hnone
      contradiction

lemma writePacket_refused_message {message : Value} {w' w'' : PacketWriter}
    (hlength : w.session [[[0, 0]]] = .ok (w'', true))
    (h : w.session [[[0, 0]], message] = .ok (w', false)) :
    w.writePacket message = .ok (w', none) := by
  unfold session at h hlength
  unfold writePacket writeFramed
  split at h
  · contradiction
  · rename_i w₀ g hguard
    rw [hguard] at hlength
    simp only [writeAll, Bool.and_true, Except.ok.injEq, Prod.mk.injEq] at h hlength
    obtain ⟨hdrop, hnone⟩ := h
    match hw : w₀.write g [[0, 0]] with
    | (w₁, g₁, none) =>
      rw [hw] at hlength
      exact absurd hlength.2 (by simp)
    | (w₁, g₁, some (reserved, len)) =>
      simp only [hw, Option.isSome_some, Bool.true_and] at hdrop hnone ⊢
      match hw' : w₁.write g₁ message with
      | (w₂, g₂, none) =>
        rw [hw'] at hdrop
        simp only [hdrop]
      | (w₂, g₂, some r) =>
        rw [hw'] at hnone
        contradiction

/-- A refused packet leaves the contents alone. -/
lemma writePacket_overflow {message : Value} (hwf : w.WellFormed)
    (hok : w.Appends (bytesOf (packet message)).length)
    (hover : w.room < (bytesOf (packet message)).length) :
    ∃ w', w.writePacket message = .ok (w', none) ∧ Appended w w' [] := by
  have hlength := length_packet message
  have hstale := hok.2 hover
  have hzero : (bytesOf ([[[0, 0]]] : List Value)).length = 2 := rfl
  by_cases hroom : w.room < 2
  · have hok' : w.Appends (bytesOf ([] ++ [[[0, 0]]] : List Value)).length := by
      refine ⟨fun hle => ?_, fun _ => hstale⟩
      exact absurd hle (by simpa using hroom)
    obtain ⟨w', hsession, happended⟩ := session_overflow hwf hok' (Nat.zero_le _) hroom
    exact ⟨w', writePacket_refused_length hsession, happended⟩
  · have hboth : (bytesOf ([[[0, 0]]] ++ [message] : List Value)).length =
        (bytesOf (packet message)).length := by
      rw [hlength, bytesOf_append, List.length_append, hzero]
      simp
    have hfit : (bytesOf ([[[0, 0]]] : List Value)).length ≤ w.room := by omega
    obtain ⟨w', hsession, happended⟩ := session_overflow hwf (hboth ▸ hok) hfit (hboth ▸ hover)
    obtain ⟨w'', hfirst⟩ := session_succeeds hwf hfit
    exact ⟨w', writePacket_refused_message hfirst hsession, happended⟩

/-- The runs of a well-formed writer are its contents. -/
lemma writableParts_eq (hwf : w.WellFormed) :
    ∃ parts, w.writableParts = .ok parts ∧ parts.1 ++ parts.2 = w.pending := by
  obtain ⟨hlen, hstart, hstop⟩ := hwf
  unfold writableParts pending
  by_cases hwrap : w.start > w.stop
  · rw [if_pos hwrap, if_pos hstart, if_pos hwrap]
    exact ⟨_, rfl, rfl⟩
  · rw [if_neg hwrap, if_neg hwrap]
    by_cases hlt : w.start < w.stop
    · rw [if_pos hlt, if_pos hstop]
      exact ⟨_, rfl, List.append_nil _⟩
    · rw [if_neg hlt, slice_eq_nil (by omega)]
      exact ⟨_, rfl, rfl⟩

lemma nextPart_eq_nil {parts : Bytes × Bytes} (h : (nextPart parts).isEmpty = true) :
    parts.1 ++ parts.2 = [] := by
  unfold nextPart at h
  split_ifs at h with hfirst
  · rw [List.isEmpty_iff] at h hfirst
    rw [h, hfirst, List.append_nil]
  · exact absurd h hfirst

lemma nextPart_slice (m : ℕ → UInt8) {i j : ℕ} (h : i < j) (rest : Bytes) :
    nextPart (slice m i j, rest) = slice m i j := by
  have hne : slice m i j ≠ [] := by
    intro hnil
    have hlength := congrArg List.length hnil
    rw [length_slice, List.length_nil] at hlength
    omega
  simp [nextPart, hne]

lemma advance_eq {n : ℕ} (hn : w.start + n ≤ w.len) :
    w.advance n = { w with start := w.start + n } := by
  rw [advance, if_neg (not_lt.mpr hn), Nat.sub_zero]

/-- Sending a prefix of the first run that is not empty. -/
lemma advance_spec {n : ℕ} {parts : Bytes × Bytes} (hwf : w.WellFormed)
    (hparts : w.writableParts = .ok parts) (hpos : 0 < n) (hn : n ≤ (nextPart parts).length) :
    (w.advance n).WellFormed ∧ (w.advance n).capacity = w.capacity ∧
      w.pending = (nextPart parts).take n ++ (w.advance n).pending := by
  obtain ⟨hlen, hstart, hstop⟩ := hwf
  unfold writableParts at hparts
  by_cases hwrap : w.start > w.stop
  · rw [if_pos hwrap, if_pos hstart, Except.ok.injEq] at hparts
    subst hparts
    by_cases hend : w.start = w.len
    · -- the first run is sent, the second one starts at zero
      have hpart : nextPart (slice w.memory w.start w.len, slice w.memory 0 w.stop) =
          slice w.memory 0 w.stop := by
        rw [nextPart, slice_eq_nil hend.ge]
        rfl
      rw [hpart, length_slice] at hn
      have hadvance : w.advance n = { w with start := n } := by
        rw [advance, if_pos (by omega), hend, Nat.add_sub_cancel_left]
      rw [hadvance, hpart, take_slice (by omega)]
      refine ⟨⟨hlen, by simp only; omega, hstop⟩, rfl, ?_⟩
      unfold pending
      rw [if_pos hwrap, if_neg (by simp only; omega), slice_eq_nil hend.ge, List.nil_append,
        Nat.zero_add, slice_append (Nat.zero_le n) (by omega)]
    · have hpart := nextPart_slice w.memory (show w.start < w.len by omega)
        (slice w.memory 0 w.stop)
      rw [hpart, length_slice] at hn
      rw [advance_eq (by omega), hpart, take_slice (by omega)]
      refine ⟨⟨hlen, by simp only; omega, hstop⟩, rfl, ?_⟩
      unfold pending
      rw [if_pos hwrap, if_pos (by simp only; omega), ← List.append_assoc,
        slice_append (Nat.le_add_right _ _) (show w.start + n ≤ w.len by omega)]
  · rw [if_neg hwrap] at hparts
    by_cases hlt : w.start < w.stop
    · rw [if_pos hlt, if_pos hstop, Except.ok.injEq] at hparts
      subst hparts
      have hpart := nextPart_slice w.memory hlt []
      rw [hpart, length_slice] at hn
      rw [advance_eq (by omega), hpart, take_slice (by omega)]
      refine ⟨⟨hlen, by simp only; omega, hstop⟩, rfl, ?_⟩
      unfold pending
      rw [if_neg hwrap, if_neg (by simp only; omega),
        slice_append (Nat.le_add_right _ _) (show w.start + n ≤ w.stop by omega)]
    · rw [if_neg hlt, Except.ok.injEq] at hparts
      subst hparts
      simp only [nextPart, List.isEmpty_nil, if_true, List.length_nil] at hn
      omega

/-- Nothing is lost when an empty writer is reset. -/
lemma settle_spec (hwf : w.WellFormed) (hempty : w.pending = []) :
    w.settle.WellFormed ∧ w.settle.capacity = w.capacity ∧ w.settle.pending = [] := by
  obtain ⟨hlen, hstart, hstop⟩ := hwf
  by_cases heq : w.start = w.stop
  · have hsettle : w.settle = { w with start := 0, stop := 0, len := 0 } := by
      simp [settle, heq]
    rw [hsettle]
    exact ⟨⟨Nat.zero_le _, le_rfl, le_rfl⟩, rfl, slice_self⟩
  · by_cases hlt : w.start < w.stop
    · unfold pending at hempty
      rw [if_neg (by omega)] at hempty
      have hlength := congrArg List.length hempty
      rw [length_slice, List.length_nil] at hlength
      omega
    · have hsettle : w.settle = w := by
        simp only [settle, if_neg heq]
        rw [if_neg (by omega)]
      rw [hsettle]
      exact ⟨⟨hlen, hstart, hstop⟩, rfl, hempty⟩

/-- An empty writer is reset and ready, whatever the connection takes. -/
lemma poll_empty {parts : Bytes × Bytes} (hwf : w.WellFormed)
    (hparts : w.writableParts = .ok parts) (hpending : parts.1 ++ parts.2 = w.pending)
    (hempty : (nextPart parts).isEmpty = true) (accepts : List ℕ) :
    ∃ w' out ready, poll accepts w = .ok (w', out, ready) ∧ w'.WellFormed ∧
      w'.capacity = w.capacity ∧ w.pending = out ++ w'.pending ∧
      (ready = true → w'.pending = []) := by
  have hpoll : poll accepts w = .ok (w.settle, [], true) := by
    cases accepts with
    | nil => simp only [poll, hparts, if_pos hempty]
    | cons more accepts => simp only [poll, hparts, if_pos hempty]
  have hnil : w.pending = [] := hpending.symm.trans (nextPart_eq_nil hempty)
  obtain ⟨hwf', hcap, hpend⟩ := settle_spec hwf hnil
  exact ⟨_, _, _, hpoll, hwf', hcap, hnil.trans hpend.symm, fun _ => hpend⟩

/-- A poll does not panic, sends a prefix of the contents, and is ready only when
nothing is left. -/
theorem poll_spec (hwf : w.WellFormed) (accepts : List ℕ) :
    ∃ w' out ready, poll accepts w = .ok (w', out, ready) ∧ w'.WellFormed ∧
      w'.capacity = w.capacity ∧ w.pending = out ++ w'.pending ∧
      (ready = true → w'.pending = []) := by
  induction accepts generalizing w with
  | nil =>
    obtain ⟨parts, hparts, hpending⟩ := writableParts_eq hwf
    by_cases hempty : (nextPart parts).isEmpty = true
    · exact poll_empty hwf hparts hpending hempty _
    · simp only [poll, hparts, if_neg hempty]
      exact ⟨_, _, _, rfl, hwf, rfl, rfl, fun h => by contradiction⟩
  | cons more accepts ih =>
    obtain ⟨parts, hparts, hpending⟩ := writableParts_eq hwf
    by_cases hempty : (nextPart parts).isEmpty = true
    · exact poll_empty hwf hparts hpending hempty _
    · simp only [poll, hparts, if_neg hempty]
      have hlength : 0 < (nextPart parts).length := by
        rw [List.isEmpty_iff] at hempty
        exact List.length_pos_iff.mpr hempty
      obtain ⟨hwf', hcap, hsent⟩ := advance_spec (n := min (more + 1) (nextPart parts).length) hwf
        hparts (by omega) (Nat.min_le_right _ _)
      obtain ⟨w', out, ready, hpoll, hwf'', hcap', hrest, hready⟩ := ih hwf'
      rw [hpoll]
      refine ⟨_, _, _, rfl, hwf'', hcap'.trans hcap, ?_, hready⟩
      rw [hsent, hrest, List.append_assoc]

end PacketWriter

open PacketWriter

/-- What a user of the writer does: write through a guard, write a packet, poll
against a destination. -/
inductive Op where
  | session (values : List Value)
  | packet (message : Value)
  | poll (accepts : List ℕ)

/-- The writer with its history: the bytes of all guards whose writes succeeded,
and the bytes that the destination took. -/
structure Queue where
  writer : PacketWriter
  accepted : Bytes
  delivered : Bytes

def Queue.new (capacity : ℕ) : Queue := ⟨Stream.new capacity, [], []⟩

inductive Step (q : Queue) : Op → Queue → Prop where
  | session {values : List Value} {w : PacketWriter} {ok : Bool}
      (h : q.writer.session values = .ok (w, ok)) :
      Step q (.session values)
        ⟨w, q.accepted ++ (if ok then bytesOf values else []), q.delivered⟩
  | packet {message : Value} {w : PacketWriter} {r : Option Unit}
      (h : q.writer.writePacket message = .ok (w, r)) :
      Step q (.packet message)
        ⟨w, q.accepted ++ (if r.isSome then bytesOf (packet message) else []), q.delivered⟩
  | poll {accepts : List ℕ} {w : PacketWriter} {out : Bytes} {ready : Bool}
      (h : poll accepts q.writer = .ok (w, out, ready)) :
      Step q (.poll accepts) ⟨w, q.accepted, q.delivered ++ out⟩

/-- A guard appends, and its first write that does not fit is its last one. -/
def KeepsOrder (w : PacketWriter) : Op → Prop
  | .session values => w.Appends (bytesOf values).length ∧ (bytesOf values.dropLast).length ≤ w.room
  | .packet message => w.Appends (bytesOf (packet message)).length
  | .poll _ => True

/-- Delivered and pending bytes together are the accepted ones. -/
def Ordered (q : Queue) : Prop :=
  q.writer.WellFormed ∧ q.delivered ++ q.writer.pending = q.accepted

section
variable {w : PacketWriter}

theorem session_spec {values : List Value} (hwf : w.WellFormed)
    (hok : KeepsOrder w (.session values)) : ∃ w' ok, w.session values = .ok (w', ok) ∧
      Appended w w' (if ok then bytesOf values else []) := by
  obtain ⟨happends, hfit⟩ := hok
  by_cases hall : (bytesOf values).length ≤ w.room
  · obtain ⟨w', hsession, happended⟩ := session_fits hwf happends hall
    exact ⟨w', true, hsession, happended⟩
  · have hne : values ≠ [] := by
      rintro rfl
      exact hall (Nat.zero_le _)
    have hsplit := List.dropLast_append_getLast hne
    rw [← hsplit] at happends hall
    obtain ⟨w', hsession, happended⟩ := session_overflow hwf happends hfit (by omega)
    rw [hsplit] at hsession
    exact ⟨w', false, hsession, happended⟩

theorem writePacket_spec {message : Value} (hwf : w.WellFormed)
    (hok : KeepsOrder w (.packet message)) : ∃ w' r, w.writePacket message = .ok (w', r) ∧
      Appended w w' (if r.isSome then bytesOf (packet message) else []) := by
  by_cases hall : (bytesOf (packet message)).length ≤ w.room
  · obtain ⟨w', hsession, happended⟩ := session_fits hwf hok hall
    exact ⟨w', some (), writePacket_fits hwf hall hsession, happended⟩
  · obtain ⟨w', hpacket, happended⟩ := writePacket_overflow hwf hok (by omega)
    exact ⟨w', none, hpacket, happended⟩

end

lemma Ordered.append {q : Queue} {w : PacketWriter} {bytes : Bytes} (h : Ordered q)
    (happended : Appended q.writer w bytes) :
    Ordered ⟨w, q.accepted ++ bytes, q.delivered⟩ := by
  obtain ⟨hwf, -, hpending⟩ := happended
  refine ⟨hwf, ?_⟩
  simp only
  rw [hpending, ← List.append_assoc, h.2]

theorem ordered_step {q next : Queue} {op : Op} (hq : Ordered q) (hok : KeepsOrder q.writer op)
    (hstep : Step q op next) : Ordered next := by
  cases hstep with
  | session h =>
    obtain ⟨w', ok', hsession, happended⟩ := session_spec hq.1 hok
    rw [h, Except.ok.injEq, Prod.mk.injEq] at hsession
    obtain ⟨rfl, rfl⟩ := hsession
    exact hq.append happended
  | packet h =>
    obtain ⟨w', r', hpacket, happended⟩ := writePacket_spec hq.1 hok
    rw [h, Except.ok.injEq, Prod.mk.injEq] at hpacket
    obtain ⟨rfl, rfl⟩ := hpacket
    exact hq.append happended
  | poll h =>
    obtain ⟨w', out', ready', hpoll, hwf, -, hpending, -⟩ := poll_spec hq.1 _
    rw [h, Except.ok.injEq, Prod.mk.injEq, Prod.mk.injEq] at hpoll
    obtain ⟨rfl, rfl, rfl⟩ := hpoll
    refine ⟨hwf, ?_⟩
    simp only
    rw [List.append_assoc, ← hpending, hq.2]

theorem ordered_run {capacity : ℕ} {ops : List Op} {q : Queue}
    (h : Run (guarded (fun q op => KeepsOrder q.writer op) Step) (Queue.new capacity) ops q) :
    Ordered q :=
  h.stateInvariant (P := Ordered) ⟨wellFormed_new capacity, rfl⟩
    (fun _ _ _ hq he => ordered_step hq he.1 he.2)

/-- In every run whose guards append, and stop writing after a refused value, the
destination has a prefix of the accepted bytes. A further poll does not panic,
extends this prefix, and is ready only when all accepted bytes are delivered. A
refused packet changes no pending byte, and no guard panics. -/
theorem packetWriter_fifo (capacity : ℕ) (ops : List Op) (q : Queue)
    (h : Run (guarded (fun q op => KeepsOrder q.writer op) Step) (Queue.new capacity) ops q) :
    q.delivered <+: q.accepted ∧
    (∀ accepts, ∃ w out ready, poll accepts q.writer = .ok (w, out, ready) ∧
      q.delivered ++ out <+: q.accepted ∧ (ready = true → q.delivered ++ out = q.accepted)) ∧
    (∀ message w, KeepsOrder q.writer (.packet message) →
      q.writer.writePacket message = .ok (w, none) → w.pending = q.writer.pending) ∧
    ∀ op, KeepsOrder q.writer op → ∃ next, Step q op next := by
  have hq := ordered_run h
  obtain ⟨hwf, hbytes⟩ := hq
  refine ⟨⟨_, hbytes⟩, fun accepts => ?_, fun message w hok hpacket => ?_, fun op hok => ?_⟩
  · obtain ⟨w, out, ready, hpoll, -, -, hpending, hready⟩ := poll_spec hwf accepts
    rw [hpending, ← List.append_assoc] at hbytes
    refine ⟨w, out, ready, hpoll, ⟨_, hbytes⟩, fun hr => ?_⟩
    rwa [hready hr, List.append_nil] at hbytes
  · obtain ⟨w', r, hspec, -, -, hpending⟩ := writePacket_spec hwf hok
    rw [hpacket, Except.ok.injEq, Prod.mk.injEq] at hspec
    obtain ⟨rfl, rfl⟩ := hspec
    simpa using hpending
  · cases op with
    | session values =>
      obtain ⟨w, ok, hsession, -⟩ := session_spec hwf hok
      exact ⟨_, .session hsession⟩
    | packet message =>
      obtain ⟨w, r, hpacket, -⟩ := writePacket_spec hwf hok
      exact ⟨_, .packet hpacket⟩
    | poll accepts =>
      obtain ⟨w, out, ready, hpoll, -⟩ := poll_spec hwf accepts
      exact ⟨_, .poll hpoll⟩

/-- Two guards, the second of which wraps around, and a poll that sends both. -/
theorem packetWriter_fifo_wrapped : ∃ q,
    Run (guarded (fun q op => KeepsOrder q.writer op) Step) (Queue.new 6)
      [.session [[[1, 2], [3]], [[4, 5]]], .poll [2], .session [[[6]], [[7]]], .poll [8, 8]] q ∧
    q.delivered <+: q.accepted ∧ q.delivered = [1, 2, 3, 4, 5, 6, 7] := by
  obtain ⟨q, hrun, hq⟩ : ∃ q, Run (guarded (fun q op => KeepsOrder q.writer op) Step) (Queue.new 6)
      [.session [[[1, 2], [3]], [[4, 5]]], .poll [2], .session [[[6]], [[7]]], .poll [8, 8]] q ∧
      q.delivered = [1, 2, 3, 4, 5, 6, 7] := by
    refine ⟨_, .next _ (.next _ (.next _ (.next _ .start ⟨?_, .session rfl⟩) ⟨trivial, .poll rfl⟩)
      ⟨?_, .session rfl⟩) ⟨trivial, .poll rfl⟩, rfl⟩
    · refine ⟨⟨fun _ _ => ⟨fun h => absurd h (by decide), fun _ h => absurd h (by decide)⟩,
        fun h => absurd h (by decide)⟩, by decide⟩
    · refine ⟨⟨fun _ _ => ⟨fun _ => ⟨by decide, fun h => absurd h.2 (by decide)⟩,
        fun h => absurd (by decide) h⟩, fun h => absurd h (by decide)⟩, by decide⟩
  exact ⟨q, hrun, (packetWriter_fifo _ _ _ hrun).1, hq⟩

/-- A replacing guard fills its target: the writer looks empty, the poll is
ready, and three accepted bytes are not delivered. -/
theorem packetWriter_loses_bytes : ∃ q w,
    Run Step (Queue.new 2) [.session [[[1, 2]]], .poll [0], .session [[[3]]]] q ∧
    q.accepted = [1, 2, 3] ∧ poll [] q.writer = .ok (w, [], true) ∧ q.delivered = [1] := by
  refine ⟨_, _, .next _ (.next _ (.next _ .start (.session rfl)) (.poll rfl)) (.session rfl),
    rfl, rfl, rfl⟩

end OrionNetwork.Stream
