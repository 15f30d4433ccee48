import OrionNetwork.MailDelivery
import OrionNetwork.PacketReader

/-!
# Encrypted streams

Two ends share a key. What one of them writes is encrypted in the buffer of its writer, goes over a
connection that takes and gives bytes in pieces of any size, and is decrypted in the buffer of the
other's reader. An end that meets an error drops the connection.
-/
namespace OrionNetwork.Encrypted
open ByteMemory ChunkedInput Codec Onion Packets Runs
open OrionNetwork.Stream (Value PacketWriter PacketWriterGuard Fault bytesOf)
open OrionNetwork.Stream.PacketWriter
open Streaming (IoError Poll)

section Writing

variable (s : Suite) (key : SharedSecret) (nonce : Sized nonceSize)

/-- What is sent of a packet apart from its length. -/
def sealed (data : Bytes) : Bytes :=
  (s.encrypt key nonce data).1 ++ (s.encrypt key nonce data).2.val ++ nonce.val

variable {s} (hs : s.Lawful) {w : PacketWriter} {data : Value}

include hs in
theorem length_sealed (data : Bytes) : (sealed s key nonce data).length = data.length + 28 := by
  have htag : (s.encrypt key nonce data).2.val.length = 16 := (s.encrypt key nonce data).2.property
  have hnonce : nonce.val.length = 12 := nonce.property
  unfold sealed
  rw [List.length_append, List.length_append, hs.length_encrypt]
  omega

theorem store_over {xs ys : Bytes} (memory : ℕ → UInt8) (pos : ℕ) (h : ys.length = xs.length) :
    store (store memory pos xs) pos ys = store memory pos ys := by
  have hpatch : store (store memory pos (xs ++ [])) pos ys = store memory pos (ys ++ []) :=
    store_patch h.symm
  rwa [List.append_nil, List.append_nil] at hpatch

/-- The data is encrypted where it was written, which is the same as writing it encrypted. -/
theorem write_encrypted {w₁ w₂ : PacketWriter} {g₁ g₂ : PacketWriterGuard} {pos len : ℕ}
    (h : w₁.write g₁ data = (w₂, g₂, some (pos, len))) :
    slice w₂.memory pos (pos + len) = data.flatten ∧ len = data.flatten.length ∧
      ∀ cipher : Bytes, cipher.length = len →
        w₁.write g₁ [cipher] =
          ({ w₂ with memory := store w₂.memory pos cipher }, g₂, some (pos, len)) := by
  rcases MailDelivery.write_cases w₁ g₁ data with ⟨hfits, -⟩ | ⟨-, w', g', hnone⟩
  · cases g₁ with
    | extending stop owned =>
      rw [write_extending hfits] at h
      cases h
      refine ⟨slice_store, rfl, fun cipher hcipher => ?_⟩
      have hsame : [cipher].flatten.length = data.flatten.length := by simpa using hcipher
      rw [write_extending (by rw [hsame]; exact hfits), hsame, store_over _ _ hcipher,
        List.flatten_singleton]
    | replacing written start last =>
      rw [write_replacing hfits] at h
      cases h
      refine ⟨slice_store, rfl, fun cipher hcipher => ?_⟩
      have hsame : [cipher].flatten.length = data.flatten.length := by simpa using hcipher
      rw [write_replacing (by rw [hsame]; exact hfits), hsame, store_over _ _ hcipher,
        List.flatten_singleton]
  · rw [h] at hnone
    cases hnone

/-- What a guard that is opened can take is the room of the writer. -/
theorem left_of_guard {w w₁ : PacketWriter} {g : PacketWriterGuard} (h : w.guard = .ok (w₁, g)) :
    MailDelivery.left w₁ g = w.room := by
  unfold room
  by_cases hrep : w.Replaces
  · rw [if_pos hrep]
    have hspace : w.capacity - w.len < w.space.2 - w.space.1 := hrep
    unfold PacketWriter.guard at h
    rw [if_pos hspace] at h
    by_cases hle : w.space.2 ≤ w.len
    · rw [if_pos hle] at h
      cases h
      rfl
    · rw [if_neg hle] at h
      cases h
  · rw [if_neg hrep]
    rw [guard_extending hrep] at h
    split_ifs at h ⊢
    · cases h
      rfl
    · cases h
      rfl

theorem length_bytesOf_concat (values : List Value) (value : Value) :
    (bytesOf (values ++ [value])).length = (bytesOf values).length + value.flatten.length := by
  rw [Stream.bytesOf_append, List.length_append, Stream.bytesOf_cons, Stream.bytesOf_nil,
    List.append_nil]

include hs in
/-- A packet that is refused was written in part: up to the first value that does not fit. -/
theorem writeEncrypted_refused {g : PacketWriterGuard}
    (h : MailDelivery.left w g < data.flatten.length + 30) :
    ∃ values value, (bytesOf values).length ≤ MailDelivery.left w g ∧
      MailDelivery.left w g < (bytesOf (values ++ [value])).length ∧
      (w.writeAll g (values ++ [value])).2.2 = false ∧
      MailDelivery.writeEncrypted s key nonce w g data =
        ((w.writeAll g (values ++ [value])).1.drop (w.writeAll g (values ++ [value])).2.1,
          none) := by
  have hlength := hs.length_encrypt key nonce data.flatten
  have htag : [(s.encrypt key nonce data.flatten).2.val].flatten.length = 16 := by
    rw [List.flatten_singleton]
    exact (s.encrypt key nonce data.flatten).2.property
  have hnonce : [nonce.val].flatten.length = 12 := by
    rw [List.flatten_singleton]
    exact nonce.property
  have hzero : ([[0, 0]] : Value).flatten.length = 2 := rfl
  have hcipher : [(s.encrypt key nonce data.flatten).1].flatten.length = data.flatten.length := by
    rw [List.flatten_singleton, hlength]
  have hhead : (bytesOf ([[[0, 0]]] : List Value)).length = 2 := rfl
  have hbody : (bytesOf ([[[0, 0]]] ++ [[(s.encrypt key nonce data.flatten).1]])).length =
      2 + data.flatten.length := by
    rw [length_bytesOf_concat, hhead, hcipher]
  unfold MailDelivery.writeEncrypted
  rcases MailDelivery.write_cases w g [[0, 0]] with ⟨hfits₁, w₁, g₁, reserved, h₁, hleft₁⟩ |
    ⟨hover, w₁, g₁, h₁⟩
  · rw [h₁]
    rcases MailDelivery.write_cases w₁ g₁ data with ⟨hfits₂, w₂, g₂, pos, h₂, hleft₂⟩ |
      ⟨hover, w₂, g₂, h₂⟩
    · obtain ⟨hslice, -, hsame⟩ := write_encrypted h₂
      have hwrite := hsame (s.encrypt key nonce data.flatten).1 hlength
      obtain ⟨w₃, hw₃⟩ : ∃ w₃ : PacketWriter, w₃ =
        { w₂ with memory := store w₂.memory pos (s.encrypt key nonce data.flatten).1 } := ⟨_, rfl⟩
      have hleft₃ : MailDelivery.left w₃ g₂ = MailDelivery.left w₂ g₂ := by
        rw [hw₃, MailDelivery.left_memory]
      rw [← hw₃] at hwrite
      dsimp only
      rw [h₂]
      dsimp only
      rw [hslice, ← hw₃]
      unfold MailDelivery.writeSeal
      rcases MailDelivery.write_cases w₃ g₂ [(s.encrypt key nonce data.flatten).2.val] with
        ⟨hfits₃, w₄, g₄, tagPos, h₄, hleft₄⟩ | ⟨hover, w₄, g₄, h₄⟩
      · rcases MailDelivery.write_cases w₄ g₄ [nonce.val] with ⟨hfits₄, -⟩ | ⟨hover, w₅, g₅, h₅⟩
        · omega
        · refine ⟨[[[0, 0]]] ++ [[(s.encrypt key nonce data.flatten).1]] ++
            [[(s.encrypt key nonce data.flatten).2.val]], [nonce.val], ?_, ?_, ?_, ?_⟩
          · rw [length_bytesOf_concat, hbody]
            omega
          · rw [length_bytesOf_concat, length_bytesOf_concat, hbody]
            omega
          · simp [writeAll, h₁, hwrite, h₄, h₅]
          · simp [writeAll, h₁, hwrite, h₄, h₅]
      · refine ⟨[[[0, 0]]] ++ [[(s.encrypt key nonce data.flatten).1]],
          [(s.encrypt key nonce data.flatten).2.val], ?_, ?_, ?_, ?_⟩
        · rw [hbody]
          omega
        · rw [length_bytesOf_concat, hbody]
          omega
        · simp [writeAll, h₁, hwrite, h₄]
        · simp [writeAll, h₁, hwrite, h₄]
    · refine ⟨[[[0, 0]]], data, hfits₁, ?_, ?_, ?_⟩
      · rw [length_bytesOf_concat, hhead]
        omega
      · simp [writeAll, h₁, h₂]
      · simp [writeAll, h₁, h₂]
  · refine ⟨[], [[0, 0]], Nat.zero_le _, hover, ?_, ?_⟩
    · simp [writeAll, h₁]
    · simp [writeAll, h₁]

include hs in
/-- The length replaces the bytes reserved for it. -/
theorem store_framed (memory : ℕ → UInt8) (pos : ℕ) (data : Bytes) :
    store (store (store (store (store memory pos [0, 0]) (pos + 2)
        (s.encrypt key nonce data).1) (pos + 2 + data.length) (s.encrypt key nonce data).2.val)
          (pos + 2 + data.length + 16) nonce.val) pos (encodeLen (data.length + 28)) =
      store memory pos (framed (sealed s key nonce data)) := by
  have hlength := hs.length_encrypt key nonce data
  have htag : (s.encrypt key nonce data).2.val.length = 16 := (s.encrypt key nonce data).2.property
  have hreserved : ([0, 0] : Bytes).length = (encodeLen (data.length + 28)).length := rfl
  have hall : store (store (store (store memory pos [0, 0]) (pos + 2) (s.encrypt key nonce data).1)
      (pos + 2 + data.length) (s.encrypt key nonce data).2.val) (pos + 2 + data.length + 16)
        nonce.val = store memory pos ([0, 0] ++ sealed s key nonce data) := by
    unfold sealed
    rw [store_append, store_append, store_append]
    rw [List.length_append, htag, hlength]
    rfl
  rw [hall, store_patch hreserved]
  unfold framed
  rw [length_sealed key nonce hs]

include hs in
/-- A packet that fits is written as if it were framed and encrypted before. -/
theorem writeEncrypted_fits {g : PacketWriterGuard}
    (h : data.flatten.length + 30 ≤ MailDelivery.left w g) :
    MailDelivery.writeEncrypted s key nonce w g data =
      ((w.writeAll g [[framed (sealed s key nonce data.flatten)]]).1.drop
        (w.writeAll g [[framed (sealed s key nonce data.flatten)]]).2.1, some ()) := by
  have hlength := hs.length_encrypt key nonce data.flatten
  have htag : (s.encrypt key nonce data.flatten).2.val.length = 16 :=
    (s.encrypt key nonce data.flatten).2.property
  have hnonce : nonce.val.length = 12 := nonce.property
  have hframe : (framed (sealed s key nonce data.flatten)).length = data.flatten.length + 30 := by
    unfold framed encodeLen
    rw [List.length_append, length_sealed key nonce hs]
    exact Nat.add_comm 2 _
  have hbytes : bytesOf [[framed (sealed s key nonce data.flatten)]] =
      framed (sealed s key nonce data.flatten) := by
    rw [Stream.bytesOf_cons, Stream.bytesOf_nil, List.append_nil, List.flatten_singleton]
  have htotal : data.flatten.length + 16 + 12 = data.flatten.length + 28 := rfl
  cases g with
  | extending stop owned =>
    change data.flatten.length + 30 ≤ w.capacity - stop at h
    have hreserved : w.write (.extending stop owned) [[0, 0]] =
        ({ w with memory := store w.memory stop [0, 0] }, .extending (stop + 2) owned,
          some (stop, 2)) := write_extending (show 2 ≤ w.capacity - stop by omega)
    rw [writeAll_extending (by rw [hbytes, hframe]; exact h)]
    unfold MailDelivery.writeEncrypted MailDelivery.writeSeal
    simp only [hreserved]
    rw [write_extending (by simp only; omega)]
    simp only [slice_store]
    rw [write_extending (by simp only [List.flatten_singleton]; omega)]
    simp only
    rw [write_extending (by simp only [List.flatten_singleton]; omega)]
    simp only [List.flatten_singleton, htag, hnonce, hbytes, hframe, htotal]
    rw [store_over _ _ hlength, store_framed key nonce hs,
      show stop + 2 + data.flatten.length + 16 + 12 = stop + (data.flatten.length + 30) by omega]
  | replacing written start last =>
    change data.flatten.length + 30 ≤ last - start at h
    have hreserved : w.write (.replacing written start last) [[0, 0]] =
        ({ w with memory := store w.memory start [0, 0] },
          .replacing (written + 2) (start + 2) last, some (start, 2)) :=
      write_replacing (show 2 ≤ last - start by omega)
    rw [writeAll_replacing (by rw [hbytes, hframe]; exact h)]
    unfold MailDelivery.writeEncrypted MailDelivery.writeSeal
    simp only [hreserved]
    rw [write_replacing (by omega)]
    simp only [slice_store]
    rw [write_replacing (by simp only [List.flatten_singleton]; omega)]
    simp only
    rw [write_replacing (by simp only [List.flatten_singleton]; omega)]
    simp only [List.flatten_singleton, htag, hnonce, hbytes, hframe, htotal]
    rw [store_over _ _ hlength, store_framed key nonce hs,
      show written + 2 + data.flatten.length + 16 + 12 = written + (data.flatten.length + 30) by
        omega,
      show start + 2 + data.flatten.length + 16 + 12 = start + (data.flatten.length + 30) by omega]

theorem exists_guard (hwf : w.WellFormed) : ∃ w₁ g, w.guard = .ok (w₁, g) := by
  by_cases hrep : w.Replaces
  · exact ⟨_, _, guard_replacing hwf hrep⟩
  · exact ⟨_, _, guard_extending hrep⟩

include hs in
/-- A write that keeps the order appends a packet or nothing. -/
theorem write_spec (hwf : w.WellFormed) (hok : w.Appends (data.flatten.length + 30)) :
    ∃ w' r, MailDelivery.write s key nonce w data = .ok (w', r) ∧
      (r.isSome → data.flatten.length + 30 ≤ w.room) ∧
      Appended w w' (if r.isSome then framed (sealed s key nonce data.flatten) else []) := by
  obtain ⟨w₁, g, hguard⟩ := exists_guard hwf
  have hleft := left_of_guard hguard
  have hbytes : bytesOf [[framed (sealed s key nonce data.flatten)]] =
      framed (sealed s key nonce data.flatten) := by
    rw [Stream.bytesOf_cons, Stream.bytesOf_nil, List.append_nil, List.flatten_singleton]
  have hframe : (framed (sealed s key nonce data.flatten)).length = data.flatten.length + 30 := by
    unfold framed encodeLen
    rw [List.length_append, length_sealed key nonce hs]
    exact Nat.add_comm 2 _
  by_cases hfit : data.flatten.length + 30 ≤ w.room
  · rw [← hframe, ← hbytes] at hok
    obtain ⟨w', hsession, happended⟩ :=
      session_fits hwf hok (by rw [hbytes, hframe]; exact hfit)
    refine ⟨w', some (), ?_, fun _ => hfit, hbytes ▸ happended⟩
    unfold session at hsession
    unfold MailDelivery.write
    rw [hguard] at hsession ⊢
    obtain ⟨hdrop, -⟩ := Prod.mk.inj (Except.ok.inj hsession)
    dsimp only
    rw [writeEncrypted_fits key nonce hs (hleft ▸ hfit), hdrop]
  · obtain ⟨values, value, hvalues, hover, hfalse, hrefused⟩ :=
      writeEncrypted_refused key nonce hs (hleft ▸ Nat.lt_of_not_le hfit)
    rw [hleft] at hvalues hover
    have hstale : w.Appends (bytesOf (values ++ [value])).length :=
      ⟨fun hle => absurd hle (Nat.not_le_of_lt hover), fun _ => hok.2 (Nat.lt_of_not_le hfit)⟩
    obtain ⟨w', hsession, happended⟩ := session_overflow hwf hstale hvalues hover
    refine ⟨w', none, ?_, fun h => by contradiction, happended⟩
    unfold session at hsession
    unfold MailDelivery.write
    rw [hguard] at hsession ⊢
    obtain ⟨hdrop, -⟩ := Prod.mk.inj (Except.ok.inj hsession)
    dsimp only
    rw [hrefused, hdrop]

end Writing

section Streams

variable (s : Suite)

/-- The connection is there until there is an error. -/
structure EncryptedStream where
  inner : Bool
  key : SharedSecret
  reader : PacketReader
  writer : PacketWriter

/-- What a connection does in one poll: it takes bytes until it makes the writer wait or fails, and
it has bytes to read. -/
structure Connection where
  accepts : List ℕ
  failure : Option IoError
  source : Source UInt8

namespace EncryptedStream

def new (key : SharedSecret) (cap : ℕ) : EncryptedStream := ⟨true, key, {}, Stream.new cap⟩

def write (e : EncryptedStream) (nonce : Sized nonceSize) (data : Value) :
    Except Fault (EncryptedStream × Option Unit) :=
  match MailDelivery.write s e.key nonce e.writer data with
  | .error fault => .error fault
  | .ok (writer, taken) => .ok ({ e with writer := writer }, taken)

/-- The end of `poll`: a packet that cannot be decrypted is an error. -/
def pollRead (e : EncryptedStream) (source : Source UInt8) :
    Except Fault (Poll (Except IoError Bytes) × EncryptedStream × Source UInt8) :=
  match e.reader.pollPacket source with
  | (.pending, reader, source) => .ok (.pending, { e with reader := reader }, source)
  | (.ready (.packet read), reader, source) =>
    match peelWihKey s e.key read with
    | none =>
      .ok (.ready (.error .invalidData), { e with inner := false, reader := reader }, source)
    | some data => .ok (.ready (.ok data), { e with reader := reader }, source)
  | (.ready (.failed error), reader, source) =>
    .ok (.ready (.error error), { e with inner := false, reader := reader }, source)
  | (.ready .panicked, _, _) => .error .outOfBounds

/-- The answer, the stream, what the connection took and what it still has. -/
def poll (e : EncryptedStream) (c : Connection) :
    Except Fault (Poll (Except IoError Bytes) × EncryptedStream × Bytes × Source UInt8) :=
  if e.inner then
    match PacketWriter.poll c.accepts e.writer with
    | .error fault => .error fault
    | .ok (writer, out, ready) =>
      match (if ready then none else c.failure) with
      | some error =>
        .ok (.ready (.error error), { e with inner := false, writer := writer }, out, c.source)
      | none =>
        match pollRead s { e with writer := writer } c.source with
        | .error fault => .error fault
        | .ok (answer, e, source) => .ok (answer, e, out, source)
  else .ok (.pending, e, [], c.source)

end EncryptedStream

/-- One end, with the bytes on their way to it, and the data that it wrote and that it read. -/
structure End where
  stream : EncryptedStream
  wire : Bytes
  accepted : List Bytes
  received : List Bytes

abbrev World := Bool → End

def start (key : SharedSecret) (cap : Bool → ℕ) : World :=
  fun b => ⟨.new key (cap b), [], [], []⟩

inductive Event where
  | write (b : Bool) (nonce : Sized nonceSize) (data : Value)
  | poll (b : Bool) (c : Connection)

/-- The packet of an answer. -/
def packetOf : Poll (Except IoError Bytes) → List Bytes
  | .ready (.ok data) => [data]
  | .ready (.error _) => []
  | .pending => []

/-- What a poll reads is the beginning of what is on its way. -/
inductive Step (w : World) : Event → World → Prop where
  | write {b : Bool} {nonce : Sized nonceSize} {data : Value} {stream : EncryptedStream}
      {taken : Option Unit} (h : (w b).stream.write s nonce data = .ok (stream, taken)) :
      Step w (.write b nonce data) (Function.update w b { w b with
        stream := stream
        accepted := (w b).accepted ++ (if taken.isSome then [data.flatten] else []) })
  | poll {b : Bool} {c : Connection} {later : Bytes} {answer : Poll (Except IoError Bytes)}
      {stream : EncryptedStream} {out : Bytes} {source : Source UInt8}
      (hwire : (w b).wire = c.source.left ++ later)
      (h : (w b).stream.poll s c = .ok (answer, stream, out, source)) :
      Step w (.poll b c) (Function.update
        (Function.update w (!b) { w (!b) with wire := (w (!b)).wire ++ out }) b { w b with
          stream := stream
          wire := source.left ++ later
          received := (w b).received ++ packetOf answer })

/-- A write appends to what the writer holds. -/
def KeepsOrder (w : World) : Event → Prop
  | .write b _ data => (w b).stream.writer.Appends (data.flatten.length + 30)
  | .poll .. => True

end Streams

section Delivery

variable {s : Suite} {key : SharedSecret} {sender receiver : End}

/-- The packets of some writes, as they go over the connection. -/
def frames (s : Suite) (key : SharedSecret) (rest : List (Bytes × Sized nonceSize)) : Bytes :=
  rest.flatMap fun p => framed (sealed s key p.2 p.1)

theorem room_le_capacity {w : PacketWriter} (hwf : w.WellFormed) : w.room ≤ w.capacity := by
  have hlen := hwf.len_le
  have hstart := hwf.start_le
  have hstop := hwf.stop_le
  unfold room space
  split_ifs
  · dsimp only
    omega
  · dsimp only
    omega
  · omega
  · omega

/-- What was written but not read yet. As long as the receiver has the connection, it is held by the
reader, on its way, or in the writer. -/
structure Carries (s : Suite) (key : SharedSecret) (sender receiver : End)
    (rest : List (Bytes × Sized nonceSize)) : Prop where
  accepted : receiver.received ++ rest.map Prod.fst = sender.accepted
  small : ∀ p ∈ rest, p.1.length + 28 ≤ 65535
  bytes : receiver.stream.inner = true → ∃ read, receiver.stream.reader.Holds read ∧
    PacketReader.Within read ∧
    read ++ (receiver.wire ++ sender.stream.writer.pending) = frames s key rest

structure Linked (s : Suite) (key : SharedSecret) (sender receiver : End) : Prop where
  keys : sender.stream.key = key ∧ receiver.stream.key = key
  wellFormed : sender.stream.writer.WellFormed
  capacity : sender.stream.writer.capacity ≤ 65537
  carries : ∃ rest, Carries s key sender receiver rest

theorem takeFrame_append {wire bytes rest : Bytes} (h : takeFrame wire = some (bytes, rest))
    (more : Bytes) : takeFrame (wire ++ more) = some (bytes, rest ++ more) := by
  cases wire with
  | nil => cases h
  | cons hi wire =>
    cases wire with
    | nil => cases h
    | cons lo body =>
      rw [takeFrame] at h
      split_ifs at h with hlength
      cases h
      have hlong : decodeLen hi lo ≤ (body ++ more).length := by
        rw [List.length_append]
        omega
      rw [List.cons_append, List.cons_append, takeFrame, if_pos hlong,
        List.take_append_of_le_length hlength, List.drop_append_of_le_length hlength]

variable (hs : s.Lawful)

include hs in
theorem takeFrame_frames {p : Bytes × Sized nonceSize} {rest : List (Bytes × Sized nonceSize)}
    (hsmall : p.1.length + 28 ≤ 65535) :
    takeFrame (frames s key (p :: rest)) = some (sealed s key p.2 p.1, frames s key rest) :=
  PacketReader.takeFrame_framed (by rw [length_sealed key p.2 hs]; exact hsmall) _

/-- Only parts of the ends matter. -/
theorem Linked.congr {sender' receiver' : End} (h : Linked s key sender receiver)
    (hkeys : sender'.stream.key = sender.stream.key ∧ receiver'.stream.key = receiver.stream.key)
    (hwriter : sender'.stream.writer = sender.stream.writer)
    (haccepted : sender'.accepted = sender.accepted)
    (hinner : receiver'.stream.inner = receiver.stream.inner)
    (hreader : receiver'.stream.reader = receiver.stream.reader)
    (hwire : receiver'.wire = receiver.wire) (hreceived : receiver'.received = receiver.received) :
    Linked s key sender' receiver' := by
  obtain ⟨⟨hsender, hreceiver⟩, hwf, hcap, rest, hrest⟩ := h
  refine ⟨⟨hkeys.1.trans hsender, hkeys.2.trans hreceiver⟩, hwriter ▸ hwf, hwriter ▸ hcap, rest, ?_⟩
  obtain ⟨hsame, hsmall, hbytes⟩ := hrest
  refine ⟨?_, hsmall, ?_⟩
  · rw [hreceived, haccepted, hsame]
  · rw [hinner, hreader, hwire, hwriter]
    exact hbytes

include hs in
/-- A write puts one more packet behind the others, if it is taken. -/
theorem Linked.write {nonce : Sized nonceSize} {data : Value} {stream : EncryptedStream}
    {taken : Option Unit} (h : Linked s key sender receiver)
    (hok : sender.stream.writer.Appends (data.flatten.length + 30))
    (hwrite : sender.stream.write s nonce data = .ok (stream, taken)) :
    Linked s key { sender with
      stream := stream
      accepted := sender.accepted ++ (if taken.isSome then [data.flatten] else []) } receiver := by
  obtain ⟨⟨hsender, hreceiver⟩, hwf, hcap, rest, hsame, hsmall, hbytes⟩ := h
  obtain ⟨w', r, hspec, hroom, hwf', hcap', hpending⟩ := write_spec key nonce hs hwf hok
  unfold EncryptedStream.write at hwrite
  rw [hsender, hspec] at hwrite
  cases hwrite
  refine ⟨⟨rfl, hreceiver⟩, hwf', hcap' ▸ hcap, ?_⟩
  cases taken with
  | none =>
    refine ⟨rest, ?_, hsmall, fun hinner => ?_⟩
    · exact hsame.trans (List.append_nil _).symm
    · obtain ⟨read, hholds, hwithin, hwire⟩ := hbytes hinner
      refine ⟨read, hholds, hwithin, ?_⟩
      rw [← hwire]
      dsimp only
      rw [hpending]
      exact congrArg (fun tail => read ++ (receiver.wire ++ tail)) (List.append_nil _)
  | some taken =>
    refine ⟨rest ++ [(data.flatten, nonce)], ?_, ?_, fun hinner => ?_⟩
    · rw [List.map_append, ← List.append_assoc, hsame]
      rfl
    · intro p hp
      rcases List.mem_append.mp hp with hp | hp
      · exact hsmall p hp
      · cases List.mem_singleton.mp hp
        have hfits := hroom rfl
        have hle := room_le_capacity hwf
        dsimp only
        omega
    · obtain ⟨read, hholds, hwithin, hwire⟩ := hbytes hinner
      refine ⟨read, hholds, hwithin, ?_⟩
      dsimp only
      rw [hpending]
      unfold frames at hwire ⊢
      rw [List.flatMap_append, ← hwire]
      simp

theorem Linked.send {sender' : End} {out : Bytes} (h : Linked s key sender receiver)
    (hkey : sender'.stream.key = sender.stream.key) (haccepted : sender'.accepted = sender.accepted)
    (hwf : sender'.stream.writer.WellFormed)
    (hcap : sender'.stream.writer.capacity = sender.stream.writer.capacity)
    (hpending : sender.stream.writer.pending = out ++ sender'.stream.writer.pending) :
    Linked s key sender' { receiver with wire := receiver.wire ++ out } := by
  obtain ⟨⟨hsender, hreceiver⟩, -, hsmall, rest, hsame, hrest, hbytes⟩ := h
  refine ⟨⟨hkey.trans hsender, hreceiver⟩, hwf, hcap ▸ hsmall, rest, ?_, hrest, fun hinner => ?_⟩
  · rw [haccepted]
    exact hsame
  · obtain ⟨read, hholds, hwithin, hwire⟩ := hbytes hinner
    refine ⟨read, hholds, hwithin, ?_⟩
    rw [← hwire, hpending]
    dsimp only
    rw [List.append_assoc]

/-- What a read of the first part of the wire comes to. -/
structure Reads (s : Suite) (key : SharedSecret) (sender receiver : End)
    (rest : List (Bytes × Sized nonceSize)) (later : Bytes) (source : Source UInt8)
    (answer : Poll (Except IoError Bytes)) (e : EncryptedStream) (source' : Source UInt8) :
    Prop where
  sameWriter : e.writer = receiver.stream.writer
  sameKey : e.key = receiver.stream.key
  carries : ∃ rest', Carries s key sender { receiver with
    stream := e
    wire := source'.left ++ later
    received := receiver.received ++ packetOf answer } rest'
  ended : ∀ error, answer = .ready (.error error) → error = .unexpectedEof
  progress : source.delays = 0 → later = [] → sender.stream.writer.pending = [] → rest ≠ [] →
    ∃ data, answer = .ready (.ok data)

include hs in
/-- A read waits, finds the end of the connection, or delivers the first packet that was not read
yet. -/
theorem pollRead_spec {rest : List (Bytes × Sized nonceSize)} {source : Source UInt8}
    {later : Bytes} (h : Carries s key sender receiver rest) (hkey : receiver.stream.key = key)
    (hinner : receiver.stream.inner = true) (hwire : receiver.wire = source.left ++ later) :
    ∃ answer e source', receiver.stream.pollRead s source = .ok (answer, e, source') ∧
      Reads s key sender receiver rest later source answer e source' := by
  obtain ⟨hsame, hsmall, hbytes⟩ := h
  obtain ⟨read, hholds, hwithin, hframes⟩ := hbytes hinner
  rw [hwire, List.append_assoc, ← List.append_assoc] at hframes
  have hpolled := PacketReader.pollPacket_spec (s := source) hholds hwithin
  unfold EncryptedStream.pollRead
  generalize receiver.stream.reader.pollPacket source = x at hpolled ⊢
  generalize hall : read ++ source.left = all at hpolled hframes
  cases hpolled with
  | @wait read' reader source' hholds' hwithin' hwire' hdelays =>
    refine ⟨_, _, _, rfl, rfl, rfl, ⟨rest, ?_, hsmall, fun _ => ?_⟩, ?_, ?_⟩
    · exact (congrArg (· ++ _) (List.append_nil _)).trans hsame
    · refine ⟨read', hholds', hwithin', ?_⟩
      rw [← hframes, ← hwire']
      simp only [List.append_assoc]
    · rintro error ⟨⟩
    · intro hnone
      omega
  | @packet bytes reader source' hframe hholds' hdelays =>
    have hlong := takeFrame_append hframe (later ++ sender.stream.writer.pending)
    rw [hframes] at hlong
    cases rest with
    | nil => cases hlong
    | cons p rest =>
      obtain ⟨hbytes', hmore⟩ := Prod.mk.inj (Option.some.inj ((takeFrame_frames hs
        (hsmall p List.mem_cons_self)).symm.trans hlong))
      have hpeel : peelWihKey s receiver.stream.key bytes = some p.1 := by
        rw [← hbytes', hkey]
        exact peelWihKey_encrypt hs key p.2 p.1
      dsimp only
      rw [hpeel]
      refine ⟨_, _, _, rfl, rfl, rfl, ⟨rest, ?_, ?_, fun _ => ?_⟩, ?_, ?_⟩
      · rw [← hsame]
        exact List.append_assoc _ _ _
      · exact fun q hq => hsmall q (List.mem_cons_of_mem p hq)
      · refine ⟨[], hholds', PacketReader.within_of_short (Nat.zero_le _), ?_⟩
        rw [hmore]
        simp only [List.nil_append, List.append_assoc]
      · rintro error ⟨⟩
      · exact fun _ _ _ _ => ⟨p.1, rfl⟩
  | @ended reader hframe hholds' hwithin' hdelays =>
    refine ⟨_, _, _, rfl, rfl, rfl, ⟨rest, ?_, hsmall, fun hclosed => by contradiction⟩, ?_, ?_⟩
    · exact (congrArg (· ++ _) (List.append_nil _)).trans hsame
    · rintro error ⟨⟩
      rfl
    · intro _ hlater hpending hrest
      rw [hlater, hpending, List.append_nil, List.append_nil] at hframes
      cases rest with
      | nil => exact absurd rfl hrest
      | cons p rest =>
        have hsome : takeFrame (frames s key (p :: rest)) =
            some (sealed s key p.2 p.1, frames s key rest) :=
          takeFrame_frames hs (hsmall p List.mem_cons_self)
        rw [← hframes, hframe] at hsome
        cases hsome

/-- All that holds of both ends. -/
def Inv (s : Suite) (key : SharedSecret) (w : World) : Prop := ∀ b, Linked s key (w (!b)) (w b)

theorem inv_start {cap : Bool → ℕ} (hcap : ∀ b, cap b ≤ 65537) : Inv s key (start key cap) := by
  intro b
  refine ⟨⟨rfl, rfl⟩, wellFormed_new _, hcap _, [], rfl, fun p hp => absurd hp List.not_mem_nil,
    fun _ => ⟨[], .empty, PacketReader.within_of_short (Nat.zero_le _), ?_⟩⟩
  have hempty : slice (fun _ => (0 : UInt8)) 0 0 = [] := slice_self
  exact hempty

theorem inv_of_both {w' : World} (b : Bool) (hsender : Linked s key (w' b) (w' (!b)))
    (hreceiver : Linked s key (w' (!b)) (w' b)) : Inv s key w' := by
  intro c
  rcases Bool.eq_or_eq_not c b with rfl | rfl
  · exact hreceiver
  · rw [Bool.not_not]
    exact hsender

/-- What a poll comes to. -/
structure Polls (s : Suite) (key : SharedSecret) (w : World) (b : Bool) (c : Connection)
    (later : Bytes) (answer : Poll (Except IoError Bytes)) (stream : EncryptedStream)
    (out : Bytes) (source : Source UInt8) : Prop where
  receives : Linked s key (w (!b)) { w b with
    stream := stream
    wire := source.left ++ later
    received := (w b).received ++ packetOf answer }
  sends : Linked s key { w b with stream := stream } { w (!b) with wire := (w (!b)).wire ++ out }
  failed : ∀ error, answer = .ready (.error error) →
    error = .unexpectedEof ∨ c.failure = some error
  progress : (w b).stream.inner = true → c.failure = none → c.source.delays = 0 → later = [] →
    (w (!b)).stream.writer.pending = [] → (w b).received ≠ (w (!b)).accepted →
    ∃ data, answer = .ready (.ok data)

include hs in
/-- A poll of an open end sends what the writer gives and reads, or finds that the connection has
failed. -/
theorem poll_spec {w : World} {b : Bool} {c : Connection} {later : Bytes} (h : Inv s key w)
    (hwire : (w b).wire = c.source.left ++ later) :
    ∃ answer stream out source, (w b).stream.poll s c = .ok (answer, stream, out, source) ∧
      Polls s key w b c later answer stream out source := by
  have hreceive := h b
  have hsend : Linked s key (w b) (w (!b)) := by
    have hother := h (!b)
    rwa [Bool.not_not] at hother
  obtain ⟨⟨hsender, hreceiver⟩, hwf, hcap, rest, hrest⟩ := hreceive
  unfold EncryptedStream.poll
  by_cases hinner : (w b).stream.inner = true
  · obtain ⟨writer, out, ready, hpoll, hwf', hcap', hpending, -⟩ :=
      PacketWriter.poll_spec hsend.wellFormed c.accepts
    rw [if_pos hinner, hpoll]
    dsimp only
    cases hfailure : (if ready then none else c.failure) with
    | some error =>
      refine ⟨_, _, _, _, rfl, ⟨⟨hsender, hreceiver⟩, hwf, hcap, rest, ?_⟩, ?_, ?_, ?_⟩
      · refine ⟨?_, hrest.small, fun hclosed => by contradiction⟩
        exact (congrArg (· ++ _) (List.append_nil _)).trans hrest.accepted
      · exact hsend.send rfl rfl hwf' hcap' hpending
      · rintro error' ⟨⟩
        split_ifs at hfailure
        exact .inr hfailure
      · intro _ hnone
        rw [hnone] at hfailure
        split_ifs at hfailure
    | none =>
      have hrest' : Carries s key (w (!b)) { w b with
          stream := { (w b).stream with writer := writer } } rest :=
        ⟨hrest.accepted, hrest.small, hrest.bytes⟩
      obtain ⟨answer, e, source, hread, hreads⟩ :=
        pollRead_spec hs hrest' hreceiver hinner hwire
      dsimp only
      dsimp only at hread
      rw [hread]
      obtain ⟨rest', hcarries⟩ := hreads.carries
      refine ⟨_, _, _, _, rfl, ⟨⟨hsender, hreads.sameKey.trans hreceiver⟩, hwf, hcap, rest',
        hcarries⟩, ?_, fun error herror => .inl (hreads.ended error herror), ?_⟩
      · refine hsend.send hreads.sameKey rfl ?_ ?_ ?_
        · rw [hreads.sameWriter]
          exact hwf'
        · rw [hreads.sameWriter]
          exact hcap'
        · rw [hreads.sameWriter]
          exact hpending
      · intro _ _ hdelays hlater hempty hmore
        refine hreads.progress hdelays hlater hempty ?_
        rintro rfl
        exact hmore ((List.append_nil _).symm.trans hrest.accepted)
  · rw [if_neg hinner]
    refine ⟨_, _, _, _, rfl, ?_, ?_, ?_, fun hopen => absurd hopen hinner⟩
    · refine ⟨⟨hsender, hreceiver⟩, hwf, hcap, rest, ?_, hrest.small, fun hopen => ?_⟩
      · exact (congrArg (· ++ _) (List.append_nil _)).trans hrest.accepted
      · exact absurd hopen hinner
    · exact hsend.send rfl rfl hsend.wellFormed rfl rfl
    · rintro error ⟨⟩

/-- A write uses the writer only. -/
theorem fields_of_write {e e' : EncryptedStream} {nonce : Sized nonceSize} {data : Value}
    {taken : Option Unit} (h : e.write s nonce data = .ok (e', taken)) :
    e'.inner = e.inner ∧ e'.key = e.key ∧ e'.reader = e.reader := by
  unfold EncryptedStream.write at h
  cases hwrite : MailDelivery.write s e.key nonce e.writer data with
  | error fault =>
    rw [hwrite] at h
    cases h
  | ok written =>
    rw [hwrite] at h
    cases h
    exact ⟨rfl, rfl, rfl⟩

include hs in
theorem inv_step {w w' : World} {e : Event} (h : Inv s key w) (hok : KeepsOrder w e)
    (hstep : Step s w e w') : Inv s key w' := by
  cases hstep with
  | @write b nonce data stream taken hwrite =>
    have hsend : Linked s key (w b) (w (!b)) := by
      have hother := h (!b)
      rwa [Bool.not_not] at hother
    obtain ⟨hinner, hkey, hreader⟩ := fields_of_write hwrite
    refine inv_of_both b ?_ ?_
    · rw [Function.update_self, Function.update_of_ne (Bool.not_ne_self b)]
      exact hsend.write hs hok hwrite
    · rw [Function.update_self, Function.update_of_ne (Bool.not_ne_self b)]
      exact (h b).congr ⟨rfl, hkey⟩ rfl rfl hinner hreader rfl rfl
  | @poll b c later answer stream out source hwire hpoll =>
    obtain ⟨answer', stream', out', source', hspec, hpolls⟩ := poll_spec hs h hwire
    rw [hpoll] at hspec
    cases hspec
    refine inv_of_both b ?_ ?_
    · rw [Function.update_self, Function.update_of_ne (Bool.not_ne_self b), Function.update_self]
      exact hpolls.sends.congr ⟨rfl, rfl⟩ rfl rfl rfl rfl rfl rfl
    · rw [Function.update_self, Function.update_of_ne (Bool.not_ne_self b), Function.update_self]
      exact hpolls.receives.congr ⟨rfl, rfl⟩ rfl rfl rfl rfl rfl rfl

include hs in
/-- In every run in which each write appends to what its writer holds, each end has read the first
packets that the other end has written, as they were written. No poll panics, and one fails only as
the connection does. A poll that is given all that was sent reads the next packet. -/
theorem encrypted_fifo {cap : Bool → ℕ} {es : List Event} {w : World}
    (hcap : ∀ b, cap b ≤ 65537) (hrun : Run (guarded KeepsOrder (Step s)) (start key cap) es w)
    (b : Bool) :
    (w b).received <+: (w (!b)).accepted ∧
    ∀ c later, (w b).wire = c.source.left ++ later →
      ∃ answer stream out source, (w b).stream.poll s c = .ok (answer, stream, out, source) ∧
        (w b).received ++ packetOf answer <+: (w (!b)).accepted ∧
        (∀ error, answer = .ready (.error error) →
          error = .unexpectedEof ∨ c.failure = some error) ∧
        ((w b).stream.inner = true → c.failure = none → c.source.delays = 0 → later = [] →
          (w (!b)).stream.writer.pending = [] → (w b).received ≠ (w (!b)).accepted →
          ∃ data, answer = .ready (.ok data)) := by
  have hinv : Inv s key w := hrun.stateInvariant (inv_start hcap) fun _ _ _ ht hstep =>
    inv_step hs ht hstep.1 hstep.2
  obtain ⟨rest, hrest⟩ := (hinv b).carries
  refine ⟨⟨_, hrest.accepted⟩, fun c later hwire => ?_⟩
  obtain ⟨answer, stream, out, source, hpoll, hpolls⟩ := poll_spec hs hinv hwire
  obtain ⟨rest', hrest'⟩ := hpolls.receives.carries
  exact ⟨answer, stream, out, source, hpoll, ⟨_, hrest'.accepted⟩, hpolls.failed, hpolls.progress⟩

end Delivery

section Example

def sampleStart : World := start (repeated 32 7) fun _ => 100

/-- A packet that arrives in two pieces. -/
def sampleSource : Source UInt8 :=
  [some ⟨[0, 31], List.cons_ne_nil _ _⟩, none, some ⟨[6, 5, 4, 7, 7, 7, 7, 7, 7, 7, 7, 7, 7, 7, 7, 7,
    7, 7, 7, 5, 5, 5, 5, 5, 5, 5, 5, 5, 5, 5, 5], List.cons_ne_nil _ _⟩]

theorem keepsOrder_poll (w : World) (b : Bool) (c : Connection) : KeepsOrder w (.poll b c) := trivial

theorem encrypted_fifo_pieces : ∃ es w,
    Run (guarded KeepsOrder (Step maskSuite)) sampleStart es w ∧
      (w true).received = [[1, 2, 3]] ∧ (w true).received <+: (w (!true)).accepted := by
  have hkeeps : KeepsOrder sampleStart (.write false (repeated 12 5) [[1, 2], [3]]) :=
    ⟨fun _ _ => ⟨fun h => absurd h (by decide), fun _ h => absurd h (by decide)⟩,
      fun h => absurd h (by decide)⟩
  have hwritten : Run (guarded KeepsOrder (Step maskSuite)) sampleStart _ _ :=
    .next _ .start ⟨hkeeps, .write rfl⟩
  have hsent := hwritten.next (.poll false ⟨[40], none, [none]⟩)
    ⟨keepsOrder_poll _ _ _, @Step.poll maskSuite _ false _ [] _ _ _ _ rfl rfl⟩
  have hwaits := hsent.next (.poll true ⟨[], none, sampleSource⟩)
    ⟨keepsOrder_poll _ _ _, @Step.poll maskSuite _ true _ [] _ _ _ _ (by decide +kernel) rfl⟩
  have hread := hwaits.next (.poll true ⟨[], none, sampleSource.drop 2⟩)
    ⟨keepsOrder_poll _ _ _, @Step.poll maskSuite _ true _ [] _ _ _ _ rfl rfl⟩
  exact ⟨_, _, hread, rfl, (encrypted_fifo maskSuite_lawful (by decide) hread true).1⟩

end Example

end OrionNetwork.Encrypted
