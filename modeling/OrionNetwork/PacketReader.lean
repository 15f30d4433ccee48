import OrionNetwork.ChunkedInput
import OrionNetwork.Codec
import OrionNetwork.StreamingBehaviour

/-!
# Reading packets

A packet is preceded by its length. The reader first reads the length and then what
the length says, into a buffer that is kept for the next packet and never shrinks.
How far it got is kept between polls, so that a poll goes on where the last one had
to wait. It asks for no more than what the current packet lacks, and so leaves the
next packet alone.
-/
namespace OrionNetwork.Packets
open ChunkedInput Codec
open Streaming (IoError Poll)

/-- A packet as it is sent. -/
def framed (packet : Bytes) : Bytes := encodeLen packet.length ++ packet

/-- The first packet of the bytes and what follows it. -/
def takeFrame : Bytes → Option (Bytes × Bytes)
  | hi :: lo :: rest =>
    if decodeLen hi lo ≤ rest.length then
      some (rest.take (decodeLen hi lo), rest.drop (decodeLen hi lo))
    else none
  | _ => none

structure PacketReader where
  readBuffer : Bytes := []
  readOffset : ℕ := 0

/-- Data that is read into a buffer. -/
def fill (buffer : Bytes) (offset : ℕ) (data : Bytes) : Bytes :=
  buffer.take offset ++ data ++ buffer.drop (offset + data.length)

namespace PacketReader

/-- The loop of `poll_read_exact`. Every read delivers a byte at least, so that as many
rounds as bytes are missing are enough. -/
def readLoop (amount : ℕ) : ℕ → PacketReader → Source UInt8 →
    Poll (Except IoError Unit) × PacketReader × Source UInt8
  | 0, r, s => (.ready (.ok ()), r, s)
  | fuel + 1, r, s =>
    if r.readOffset < amount then
      match s.poll (amount - r.readOffset) with
      | (.wait, s) => (.pending, r, s)
      | (.data l, s) =>
        if l.length = 0 then (.ready (.error .unexpectedEof), r, s)
        else readLoop amount fuel
          ⟨fill r.readBuffer r.readOffset l, r.readOffset + l.length⟩ s
    else (.ready (.ok ()), r, s)

def pollReadExact (r : PacketReader) (s : Source UInt8) (amount : ℕ) :
    Poll (Except IoError Unit) × PacketReader × Source UInt8 :=
  if amount ≤ r.readOffset then (.ready (.ok ()), r, s)
  else
    let readBuffer := if r.readBuffer.length < amount then
      r.readBuffer ++ List.replicate (amount - r.readBuffer.length) 0 else r.readBuffer
    readLoop amount (amount - r.readOffset) { r with readBuffer } s

/-- Slices that are out of range panic. -/
inductive Outcome where
  | packet (bytes : Bytes)
  | failed (error : IoError)
  | panicked
  deriving DecidableEq

/-- The packet starts after the length and ends where the length says. -/
def finish (r : PacketReader) (size : ℕ) : Outcome × PacketReader :=
  if size + packetLenWidth ≤ r.readBuffer.length then
    (.packet ((r.readBuffer.drop packetLenWidth).take size), { r with readOffset := 0 })
  else (.panicked, r)

/-- The second phase of `poll_packet`. -/
def pollBody (r : PacketReader) (s : Source UInt8) (size : ℕ) :
    Poll Outcome × PacketReader × Source UInt8 :=
  match pollReadExact r s (size + packetLenWidth) with
  | (.pending, r, s) => (.pending, r, s)
  | (.ready (.error e), r, s) => (.ready (.failed e), r, s)
  | (.ready (.ok ()), r, s) => (.ready (r.finish size).1, (r.finish size).2, s)

def pollPacket (r : PacketReader) (s : Source UInt8) :
    Poll Outcome × PacketReader × Source UInt8 :=
  match pollReadExact r s packetLenWidth with
  | (.pending, r, s) => (.pending, r, s)
  | (.ready (.error e), r, s) => (.ready (.failed e), r, s)
  | (.ready (.ok ()), r, s) =>
    match r.readBuffer with
    | hi :: lo :: _ => r.pollBody s (decodeLen hi lo)
    | _ => (.ready .panicked, r, s)

/-- What `n` calls in a row return, apart from those that have to wait, and what they leave
in the stream. -/
def answers : ℕ → PacketReader → Source UInt8 → List (Outcome × Bytes)
  | 0, _, _ => []
  | n + 1, r, s =>
    match r.pollPacket s with
    | (.pending, r, s) => answers n r s
    | (.ready outcome, r, s) => (outcome, s.left) :: answers n r s

/-- These bytes of the current packet were read. -/
structure Holds (r : PacketReader) (read : Bytes) : Prop where
  offset : r.readOffset = read.length
  content : read <+: r.readBuffer

/-- What a read of an amount comes to: it is done, it has to wait or the stream ends. -/
inductive Progress (amount : ℕ) (read : Bytes) (s : Source UInt8) :
    Poll (Except IoError Unit) × PacketReader × Source UInt8 → Prop where
  | done {new : Bytes} {r' : PacketReader} {s' : Source UInt8} : r'.Holds (read ++ new) →
      (read ++ new).length = max read.length amount → s.left = new ++ s'.left →
      s'.delays = s.delays → Progress amount read s (.ready (.ok ()), r', s')
  | wait {new : Bytes} {r' : PacketReader} {s' : Source UInt8} : r'.Holds (read ++ new) →
      (read ++ new).length < amount → s.left = new ++ s'.left → s'.delays + 1 = s.delays →
      Progress amount read s (.pending, r', s')
  | ended {new : Bytes} {r' : PacketReader} : r'.Holds (read ++ new) →
      (read ++ new).length < amount → s.left = new → s.delays = 0 →
      Progress amount read s (.ready (.error .unexpectedEof), r', [])

variable {r : PacketReader} {s : Source UInt8} {read : Bytes} {amount : ℕ}

theorem Holds.empty : ({} : PacketReader).Holds [] := ⟨rfl, List.nil_prefix⟩

/-- What is read next goes behind what was read. -/
theorem Holds.fill (h : r.Holds read) (data : Bytes) :
    PacketReader.Holds ⟨Packets.fill r.readBuffer r.readOffset data, r.readOffset + data.length⟩
      (read ++ data) := by
  obtain ⟨hoffset, behind, hcontent⟩ := h
  refine ⟨by rw [hoffset, List.length_append], ?_⟩
  unfold Packets.fill
  rw [← hcontent, hoffset, List.take_left]
  exact List.prefix_append _ _

theorem length_fill {buffer data : Bytes} {offset : ℕ} (h : offset + data.length ≤ buffer.length) :
    (fill buffer offset data).length = buffer.length := by
  unfold Packets.fill
  rw [List.length_append, List.length_append, List.length_take, List.length_drop]
  omega

theorem Progress.longer {new : Bytes} {s' : Source UInt8}
    {x : Poll (Except IoError Unit) × PacketReader × Source UInt8}
    (h : Progress amount (read ++ new) s' x) (hamount : (read ++ new).length ≤ amount)
    (hleft : s.left = new ++ s'.left) (hdelays : s'.delays = s.delays) :
    Progress amount read s x := by
  have hshort : read.length ≤ amount := by
    rw [List.length_append] at hamount
    omega
  cases h with
  | done hholds hlength hleft' hdelays' =>
    rw [List.append_assoc] at hholds hlength
    refine .done hholds ?_ ?_ (hdelays'.trans hdelays)
    · rw [hlength, Nat.max_eq_right hamount, Nat.max_eq_right hshort]
    · rw [hleft, hleft', List.append_assoc]
  | wait hholds hlength hleft' hdelays' =>
    rw [List.append_assoc] at hholds hlength
    refine .wait hholds hlength ?_ (hdelays'.trans hdelays)
    rw [hleft, hleft', List.append_assoc]
  | ended hholds hlength hleft' hdelays' =>
    rw [List.append_assoc] at hholds hlength
    refine .ended hholds hlength ?_ (hdelays ▸ hdelays')
    rw [hleft, hleft']

theorem Progress.enough (h : r.Holds read) (hamount : read.length = max read.length amount) :
    Progress amount read s (.ready (.ok ()), r, s) := by
  have hnil : r.Holds (read ++ []) := by rwa [List.append_nil]
  refine .done hnil ?_ rfl rfl
  rwa [List.append_nil]

theorem readLoop_spec (h : r.Holds read) (hamount : read.length ≤ amount)
    (hroom : amount ≤ r.readBuffer.length) {fuel : ℕ} (hfuel : amount - read.length ≤ fuel) :
    Progress amount read s (readLoop amount fuel r s) := by
  induction fuel generalizing r s read with
  | zero => exact .enough h (by omega)
  | succ fuel ih =>
    rw [readLoop]
    by_cases hless : r.readOffset < amount
    · rw [if_pos hless]
      rw [h.offset] at hless
      have hnil : r.Holds (read ++ []) := by rwa [List.append_nil]
      have hmissing : 0 < amount - r.readOffset := by
        rw [h.offset]
        omega
      rcases s.poll_cases hmissing with ⟨s', hpoll, hleft, hdelays⟩ |
        ⟨data, s', hpoll, hsome, hfits, hleft, hdelays⟩ | ⟨rfl, hpoll⟩
      · rw [hpoll]
        refine .wait hnil ?_ hleft.symm hdelays
        rwa [List.append_nil]
      · rw [hpoll]
        dsimp only
        rw [if_neg (by omega)]
        rw [h.offset] at hfits
        have hlength : (read ++ data).length = read.length + data.length := List.length_append
        have hkept : (fill r.readBuffer r.readOffset data).length = r.readBuffer.length :=
          length_fill (by rw [h.offset]; omega)
        have hnext := ih (s := s') (h.fill data) (by omega) (by rw [hkept]; exact hroom) (by omega)
        exact hnext.longer (by omega) hleft hdelays
      · rw [hpoll]
        refine .ended hnil ?_ rfl rfl
        rwa [List.append_nil]
    · rw [if_neg hless]
      rw [h.offset] at hless
      exact .enough h (by omega)

theorem pollReadExact_spec (h : r.Holds read) (s : Source UInt8) (amount : ℕ) :
    Progress amount read s (r.pollReadExact s amount) := by
  unfold pollReadExact
  by_cases henough : amount ≤ r.readOffset
  · rw [if_pos henough]
    rw [h.offset] at henough
    exact .enough h (Nat.max_eq_left henough).symm
  · rw [if_neg henough]
    rw [h.offset] at henough
    dsimp only
    by_cases hsmall : r.readBuffer.length < amount
    · simp only [if_pos hsmall]
      have hgrown : PacketReader.Holds
          ⟨r.readBuffer ++ List.replicate (amount - r.readBuffer.length) 0, r.readOffset⟩ read :=
        ⟨h.offset, h.content.trans (List.prefix_append _ _)⟩
      refine readLoop_spec hgrown (by omega) ?_ (by rw [h.offset])
      rw [List.length_append, List.length_replicate]
      omega
    · simp only [if_neg hsmall]
      exact readLoop_spec h (by omega) (by omega) (by rw [h.offset])

/-- No more than the current packet. -/
def Within (read : Bytes) : Prop :=
  ∀ hi lo rest, read = hi :: lo :: rest → rest.length ≤ decodeLen hi lo

/-- What a poll comes to, when `wire` is what was read of the current packet and all that
is left, and so many delays are to come. -/
inductive Polled (wire : Bytes) (delays : ℕ) :
    Poll Outcome × PacketReader × Source UInt8 → Prop where
  | wait {read : Bytes} {r' : PacketReader} {s' : Source UInt8} : r'.Holds read → Within read →
      read ++ s'.left = wire → s'.delays + 1 = delays → Polled wire delays (.pending, r', s')
  | packet {bytes : Bytes} {r' : PacketReader} {s' : Source UInt8} :
      takeFrame wire = some (bytes, s'.left) → r'.Holds [] → s'.delays = delays →
      Polled wire delays (.ready (.packet bytes), r', s')
  | ended {r' : PacketReader} : takeFrame wire = none → r'.Holds wire → Within wire →
      delays = 0 → Polled wire delays (.ready (.failed .unexpectedEof), r', [])

theorem takeFrame_short {wire : Bytes} (h : wire.length < packetLenWidth) :
    takeFrame wire = none := by
  unfold packetLenWidth at h
  cases wire with
  | nil => rfl
  | cons hi wire =>
    cases wire with
    | nil => rfl
    | cons lo rest =>
      rw [List.length_cons, List.length_cons] at h
      omega

theorem takeFrame_cons {hi lo : UInt8} {body : Bytes} (h : body.length = decodeLen hi lo)
    (rest : Bytes) : takeFrame (hi :: lo :: (body ++ rest)) = some (body, rest) := by
  rw [takeFrame, if_pos (by rw [List.length_append]; omega), ← h, List.take_left, List.drop_left]

theorem within_of_short (h : read.length ≤ packetLenWidth) : Within read := by
  rintro hi lo rest rfl
  unfold packetLenWidth at h
  rw [List.length_cons, List.length_cons] at h
  omega

theorem exists_length (h : packetLenWidth ≤ read.length) :
    ∃ hi lo rest, read = hi :: lo :: rest := by
  unfold packetLenWidth at h
  cases read with
  | nil => exact absurd h (by decide)
  | cons hi read =>
    cases read with
    | nil => exact absurd h (by simp)
    | cons lo rest => exact ⟨hi, lo, rest, rfl⟩

/-- All of the packet was read. -/
theorem finish_eq {hi lo : UInt8} {body : Bytes} (h : r.Holds (hi :: lo :: body)) :
    r.finish body.length = (.packet body, { r with readOffset := 0 }) := by
  obtain ⟨behind, hcontent⟩ := h.content
  unfold finish packetLenWidth
  rw [← hcontent, if_pos]
  · simp
  · simp

theorem pollBody_spec {hi lo : UInt8} {rest : Bytes} (h : r.Holds (hi :: lo :: rest))
    (hrest : rest.length ≤ decodeLen hi lo) :
    Polled (hi :: lo :: rest ++ s.left) s.delays (r.pollBody s (decodeLen hi lo)) := by
  have hread := pollReadExact_spec h s (decodeLen hi lo + packetLenWidth)
  unfold pollBody
  unfold packetLenWidth at hread ⊢
  generalize r.pollReadExact s (decodeLen hi lo + 2) = x at hread ⊢
  cases hread with
  | @done new r' s' hholds hlength hleft hdelays =>
    have hbody : (rest ++ new).length = decodeLen hi lo := by
      simp only [List.cons_append, List.length_cons] at hlength
      omega
    dsimp only
    rw [List.cons_append, List.cons_append] at hholds
    rw [← hbody, finish_eq hholds]
    refine .packet ?_ ⟨rfl, List.nil_prefix⟩ hdelays
    rw [hleft, List.cons_append, List.cons_append, ← List.append_assoc]
    exact takeFrame_cons hbody s'.left
  | @wait new r' s' hholds hlength hleft hdelays =>
    refine .wait hholds ?_ ?_ hdelays
    · intro hi' lo' rest' heq
      cases heq
      change (rest ++ new).length ≤ _
      simp only [List.cons_append, List.length_cons] at hlength
      omega
    · rw [hleft, List.append_assoc]
  | @ended new r' hholds hlength hleft hdelays =>
    simp only [List.cons_append, List.length_cons] at hlength
    rw [hleft]
    refine .ended ?_ hholds ?_ hdelays
    · rw [List.cons_append, List.cons_append, takeFrame, if_neg (by omega)]
    · intro hi' lo' rest' heq
      cases heq
      change (rest ++ new).length ≤ _
      omega

theorem pollPacket_spec (h : r.Holds read) (hwithin : Within read) :
    Polled (read ++ s.left) s.delays (r.pollPacket s) := by
  have hread := pollReadExact_spec h s packetLenWidth
  unfold pollPacket
  generalize r.pollReadExact s packetLenWidth = x at hread ⊢
  cases hread with
  | @done new r' s' hholds hlength hleft hdelays =>
    have hlong : packetLenWidth ≤ (read ++ new).length := by omega
    obtain ⟨hi, lo, rest, heq⟩ := exists_length hlong
    have hrest : rest.length ≤ decodeLen hi lo := by
      by_cases hlong : packetLenWidth ≤ read.length
      · have hnew : new = [] := by
          rw [List.length_append] at hlength
          exact List.length_eq_zero_iff.mp (by omega)
        rw [hnew, List.append_nil] at heq
        exact hwithin hi lo rest heq
      · exact within_of_short (by omega) hi lo rest heq
    rw [heq] at hholds
    obtain ⟨behind, hbuffer⟩ := hholds.content
    have hwire : read ++ s.left = hi :: lo :: rest ++ s'.left := by
      rw [hleft, ← List.append_assoc, heq]
    dsimp only
    rw [← hbuffer, hwire, ← hdelays]
    exact pollBody_spec hholds hrest
  | @wait new r' s' hholds hlength hleft hdelays =>
    refine .wait hholds (within_of_short (by omega)) ?_ hdelays
    rw [hleft, List.append_assoc]
  | @ended new r' hholds hlength hleft hdelays =>
    rw [hleft]
    exact .ended (takeFrame_short hlength) hholds (within_of_short (by omega)) hdelays

/-- The answers that the bytes themselves give, one to each call. -/
def unframe : ℕ → Bytes → List (Outcome × Bytes)
  | 0, _ => []
  | n + 1, wire =>
    match takeFrame wire with
    | some (bytes, rest) => (.packet bytes, rest) :: unframe n rest
    | none => (.failed .unexpectedEof, []) :: unframe n wire

theorem unframe_some {wire bytes rest : Bytes} (h : takeFrame wire = some (bytes, rest)) (n : ℕ) :
    unframe (n + 1) wire = (.packet bytes, rest) :: unframe n rest := by
  rw [unframe, h]

theorem unframe_none {wire : Bytes} (h : takeFrame wire = none) (n : ℕ) :
    unframe (n + 1) wire = (.failed .unexpectedEof, []) :: unframe n wire := by
  rw [unframe, h]

theorem unframe_initial (n : ℕ) (wire : Bytes) : unframe n wire <+: unframe (n + 1) wire := by
  induction n generalizing wire with
  | zero => exact List.nil_prefix
  | succ n ih =>
    cases hframe : takeFrame wire with
    | some x =>
      rw [unframe_some hframe, unframe_some hframe]
      exact List.prefix_cons_inj _ |>.mpr (ih x.2)
    | none =>
      rw [unframe_none hframe, unframe_none hframe]
      exact List.prefix_cons_inj _ |>.mpr (ih wire)

/-- The calls that do not wait give these answers, and no more calls wait than there are
delays. -/
theorem answers_spec (h : r.Holds read) (hwithin : Within read) (n : ℕ) :
    answers n r s <+: unframe n (read ++ s.left) ∧ n ≤ (answers n r s).length + s.delays := by
  induction n generalizing r s read with
  | zero => exact ⟨List.nil_prefix, Nat.zero_le _⟩
  | succ n ih =>
    have hpoll := pollPacket_spec (s := s) h hwithin
    rw [answers]
    generalize r.pollPacket s = x at hpoll ⊢
    generalize read ++ s.left = wire at hpoll ⊢
    cases hpoll with
    | @wait read' r' s' hholds hwithin' hwire hdelays =>
      obtain ⟨hinitial, hcount⟩ := ih (s := s') hholds hwithin'
      rw [hwire] at hinitial
      refine ⟨hinitial.trans (unframe_initial n wire), ?_⟩
      dsimp only
      omega
    | @packet bytes r' s' hframe hholds hdelays =>
      obtain ⟨hinitial, hcount⟩ := ih (s := s') hholds (within_of_short (Nat.zero_le _))
      rw [unframe_some hframe]
      refine ⟨(List.prefix_cons_inj _).mpr hinitial, ?_⟩
      rw [List.length_cons]
      omega
    | @ended r' hframe hholds hwithin' hdelays =>
      obtain ⟨hinitial, hcount⟩ := ih (s := []) hholds hwithin'
      rw [Source.left_nil, List.append_nil] at hinitial
      rw [Source.delays_nil] at hcount
      rw [unframe_none hframe]
      refine ⟨(List.prefix_cons_inj _).mpr hinitial, ?_⟩
      rw [List.length_cons]
      omega

theorem takeFrame_framed {bytes : Bytes} (h : bytes.length ≤ 65535) (rest : Bytes) :
    takeFrame (framed bytes ++ rest) = some (bytes, rest) :=
  takeFrame_cons (decodeLen_encodeLen _ (Nat.lt_succ_of_le h)).symm rest

/-- A packet that is cut short is no packet. -/
theorem takeFrame_cut {bytes cut : Bytes} (h : bytes.length ≤ 65535) (hcut : cut <+: framed bytes)
    (hshort : cut ≠ framed bytes) : takeFrame cut = none := by
  have hlength : cut.length < (framed bytes).length := by
    refine lt_of_le_of_ne hcut.length_le fun hsame => hshort (hcut.eq_of_length hsame)
  by_cases hhead : cut.length < packetLenWidth
  · exact takeFrame_short hhead
  · obtain ⟨hi, lo, rest, rfl⟩ := exists_length (Nat.le_of_not_lt hhead)
    unfold framed encodeLen at hcut hlength
    simp only [List.cons_append, List.nil_append, List.cons_prefix_cons] at hcut
    obtain ⟨rfl, rfl, -⟩ := hcut
    simp only [List.cons_append, List.nil_append, List.length_cons] at hlength
    rw [takeFrame, decodeLen_encodeLen _ (Nat.lt_succ_of_le h), if_neg (by omega)]

/-- The packets of a stream, each with what follows it. -/
def deliveries (cut : Bytes) : List Bytes → List (Outcome × Bytes)
  | [] => []
  | bytes :: packets => (.packet bytes, packets.flatMap framed ++ cut) :: deliveries cut packets

theorem unframe_eq {packets : List Bytes} (hpackets : ∀ bytes ∈ packets, bytes.length ≤ 65535)
    {cut : Bytes} (hcut : takeFrame cut = none) (n : ℕ) :
    unframe n (packets.flatMap framed ++ cut) <+:
      deliveries cut packets ++ List.replicate n (.failed .unexpectedEof, []) := by
  induction n generalizing packets with
  | zero => exact List.nil_prefix
  | succ n ih =>
    cases packets with
    | nil =>
      have hnext := ih (show ∀ bytes ∈ ([] : List Bytes), bytes.length ≤ 65535 by simp)
      rw [List.flatMap_nil, List.nil_append, unframe_none hcut]
      exact (List.prefix_cons_inj _).mpr hnext
    | cons bytes packets =>
      have hnext := ih fun other hother => hpackets other (List.mem_cons_of_mem _ hother)
      have hframe := takeFrame_framed (hpackets bytes List.mem_cons_self)
        (packets.flatMap framed ++ cut)
      rw [List.flatMap_cons, List.append_assoc, unframe_some hframe]
      refine (List.prefix_cons_inj _).mpr (hnext.trans ?_)
      rw [List.replicate_succ']
      exact (List.prefix_append_right_inj _).mpr (List.prefix_append _ _)

theorem length_deliveries (cut : Bytes) (packets : List Bytes) :
    (deliveries cut packets).length = packets.length := by
  induction packets with
  | nil => rfl
  | cons bytes packets ih => rw [deliveries, List.length_cons, List.length_cons, ih]

/-- However the stream is split, the calls that do not wait yield the packets in order and
then find the end, and each of them leaves the packets that follow in the stream. Enough
calls yield all packets and the end. -/
theorem answers_chunked {packets : List Bytes} (hpackets : ∀ bytes ∈ packets, bytes.length ≤ 65535)
    {last cut : Bytes} (hlast : last.length ≤ 65535) (hcut : cut <+: framed last)
    (hshort : cut ≠ framed last) {source : Source UInt8}
    (hsource : source.left = packets.flatMap framed ++ cut) (n : ℕ) :
    answers n {} source <+:
        deliveries cut packets ++ List.replicate n (.failed .unexpectedEof, []) ∧
      n ≤ (answers n {} source).length + source.delays ∧
      (packets.length + source.delays < n →
        deliveries cut packets ++ [(.failed .unexpectedEof, [])] <+: answers n {} source) := by
  obtain ⟨hinitial, hcount⟩ := answers_spec (s := source) .empty (within_of_short (Nat.zero_le _)) n
  rw [List.nil_append, hsource] at hinitial
  have hall := hinitial.trans (unframe_eq hpackets (takeFrame_cut hlast hcut hshort) n)
  refine ⟨hall, hcount, fun henough => ?_⟩
  refine List.prefix_of_prefix_length_le ?_ hall ?_
  · obtain ⟨m, rfl⟩ := Nat.exists_eq_add_of_lt henough
    rw [List.replicate_succ]
    exact (List.prefix_append_right_inj _).mpr ((List.prefix_cons_inj _).mpr List.nil_prefix)
  · rw [List.length_append, length_deliveries, List.length_singleton]
    omega

/-- Two packets, the second one empty, and the beginning of a third one. -/
def pausing : Source UInt8 :=
  [none, some ⟨[0], List.cons_ne_nil 0 []⟩, some ⟨[1, 7, 0], List.cons_ne_nil 1 [7, 0]⟩, none,
    some ⟨[0, 0, 3], List.cons_ne_nil 0 [0, 3]⟩]

theorem answers_chunked_pausing :
    [(.packet [7], [0, 0, 0, 3]), (.packet [], [0, 3]), (.failed .unexpectedEof, [])] <+:
      answers 5 {} pausing := by
  have hpackets : ∀ bytes ∈ ([[7], []] : List Bytes), bytes.length ≤ 65535 := by simp
  have hlast : ([1, 2, 3] : Bytes).length ≤ 65535 := by decide
  have hcut : ([0, 3] : Bytes) <+: framed [1, 2, 3] := by decide
  have hsource : pausing.left = ([[7], []] : List Bytes).flatMap framed ++ [0, 3] := rfl
  have hall := answers_chunked hpackets hlast hcut (by decide) hsource 5
  exact hall.2.2 (by decide)

end PacketReader

end OrionNetwork.Packets
