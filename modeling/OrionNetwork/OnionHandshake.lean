import OrionNetwork.OnionPacket
import OrionNetwork.PacketReader

/-!
# The onion handshake

The initiator sends its packet and waits for an answer that comes back through the
relays. The recipient answers with a byte that says so and with an authentication tag
over nothing, which proves that it has the key. The initiator reads the byte, then the
tag into the buffer that held the packet, with one read that may deliver less than
there is room for. What the read does not overwrite is left of the packet.
-/
namespace OrionNetwork.Onion
open Codec ChunkedInput
open Streaming (IoError)

variable {s : Suite}

def okByte : UInt8 := 0
def missingPeer : UInt8 := 1
def occupiedPeer : UInt8 := 2

def confirmPacketSize : ℕ := tagSize + nonceSize

/-- The nonce is given by the caller. -/
def writeConfirm (s : Suite) (key : SharedSecret) (nonce : Sized nonceSize) : Bytes :=
  (s.encrypt key nonce []).2.val ++ nonce.val

def verifyConfirm (s : Suite) (key : SharedSecret) (buffer : Bytes) : Bool :=
  (peelWihKey s key buffer).isSome

/-- The answer of the recipient, as `upgrade_inbound` writes it. -/
def confirmation (s : Suite) (key : SharedSecret) (nonce : Sized nonceSize) : Bytes :=
  okByte :: writeConfirm s key nonce

structure IncomingStreamMeta (s : Suite) where
  receiver : s.PeerId
  buffer : Bytes
  pathId : PathId

inductive IncomingOrRequest (s : Suite) where
  | incoming (i : IncomingStreamMeta s)
  | request (r : StreamRequest s)

inductive ChannelSource (s : Suite) where
  | relay (pathId : PathId)
  | thisNode (secret : SharedSecret) (pathId : PathId) (peer : Option s.PeerId)

/-- Where the channel comes from and the stream it goes on with. -/
structure ChannelMeta (s : Suite) where
  source : ChannelSource s
  stream : Source UInt8

inductive OUpgradeError where
  | missingPeer
  | occupiedPeer
  | authenticationFailed
  | unknownPacketKind (kind : UInt8)
  | writePacketLength (error : IoError)
  | writePacket (error : IoError)
  | readPacketKind (error : IoError)
  deriving DecidableEq

/-- `Vec::resize` -/
def resize (size : ℕ) (bytes : Bytes) : Bytes :=
  bytes.take size ++ List.replicate (size - bytes.length) 0

/-- What `upgrade_outbound` does with the answer. A buffer of one byte is full after the
first read that is not at the end of the stream. -/
def readAnswer (r : StreamRequest s) (writtenPacket : Bytes) (ss : SharedSecret)
    (stream : Source UInt8) : Except OUpgradeError (ChannelMeta s) :=
  match stream.read 1 with
  | ([], _) => .error (.readPacketKind .unexpectedEof)
  | (kind :: _, stream) =>
    if kind = okByte then
      let buffer := resize confirmPacketSize writtenPacket
      let (data, stream) := stream.read confirmPacketSize
      if !verifyConfirm s ss (Packets.fill buffer 0 data) then .error .authenticationFailed
      else .ok ⟨.thisNode ss r.pathId (r.path.head?.map (·.2)), stream⟩
    else if kind = missingPeer then .error .missingPeer
    else if kind = occupiedPeer then .error .occupiedPeer
    else .error (.unknownPacketKind kind)

/-- The results of the two writes are given from outside, and so is what is random. -/
def upgradeOutbound (keypair : KeyPair s) (incoming : IncomingOrRequest s) (seed : Sized 32)
    (coins : ℕ → Coins) (lengthWritten packetWritten : Except IoError Unit)
    (stream : Source UInt8) : Except OUpgradeError (ChannelMeta s) :=
  match lengthWritten with
  | .error e => .error (.writePacketLength e)
  | .ok () =>
    match packetWritten with
    | .error e => .error (.writePacket e)
    | .ok () =>
      match incoming with
      | .incoming i => .ok ⟨.relay i.pathId, stream⟩
      | .request r =>
        let (writtenPacket, ss) := newInitial r.recipient r.path keypair seed coins
        readAnswer r writtenPacket ss stream

/-- How the upgrade ends, apart from the stream that goes on. -/
def outcome (result : Except OUpgradeError (ChannelMeta s)) :
    Except OUpgradeError (ChannelSource s) :=
  result.map ChannelMeta.source

/-- So many bytes of the tag come with the read that follows the first byte. -/
def firstRead (stream : Source UInt8) : ℕ :=
  ((stream.read 1).2.read confirmPacketSize).1.length

/-- The beginning of the tag over the beginning of the packet. -/
def stale (writtenPacket confirm : Bytes) (n : ℕ) : Bytes :=
  confirm.take n ++ (resize confirmPacketSize writtenPacket).drop n

/-- Nothing of the packet is left in the buffer, or what is left happens to verify. -/
def Settles (s : Suite) (writtenPacket : Bytes) (ss : SharedSecret) (nonce : Sized nonceSize)
    (stream : Source UInt8) : Prop :=
  firstRead stream = confirmPacketSize ∨
    verifyConfirm s ss (stale writtenPacket (writeConfirm s ss nonce) (firstRead stream)) = true

theorem length_writeConfirm (key : SharedSecret) (nonce : Sized nonceSize) :
    (writeConfirm s key nonce).length = confirmPacketSize := by
  rw [writeConfirm, List.length_append, (s.encrypt key nonce []).2.property, nonce.property]
  rfl

theorem length_resize (size : ℕ) (bytes : Bytes) : (resize size bytes).length = size := by
  rw [resize, List.length_append, List.length_take, List.length_replicate]
  omega

section Reads

variable {stream : Source UInt8} {rest : Bytes}

theorem read_kind {kind : UInt8} (h : stream.left = kind :: rest) :
    (stream.read 1).1 = [kind] ∧ (stream.read 1).2.left = rest := by
  obtain ⟨hleft, hfits, hsome⟩ := Source.read_spec Nat.one_pos stream
  have hne : (stream.read 1).1 ≠ [] := hsome (by rw [h]; exact List.cons_ne_nil _ _)
  obtain ⟨first, hfirst⟩ := List.length_eq_one_iff.mp
    (le_antisymm hfits (List.length_pos_of_ne_nil hne))
  rw [h, hfirst, List.singleton_append] at hleft
  obtain ⟨rfl, hrest⟩ := List.cons.inj hleft
  exact ⟨hfirst, hrest⟩

/-- A read into a buffer of the size of the tag delivers the beginning of the tag. -/
theorem read_confirm {confirm : Bytes} (hlength : confirm.length = confirmPacketSize)
    (h : stream.left = confirm ++ rest) :
    (stream.read confirmPacketSize).1 =
      confirm.take (stream.read confirmPacketSize).1.length := by
  obtain ⟨hleft, hfits, -⟩ := Source.read_spec (by decide : 0 < confirmPacketSize) stream
  generalize stream.read confirmPacketSize = delivered at hleft hfits ⊢
  obtain ⟨data, later⟩ := delivered
  rw [h] at hleft
  have htake := congrArg (List.take data.length) hleft
  rw [List.take_left, List.take_append_of_le_length (by rw [hlength]; exact hfits)] at htake
  exact htake

end Reads

section Confirmed

variable (hs : s.Lawful) (ss : SharedSecret) (nonce : Sized nonceSize) (writtenPacket : Bytes)

include hs in
theorem verifyConfirm_writeConfirm : verifyConfirm s ss (writeConfirm s ss nonce) = true := by
  have hnil : (s.encrypt ss nonce []).1 = [] :=
    List.length_eq_zero_iff.mp (hs.length_encrypt ss nonce [])
  have hpeel := peelWihKey_encrypt hs ss nonce []
  rw [hnil, List.nil_append] at hpeel
  rw [verifyConfirm, writeConfirm, hpeel]
  rfl

theorem stale_all : stale writtenPacket (writeConfirm s ss nonce) confirmPacketSize =
    writeConfirm s ss nonce := by
  rw [stale, List.take_of_length_le (length_writeConfirm ss nonce).le,
    List.drop_of_length_le (length_resize _ _).le, List.append_nil]

include hs in
theorem settles_iff {stream : Source UInt8} : Settles s writtenPacket ss nonce stream ↔
    verifyConfirm s ss (stale writtenPacket (writeConfirm s ss nonce) (firstRead stream)) =
      true := by
  constructor
  · rintro (hwhole | hverified)
    · rw [hwhole, stale_all]
      exact verifyConfirm_writeConfirm hs ss nonce
    · exact hverified
  · exact .inr

/-- The answer verifies, or it is refused. -/
theorem readAnswer_confirmation (r : StreamRequest s) {stream : Source UInt8} {rest : Bytes}
    (h : stream.left = confirmation s ss nonce ++ rest) :
    outcome (readAnswer r writtenPacket ss stream) =
      if verifyConfirm s ss (stale writtenPacket (writeConfirm s ss nonce) (firstRead stream)) then
        .ok (.thisNode ss r.pathId (r.path.head?.map (·.2)))
      else .error .authenticationFailed := by
  obtain ⟨hkind, hleft⟩ := read_kind h
  have hdata := read_confirm (length_writeConfirm ss nonce) hleft
  unfold readAnswer firstRead
  generalize stream.read 1 = first at hkind hdata ⊢
  obtain ⟨kind, stream⟩ := first
  cases hkind
  simp only [if_true] at hdata ⊢
  generalize stream.read confirmPacketSize = second at hdata ⊢
  obtain ⟨data, later⟩ := second
  simp only at hdata ⊢
  have hfill : Packets.fill (resize confirmPacketSize writtenPacket) 0 data =
      stale writtenPacket (writeConfirm s ss nonce) data.length := by
    rw [stale, ← hdata, Packets.fill, List.take_zero, List.nil_append, Nat.zero_add]
  rw [hfill]
  cases verifyConfirm s ss (stale writtenPacket (writeConfirm s ss nonce) data.length) with
  | true => rfl
  | false => rfl

end Confirmed

/-- Two ways to split the answer both end in a channel exactly if in each of them the read
after the first byte delivers the whole tag, or what is left of the packet verifies. -/
theorem handshake_iff_settles (hs : s.Lawful) (keypair : KeyPair s) (r : StreamRequest s)
    (seed : Sized 32) (coins : ℕ → Coins) (nonce : Sized nonceSize) {packet : Bytes}
    {ss : SharedSecret} (hpacket : newInitial r.recipient r.path keypair seed coins = (packet, ss))
    {stream₁ stream₂ : Source UInt8} {rest₁ rest₂ : Bytes}
    (h₁ : stream₁.left = confirmation s ss nonce ++ rest₁)
    (h₂ : stream₂.left = confirmation s ss nonce ++ rest₂) :
    let result := fun stream =>
      outcome (upgradeOutbound keypair (.request r) seed coins (.ok ()) (.ok ()) stream)
    (result stream₁ = result stream₂ ∧
        result stream₁ = .ok (.thisNode ss r.pathId (r.path.head?.map (·.2)))) ↔
      Settles s packet ss nonce stream₁ ∧ Settles s packet ss nonce stream₂ := by
  simp only [upgradeOutbound, hpacket]
  rw [readAnswer_confirmation ss nonce packet r h₁, readAnswer_confirmation ss nonce packet r h₂,
    settles_iff hs, settles_iff hs]
  constructor
  · rintro ⟨hsame, hok₁⟩
    have hok₂ := hsame.symm.trans hok₁
    constructor
    · by_contra hv₁
      rw [if_neg hv₁] at hok₁
      cases hok₁
    · by_contra hv₂
      rw [if_neg hv₂] at hok₂
      cases hok₂
  · rintro ⟨hv₁, hv₂⟩
    rw [if_pos hv₁, if_pos hv₂]
    exact ⟨rfl, rfl⟩

section Example

/-- From the fifth node over the third and the second to the first. -/
def sampleRequest : StreamRequest maskSuite :=
  ⟨(3 : UInt8), 0, (maskPair 1).publicKey,
    [((maskPair 2).publicKey, (1 : UInt8)), ((maskPair 3).publicKey, (2 : UInt8))]⟩

def sampleNonce : Sized nonceSize := repeated nonceSize 0

def sampleCoins (_ : ℕ) : Coins := ⟨repeated 32 1, sampleNonce⟩

def sampleInitial : Bytes × SharedSecret :=
  newInitial sampleRequest.recipient sampleRequest.path (maskPair 5) (repeated 32 0)
    sampleCoins

def sampleConfirmation : Bytes := confirmation maskSuite sampleInitial.2 sampleNonce

theorem cut_ne_nil : sampleConfirmation.take 2 ≠ [] ∧ sampleConfirmation.drop 2 ≠ [] := by
  decide +kernel

/-- All of the answer at once. -/
def sampleWhole : Source UInt8 := [some ⟨sampleConfirmation, List.cons_ne_nil _ _⟩]

/-- The answer in two chunks, with a byte of the tag in the first one. -/
def sampleCut : Source UInt8 :=
  [some ⟨sampleConfirmation.take 2, cut_ne_nil.1⟩, none,
    some ⟨sampleConfirmation.drop 2, cut_ne_nil.2⟩]

/-- The upgrade of the sample with an answer that is split like this. -/
def sampleOutcome (stream : Source UInt8) : Except OUpgradeError (ChannelSource maskSuite) :=
  outcome (upgradeOutbound (maskPair 5) (.request sampleRequest) (repeated 32 0)
    sampleCoins (.ok ()) (.ok ()) stream)

theorem left_sampleWhole : sampleWhole.left = sampleConfirmation ++ [] := rfl

theorem left_sampleCut : sampleCut.left = sampleConfirmation ++ [] := by
  decide +kernel

theorem not_verified_sampleCut : verifyConfirm maskSuite sampleInitial.2 (stale sampleInitial.1
    (writeConfirm maskSuite sampleInitial.2 sampleNonce) (firstRead sampleCut)) = false := by
  decide +kernel

theorem firstRead_sampleWhole : firstRead sampleWhole = confirmPacketSize := by
  decide +kernel

def sampleChannel : ChannelSource maskSuite := .thisNode sampleInitial.2 0 (some (1 : UInt8))

theorem handshake_iff_settles_whole : sampleOutcome sampleWhole = .ok sampleChannel := by
  have hsettles : Settles maskSuite sampleInitial.1 sampleInitial.2 sampleNonce sampleWhole :=
    .inl firstRead_sampleWhole
  exact ((handshake_iff_settles maskSuite_lawful (maskPair 5) sampleRequest (repeated 32 0)
    sampleCoins sampleNonce rfl left_sampleWhole left_sampleWhole).mpr ⟨hsettles, hsettles⟩).2

/-- The same answer is accepted in one chunk and refused in two. -/
theorem handshake_depends_on_chunks :
    sampleWhole.left = sampleCut.left ∧ sampleOutcome sampleWhole = .ok sampleChannel ∧
      sampleOutcome sampleCut = .error .authenticationFailed := by
  have hwhole := readAnswer_confirmation sampleInitial.2 sampleNonce sampleInitial.1 sampleRequest
    left_sampleWhole
  have hcut := readAnswer_confirmation sampleInitial.2 sampleNonce sampleInitial.1 sampleRequest
    left_sampleCut
  rw [firstRead_sampleWhole, stale_all, verifyConfirm_writeConfirm maskSuite_lawful,
    if_pos rfl] at hwhole
  rw [not_verified_sampleCut, if_neg Bool.false_ne_true] at hcut
  exact ⟨left_sampleWhole.trans left_sampleCut.symm, hwhole, hcut⟩

end Example

end OrionNetwork.Onion
