import OrionNetwork.Mailbox
import OrionNetwork.OnionPacket

/-!
# Delivering read mail

A client that reads its mail is answered when the other replicators have
answered, over its encrypted stream. By then the mailbox is empty. The writer of
the stream has one allocation, so a reply that does not fit is refused, which is
only logged.
-/
namespace OrionNetwork.MailDelivery
open Codec BlockHash ByteMemory ChatReplica Mailbox Onion Proofs Protocols Replicated
open Rpc (CallId)
open OrionNetwork.Stream (Value PacketWriter PacketWriterGuard Fault encode_fits encode_overflow)

/-- What the onion behaviour gives its streams by default. -/
def bufferCap : ℕ := 1 <<< 13

section EncryptedStream

variable (s : Suite) (key : SharedSecret) (nonce : Sized nonceSize)

/-- The tag and the nonce behind the encrypted data, then the length in front. -/
def writeSeal (w : PacketWriter) (g : PacketWriterGuard) (reserved len : ℕ) (tag : Sized tagSize) :
    PacketWriter × Option Unit :=
  match w.write g [tag.val] with
  | (w, g, none) => (w.drop g, none)
  | (w, g, some _) =>
    match w.write g [nonce.val] with
    | (w, g, none) => (w.drop g, none)
    | (w, g, some _) =>
      let fullLen := len + tag.val.length + nonce.val.length
      ({ w with memory := store w.memory reserved (encodeLen fullLen) }.drop g, some ())

/-- The writes of `EncryptedStream::write` through one guard. -/
def writeEncrypted (w : PacketWriter) (g : PacketWriterGuard) (data : Value) :
    PacketWriter × Option Unit :=
  match w.write g [[0, 0]] with
  | (w, g, none) => (w.drop g, none)
  | (w, g, some (reserved, _)) =>
    match w.write g data with
    | (w, g, none) => (w.drop g, none)
    | (w, g, some (pos, len)) =>
      let out := s.encrypt key nonce (slice w.memory pos (pos + len))
      writeSeal nonce { w with memory := store w.memory pos out.1 } g reserved len out.2

def write (w : PacketWriter) (data : Value) : Except Fault (PacketWriter × Option Unit) :=
  match w.guard with
  | .error e => .error e
  | .ok (w, g) => .ok (writeEncrypted s key nonce w g data)

/-- Bytes that a guard can still take. -/
def left (w : PacketWriter) : PacketWriterGuard → ℕ
  | .extending stop _ => w.capacity - stop
  | .replacing _ next last => last - next

@[simp] theorem left_memory (w : PacketWriter) (g : PacketWriterGuard) (memory : ℕ → UInt8) :
    left { w with memory := memory } g = left w g := by
  cases g with
  | extending => rfl
  | replacing => rfl

/-- One write goes by what is left. -/
theorem write_cases (w : PacketWriter) (g : PacketWriterGuard) (value : Value) :
    (value.flatten.length ≤ left w g ∧ ∃ w' g' pos,
      w.write g value = (w', g', some (pos, value.flatten.length)) ∧
        left w' g' = left w g - value.flatten.length) ∨
    (left w g < value.flatten.length ∧ ∃ w' g', w.write g value = (w', g', none)) := by
  by_cases h : value.flatten.length ≤ left w g
  · left
    refine ⟨h, ?_⟩
    cases g with
    | extending stop owned =>
      refine ⟨_, _, _, PacketWriter.write_extending h, ?_⟩
      simp only [MailDelivery.left]
      omega
    | replacing written next last =>
      refine ⟨_, _, _, PacketWriter.write_replacing h, ?_⟩
      simp only [MailDelivery.left]
      omega
  · right
    refine ⟨by omega, ?_⟩
    cases g with
    | extending stop owned =>
      have hfalse := encode_overflow (not_le.mp h)
      unfold PacketWriter.write
      simp only [MailDelivery.left] at hfalse
      simp only [hfalse, Bool.false_eq_true, if_false]
      exact ⟨_, _, rfl⟩
    | replacing written next last =>
      have hfalse := encode_overflow (not_le.mp h)
      unfold PacketWriter.write
      simp only [MailDelivery.left] at hfalse
      simp only [hfalse, Bool.false_eq_true, if_false]
      exact ⟨_, _, rfl⟩

theorem writeSeal_iff {w : PacketWriter} {g : PacketWriterGuard} {reserved len : ℕ}
    {tag : Sized tagSize} : (writeSeal nonce w g reserved len tag).2 = some () ↔ 28 ≤ left w g := by
  have htag : [tag.val].flatten.length = 16 := by simp [tagSize]
  have hnonce : [nonce.val].flatten.length = 12 := by simp [nonceSize]
  unfold writeSeal
  rcases write_cases w g [tag.val] with ⟨hfits, w₁, g₁, pos, hwrite, hleft⟩ | ⟨hfits, w₁, g₁, hwrite⟩
  · simp only [hwrite]
    rcases write_cases w₁ g₁ [nonce.val] with ⟨hfits', w₂, g₂, pos, hwrite, -⟩ |
      ⟨hfits', w₂, g₂, hwrite⟩
    · simp only [hwrite, true_iff]
      omega
    · simp only [hwrite, reduceCtorEq, false_iff]
      omega
  · simp only [hwrite, reduceCtorEq, false_iff]
    omega

/-- A packet is its length, the data, the tag and the nonce. -/
theorem writeEncrypted_iff {w : PacketWriter} {g : PacketWriterGuard} {data : Value} :
    (writeEncrypted s key nonce w g data).2 = some () ↔ data.flatten.length + 30 ≤ left w g := by
  have hzero : ([[0, 0]] : Value).flatten.length = 2 := rfl
  unfold writeEncrypted
  rcases write_cases w g [[0, 0]] with ⟨hfits, w₁, g₁, reserved, hwrite, hleft⟩ |
    ⟨hfits, w₁, g₁, hwrite⟩
  · simp only [hwrite]
    rcases write_cases w₁ g₁ data with ⟨hdata, w₂, g₂, pos, hwrite, hleft'⟩ |
      ⟨hdata, w₂, g₂, hwrite⟩
    · simp only [hwrite]
      rw [writeSeal_iff, left_memory]
      omega
    · simp only [hwrite, reduceCtorEq, false_iff]
      omega
  · simp only [hwrite, reduceCtorEq, false_iff]
    omega

/-- When the writer takes a packet: it does not panic, and there is room. -/
theorem write_accepts_iff {w : PacketWriter} {data : Value} :
    (∃ w', write s key nonce w data = .ok (w', some ())) ↔
      (w.Replaces → w.space.2 ≤ w.len) ∧ data.flatten.length + 30 ≤ w.room := by
  have haccepts : ∀ w₁ g, w.guard = .ok (w₁, g) →
      ((∃ w', write s key nonce w data = .ok (w', some ())) ↔
        data.flatten.length + 30 ≤ left w₁ g) := by
    intro w₁ g hguard
    rw [← writeEncrypted_iff s key nonce]
    unfold write
    rw [hguard]
    constructor
    · rintro ⟨w', hw'⟩
      simp only [Except.ok.injEq] at hw'
      rw [hw']
    · intro h
      refine ⟨(writeEncrypted s key nonce w₁ g data).1, ?_⟩
      simp only [Except.ok.injEq]
      exact Prod.ext rfl h
  by_cases hrep : w.Replaces
  · have hrep' : w.capacity - w.len < w.space.2 - w.space.1 := hrep
    unfold PacketWriter.room
    rw [if_pos hrep]
    by_cases hspace : w.space.2 ≤ w.len
    · rw [haccepts _ _ (by unfold PacketWriter.guard; rw [if_pos hrep', if_pos hspace])]
      simp [hspace, left]
    · unfold write PacketWriter.guard
      rw [if_pos hrep', if_neg hspace]
      simp [hrep, hspace]
  · unfold PacketWriter.room
    rw [if_neg hrep, haccepts _ _ (PacketWriter.guard_extending hrep)]
    split_ifs
    · simp [hrep, left]
    · simp [hrep, left]

end EncryptedStream

abbrev Reply := Except (ReplError (NotFoundError ReadMailError)) Bytes

section Reply

variable {σ Peer ChatName Request H : Type} (server : Server σ Peer ChatName)
  (handler : Handler σ Peer Request Bytes (NotFoundError ReadMailError) H)

/-- What the client is answered after the mail was read and `events` came in for
the calls to the other replicators, if it is answered. -/
def reply (ongoing : List CallId) (events : List (Rpc.Event Peer)) (state : σ) :
    Except ReadMailError Bytes → Option Reply
  | .error e => some (.error (.inner (.inner e)))
  | .ok mail =>
    match (resumeAll server handler reminder (notFoundError readMailError) events
      (.replicating (okBytes reminder mail) ongoing 0) state).2 with
    | .ok r => some r
    | .error _ => none

def replyValue (id : CallId) (r : Reply) : Value :=
  (pair u64 reminder).encode
    (id, (result reminder (replError (notFoundError readMailError))).toBytes r)

theorem length_replyValue (id : CallId) (mail : Bytes) :
    (replyValue id (.ok mail)).flatten.length = (base128Encode id).length + mail.length + 1 := by
  have hid : (u64.encode id).flatten = base128Encode id := flatten_map_singleton _
  change (u64.encode id ++ [[1] ++ (mail ++ [])]).flatten.length = _
  rw [List.flatten_append, hid]
  simp
  omega

theorem reply_ok_iff {ongoing : List CallId} {events : List (Rpc.Event Peer)}
    (ha : Answers ongoing events) (state : σ) (mail : Bytes) :
    reply server handler ongoing events state (.ok mail) = some (.ok mail) ↔
      replicationFactor / 2 < matching (okBytes reminder mail) ongoing events := by
  simp only [reply]
  rw [resumeAll_replicating roundTrips_reminder mail (Nat.zero_le _) ha, Nat.zero_add]
  unfold verdict
  constructor
  · intro h
    by_contra hfew
    rw [if_neg hfew] at h
    split_ifs at h
    cases h
  · intro h
    rw [if_pos h]

end Reply

/-- The stream of the client takes a reply with all of the mail. -/
def Delivered (s : Suite) (key : SharedSecret) (nonce : Sized nonceSize)
    (stream : Option PacketWriter) (id : CallId) (mail : Bytes) (r : Option Reply) : Prop :=
  r = some (.ok mail) ∧ ∃ w, stream = some w ∧
    ∃ w', write s key nonce w (replyValue id (.ok mail)) = .ok (w', some ())

section ReadMail

variable {Peer : Type} {host : Host} {scheme : Verify} {st : Storage Peer}
  {origin : RequestOrigin Peer} {request : Proof Unit}

/-- The request is valid, for a profile that is here, and not an old one. -/
def Reads (host : Host) (scheme : Verify) (st : Storage Peer) (request : Proof Unit) : Prop :=
  verify host scheme ⟨request.pk, request.nonce, request.signature, .mail⟩ = true ∧
    ∃ profile, st.profiles (host.blake3 request.pk) = some profile ∧
      profile.mailAction < request.nonce

theorem readMail_of_reads (h : Reads host scheme st request) :
    (readMail host scheme st origin request).1.mailOf (host.blake3 request.pk) = [] ∧
      (readMail host scheme st origin request).2 = .ok (st.mailOf (host.blake3 request.pk)) := by
  obtain ⟨hverify, profile, hprofile, hnonce⟩ := h
  have hadvance : advanceNonce profile.mailAction request.nonce = some request.nonce :=
    if_pos hnonce
  rcases readMail_cases host scheme st origin request with ⟨e, herror⟩ | ⟨hst, hres⟩
  · simp [readMail, hverify, hprofile, hadvance] at herror
  · rw [hst, Function.update_self]
    exact ⟨rfl, hres⟩

theorem readMail_of_not_reads (h : ¬Reads host scheme st request) :
    (readMail host scheme st origin request).1 = st := by
  unfold readMail
  split_ifs with hverify
  · rfl
  · cases hprofile : st.profiles (host.blake3 request.pk) with
    | none => simp only [hprofile]
    | some profile =>
      have hstale : advanceNonce profile.mailAction request.nonce = none := by
        apply if_neg
        intro hnonce
        exact h ⟨by simpa using hverify, profile, hprofile, hnonce⟩
      simp only [hprofile, hstale]

/-- Mail that is read is delivered exactly when most replicators agree and the
reply fits into the room that the writer of the client has. Otherwise it was
not there or not taken. -/
theorem readMail_delivered_iff {σ ChatName Request H : Type} (server : Server σ Peer ChatName)
    (handler : Handler σ Peer Request Bytes (NotFoundError ReadMailError) H) (s : Suite)
    (key : SharedSecret) (nonce : Sized nonceSize) (path : Mailbox.PathId) (id : CallId)
    (stream : Option PacketWriter) (ongoing : List CallId) (events : List (Rpc.Event Peer))
    (ha : Answers ongoing events) (state : σ) :
    ((readMail host scheme st (.client path) request).1.mailOf (host.blake3 request.pk) =
          st.mailOf (host.blake3 request.pk) ∨
        Delivered s key nonce stream id (st.mailOf (host.blake3 request.pk))
          (reply server handler ongoing events state
            (readMail host scheme st (.client path) request).2)) ↔
      ¬Reads host scheme st request ∨ st.mailOf (host.blake3 request.pk) = [] ∨
        (replicationFactor / 2 <
            matching (okBytes reminder (st.mailOf (host.blake3 request.pk))) ongoing events ∧
          ∃ w, stream = some w ∧ (w.Replaces → w.space.2 ≤ w.len) ∧
            (base128Encode id).length + (st.mailOf (host.blake3 request.pk)).length + 31 ≤ w.room) := by
  by_cases hreads : Reads host scheme st request
  · obtain ⟨hempty, hok⟩ := @readMail_of_reads _ _ _ _ (.client path) _ hreads
    rw [hempty, hok]
    simp only [hreads, not_true_eq_false, false_or]
    apply or_congr eq_comm
    unfold Delivered
    rw [reply_ok_iff server handler ha]
    apply and_congr_right
    intro _
    apply exists_congr
    intro w
    rw [write_accepts_iff, length_replyValue, show ∀ a b : ℕ, a + b + 1 + 30 = a + b + 31 by omega]
  · simp [readMail_of_not_reads hreads, hreads]

end ReadMail

section Example

/-- A profile whose owner is not online. -/
def offline : Storage ℕ := ⟨fun who => if who = .zero then some ⟨0, []⟩ else none, fun _ => none⟩

/-- The profile after another client has sent it a mail. -/
def holding (mail : Bytes) : Storage ℕ :=
  (SendMail.execute offline (.client 1) .zero mail false none).1

theorem mailOf_holding {mail : Bytes} (h : mail.length < mailBoxCap) :
    (holding mail).mailOf .zero = frame mail := by
  have hsmall : ¬mailBoxCap ≤ mail.length := by omega
  simp [holding, SendMail.execute, offline, hsmall, Profile.pushMail]

/-- A first request of the owner. -/
def firstRead : Proof Unit := ⟨[], 1, [], ()⟩

theorem reads_firstRead {mail : Bytes} (h : mail.length < mailBoxCap) :
    Reads plainHost (fun _ _ _ => true) (holding mail) firstRead := by
  have hsmall : ¬mailBoxCap ≤ mail.length := by omega
  refine ⟨rfl, ⟨0, frame mail⟩, ?_, show (0 : Nonce) < 1 by decide⟩
  simp [holding, SendMail.execute, offline, hsmall, Profile.pushMail, Storage.insertProfile,
    plainHost]

/-- Handlers that have read the mail do not come back to it. -/
def done : Handler Unit ℕ Unit Bytes (NotFoundError ReadMailError) Unit where
  execute _ _ := ((), .ok (.ok []))
  resume _ _ _ := ((), .ok (.ok []))

/-- Three replicators that answer the same. -/
def agreeing (response : Bytes) : List (Rpc.Event ℕ) :=
  [.response 0 11 (.ok response), .response 1 12 (.ok response), .response 2 13 (.ok response)]

theorem matching_agreeing (response : Bytes) :
    matching response [11, 12, 13] (agreeing response) = 3 := by
  simp [matching, agreeing, isMatch]

theorem readMail_delivered_small :
    Delivered maskSuite (repeated 32 0) (repeated 12 0) (some (Stream.new bufferCap)) 0 (frame [7])
      (reply alone done [11, 12, 13] (agreeing (okBytes reminder (frame [7]))) ()
        (readMail plainHost (fun _ _ _ => true) (holding [7]) (.client 0) firstRead).2) := by
  have hmail : (holding [7]).mailOf (plainHost.blake3 firstRead.pk) = frame [7] :=
    mailOf_holding (by decide)
  have hreads : Reads plainHost (fun _ _ _ => true) (holding [7]) firstRead :=
    reads_firstRead (by decide)
  have hagree : replicationFactor / 2 < matching (okBytes reminder (frame [7])) [11, 12, 13]
      (agreeing (okBytes reminder (frame [7]))) := by
    rw [matching_agreeing]
    decide
  have hsafe := (@readMail_delivered_iff ℕ plainHost (fun _ _ _ => true) (holding [7]) firstRead
    Unit Unit Unit Unit alone done maskSuite (repeated 32 0) (repeated 12 0) 0 0
    (some (Stream.new bufferCap)) [11, 12, 13] (agreeing (okBytes reminder (frame [7])))
    (List.Perm.refl _) ()).mpr
  rw [hmail, (readMail_of_reads hreads).1] at hsafe
  refine (hsafe (.inr (.inr ⟨hagree, _, rfl, by decide, by decide⟩))).resolve_left ?_
  intro hempty
  cases hempty

/-- A mail as large as the writer. -/
def largeMail : Bytes := List.replicate bufferCap 0

theorem readMail_loses_mail :
    (SendMail.execute offline (.client 1) .zero largeMail false none).2 = .ok (.ok ()) ∧
    (readMail plainHost (fun _ _ _ => true) (holding largeMail) (.client 0) firstRead).1.mailOf
      .zero = [] ∧
    (holding largeMail).mailOf .zero = frame largeMail ∧
    ¬Delivered maskSuite (repeated 32 0) (repeated 12 0) (some (Stream.new bufferCap)) 0
      (frame largeMail) (reply alone done [11, 12, 13]
        (agreeing (okBytes reminder (frame largeMail))) ()
        (readMail plainHost (fun _ _ _ => true) (holding largeMail) (.client 0) firstRead).2) := by
  have hlen : largeMail.length = bufferCap := List.length_replicate
  have hsmall : largeMail.length < mailBoxCap := by rw [hlen]; decide
  refine ⟨?_, (readMail_of_reads (reads_firstRead hsmall)).1, mailOf_holding hsmall, ?_⟩
  · have hfits : ¬mailBoxCap ≤ largeMail.length := by omega
    simp [SendMail.execute, offline, hfits]
  · rintro ⟨-, w, hw, haccepts⟩
    cases hw
    have hroom := ((write_accepts_iff _ _ _).mp haccepts).2
    have hcap : (Stream.new bufferCap).room = bufferCap := by decide
    rw [length_replyValue, hcap] at hroom
    simp only [frame, List.length_append, hlen] at hroom
    omega

end Example

end OrionNetwork.MailDelivery
