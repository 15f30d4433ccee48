import OrionNetwork.ChatDispatch
import OrionNetwork.CodecReads
import OrionNetwork.OnionPacket

/-!
# Mail of the client

Whoever knows a client can send it mail. The client invites itself to a chat, adds a
member to a hardened chat, reads a message of one or answers an invite to one. A mail
is decoded, what is encrypted for the client is opened, and the vault or the list of new
messages is updated. The key exchange and the cipher are those of the onion packets. The
order of fields in memory is up to the compiler. The tasks that are spawned for an invite
are kept as they are started, and signals hold what they were set to last.
-/
namespace OrionNetwork.ClientMail
open Codec CodecReads BlockHash ChatReplica ChatDispatch Proofs Collections Onion

abbrev UserName := ArrayString 32

structure MemberMeta where
  secret : SharedSecret
  identity : Sized 32

structure HardenedChatMeta where
  members : LinearMap UserName MemberMeta

structure Vault where
  chats : LinearMap ChatName ChatMeta
  hardenedChats : LinearMap ChatName HardenedChatMeta

structure Message where
  sender : UserName
  owner : UserName
  content : String
  chat : ChatName

structure JoinRequestPayload where
  name : Sized 32
  chat : Sized 32
  identity : Sized 32

structure HardenedChatInvitePayload where
  chat : ChatName
  inviter : UserName
  inviterId : Sized 32
  members : Vec UserName

structure FixedAesPayload (size : ℕ) where
  data : Sized size
  tag : Sized tagSize
  nonce : Sized nonceSize

structure ChoosenCiphertext where
  pl : FixedAesPayload 32
  cp : Ciphertext

/-- The sizes in bytes of a chosen ciphertext and of an encrypted join request. -/
def choosenCs : ℕ := 32 + tagSize + nonceSize + cs
def joinSize : ℕ := 96 + tagSize + nonceSize

/-- How bytes are transmuted. The sizes are those of the fields, and no field is aligned. -/
structure Layout where
  choosenCiphertext : Sized choosenCs → ChoosenCiphertext
  joinRequest : Sized joinSize → FixedAesPayload 96
  joinRequestPayload : Sized 96 → JoinRequestPayload

inductive Mail where
  | chatInvite (chat : ChatName) (cp : Sized choosenCs)
  | hardenedJoinRequest (cp : Sized cs) (payload : Sized joinSize)
  | hardenedChatMessage (nonce : Nonce) (chat : Sized 32) (content : Bytes)
  | hardenedChatInvite (cp : Sized cs) (payload : Bytes)

section Decoding

def MailFields : Fin 4 → Type
  | 0 => ChatName × Sized choosenCs
  | 1 => Sized cs × Sized joinSize
  | 2 => Nonce × Sized 32 × Bytes
  | 3 => Sized cs × Bytes

/-- The tags are written as numerals. -/
local instance mailTags : NeZero 4 := ⟨Nat.succ_ne_zero 3⟩

def Mail.fields : Mail → Σ i, MailFields i
  | .chatInvite chat cp => ⟨0, chat, cp⟩
  | .hardenedJoinRequest cp payload => ⟨1, cp, payload⟩
  | .hardenedChatMessage nonce chat content => ⟨2, nonce, chat, content⟩
  | .hardenedChatInvite cp payload => ⟨3, cp, payload⟩

def Mail.build : (Σ i, MailFields i) → Mail
  | ⟨0, chat, cp⟩ => .chatInvite chat cp
  | ⟨1, cp, payload⟩ => .hardenedJoinRequest cp payload
  | ⟨2, nonce, chat, content⟩ => .hardenedChatMessage nonce chat content
  | ⟨3, cp, payload⟩ => .hardenedChatInvite cp payload

theorem Mail.fields_build (v : Σ i, MailFields i) : (Mail.build v).fields = v := by
  obtain ⟨i, v⟩ := v
  fin_cases i <;> rfl

def bytes (n : ℕ) : Decoder (Sized n) := .array n .u8

def mailFields : ∀ i, Decoder (MailFields i)
  | 0 => .pair (.arrayString 32) (bytes choosenCs)
  | 1 => .pair (bytes cs) (bytes joinSize)
  | 2 => .pair (.int id id) (.pair (bytes 32) .reminder)
  | 3 => .pair (bytes cs) .reminder

def mail : Decoder Mail := .enum Mail.fields Mail.build mailFields

def HardenedChatInvitePayload.fields (p : HardenedChatInvitePayload) :
    ChatName × UserName × Sized 32 × Vec UserName := (p.chat, p.inviter, p.inviterId, p.members)

def HardenedChatInvitePayload.build (r : ChatName × UserName × Sized 32 × Vec UserName) :
    HardenedChatInvitePayload := ⟨r.1, r.2.1, r.2.2.1, r.2.2.2⟩

def hardenedChatInvitePayload : Decoder HardenedChatInvitePayload :=
  .struct HardenedChatInvitePayload.fields HardenedChatInvitePayload.build
    (.pair (.arrayString 32) (.pair (.arrayString 32) (.pair (bytes 32) (.vec (.arrayString 32)))))

theorem known_bytes (n : ℕ) : Known false false (bytes n) := .array n .u8

theorem known_mailFields (i : Fin 4) : Known false false (mailFields i) := by
  fin_cases i
  · exact .pair (.arrayString 32) (known_bytes choosenCs)
  · exact .pair (known_bytes cs) (known_bytes joinSize)
  · exact .pair (.int id id) (.pair (known_bytes 32) .reminder)
  · exact .pair (known_bytes cs) .reminder

theorem known_mail : Known false false mail := .enum Mail.fields Mail.build known_mailFields

theorem known_hardenedChatInvitePayload : Known false false hardenedChatInvitePayload :=
  .struct _ _ (.pair (.arrayString 32)
    (.pair (.arrayString 32) (.pair (known_bytes 32) (.vec (.arrayString 32)))))

/-- Neither type is read with a panic. -/
theorem read_eq {α : Type} {d : Decoder α} (hd : Known false false d) {buffer : Bytes}
    (hlength : buffer.length < capacityLimit) :
    (d.read buffer).answer ≠ .panicked ∧
      d.codec.decode buffer = (d.read buffer).answer.toOption (d.read buffer).rest := by
  obtain ⟨-, hagrees, hsafe⟩ := decode_safe_iff hd (Nat.le_refl 1) hlength
  exact ⟨(hsafe rfl).calm.1, hagrees (hsafe rfl)⟩

theorem decode_cons (i : Fin 4) (buffer : Bytes) :
    mail.codec.decode (UInt8.ofNat i.val :: buffer) =
      ((mailFields i).codec.decode buffer).bind fun r => some (Mail.build ⟨i, r.1⟩, r.2) := by
  fin_cases i <;> rfl

theorem toBytes_build (i : Fin 4) (v : MailFields i) :
    mail.codec.toBytes (Mail.build ⟨i, v⟩) =
      UInt8.ofNat i.val :: (mailFields i).codec.toBytes v := by
  unfold toBytes mail Decoder.enum
  dsimp only
  rw [Mail.fields_build]
  rfl

/-- A mail is read back as it was sent, in front of all that its last field can tell
apart from itself. -/
theorem decode_toBytes {i : Fin 4} (v : MailFields i) {R : Bytes → Prop} {rest : Bytes}
    (hfields : RoundTrips R (mailFields i).codec) (hrest : R rest) :
    mail.codec.decode (mail.codec.toBytes (Mail.build ⟨i, v⟩) ++ rest) =
      some (Mail.build ⟨i, v⟩, rest) := by
  rw [toBytes_build, List.cons_append, decode_cons, hfields v rest hrest]
  rfl

theorem everywhere_bytes (n : ℕ) : Everywhere (bytes n).codec := roundTrips_array n roundTrips_u8

theorem everywhere_chatInvite : Everywhere (mailFields 0).codec :=
  roundTrips_pair (roundTrips_arrayString 32) (everywhere_bytes choosenCs)

theorem everywhere_hardenedJoinRequest : Everywhere (mailFields 1).codec :=
  roundTrips_pair (everywhere_bytes cs) (everywhere_bytes joinSize)

theorem suffix_of_decode {α : Type} {d : Decoder α} (hd : Known false false d)
    {buffer rest : Bytes} {v : α} (hlength : buffer.length < capacityLimit)
    (h : d.codec.decode buffer = some (v, rest)) : rest <:+ buffer := by
  obtain ⟨-, hagrees, hsafe⟩ := decode_safe_iff hd (Nat.le_refl 1) hlength
  rw [hagrees (hsafe rfl)] at h
  have hsuffix := (hsafe rfl).suffix
  cases hanswer : (d.read buffer).answer with
  | value a =>
    rw [hanswer] at h
    cases h
    exact hsuffix
  | refused | panicked =>
    rw [hanswer] at h
    cases h

/-- What follows the ciphertext of an invite is no longer than the mail. -/
theorem length_payload_lt {rawMail payload rest : Bytes} {cp : Sized cs}
    (hlength : rawMail.length < capacityLimit)
    (h : mail.codec.decode rawMail = some (.hardenedChatInvite cp payload, rest)) :
    payload.length < capacityLimit := by
  cases rawMail with
  | nil => cases h
  | cons index buffer =>
    have hbuffer : buffer.length < capacityLimit :=
      lt_trans (Nat.lt_succ_self buffer.length) hlength
    simp only [mail, Decoder.enum] at h
    split_ifs at h with hindex
    obtain ⟨⟨fields, left⟩, hfields, hbuilt⟩ := Option.bind_eq_some_iff.mp h
    simp only [Option.some.injEq, Prod.mk.injEq] at hbuilt
    have hvariant := congrArg Mail.fields hbuilt.1
    rw [Mail.fields_build] at hvariant
    generalize (⟨index.toNat, hindex⟩ : Fin 4) = i at fields hfields hvariant
    cases hvariant
    obtain ⟨⟨first, middle⟩, hfirst, hsecond⟩ := Option.bind_eq_some_iff.mp hfields
    cases hsecond
    exact lt_of_le_of_lt (suffix_of_decode (known_bytes cs) hbuffer hfirst).length_le hbuffer

end Decoding

section Opening

variable {s : Suite}

def context {α : Type} (msg : String) : Option α → Except String α
  | none => .error msg
  | some a => .ok a

/-- The cipher works in place, so what is decrypted is as long as what was encrypted. -/
def InPlace (s : Suite) : Prop :=
  ∀ key nonce data tag plain, s.decrypt key nonce data tag = some plain →
    plain.length = data.length

def decrypt (s : Suite) (data : Bytes) (secret : SharedSecret) : Option Bytes :=
  if data.length < nonceSize + tagSize then none
  else do
    let (data, tail) ← splitTail (tagSize + nonceSize) data
    let (tag, nonce) := split tagSize tail
    s.decrypt secret nonce data tag

def FixedAesPayload.decrypt {size : ℕ} (s : Suite) (p : FixedAesPayload size) (key : SharedSecret) :
    Option (Sized size) :=
  match s.decrypt key p.nonce p.data.val p.tag with
  | none => none
  -- the cipher works in place, so the array has the size it had
  | some data => if h : data.length = size then some ⟨data, h⟩ else none

def decapsulateChoosen (enc : KeyPair s) (ciphertext : ChoosenCiphertext) : Option SharedSecret :=
  (enc.decapsulate ciphertext.cp).bind fun secret => ciphertext.pl.decrypt s secret

/-- The number of bytes before those at the end that are all `0xff`. -/
def nameLength (arr : Bytes) : ℕ :=
  (arr.reverse.findIdx? (· ≠ 0xff)).elim 0 fun i => arr.length - i

theorem utf8ByteSize_le {arr : Sized 32} {name : String}
    (h : fromUtf8 (arr.val.take (nameLength arr.val)) = some name) :
    name.utf8ByteSize ≤ (32 : UInt64).toNat := by
  have htaken := List.length_take_le' (nameLength arr.val) arr.val
  rw [arr.property] at htaken
  rw [← length_asBytes, WrappedErrors.asBytes_of_fromUtf8 h]
  exact htaken

def arrayToArrstr (arr : Sized 32) : Option (ArrayString 32) :=
  (fromUtf8 (arr.val.take (nameLength arr.val))).attach.map fun name =>
    ⟨name.val, utf8ByteSize_le name.property⟩

/-- A join request that is opened. -/
structure JoinRequest where
  chat : ChatName
  name : UserName
  member : MemberMeta

def openJoinRequest (layout : Layout) (enc : KeyPair s) (cp : Sized cs) (payload : Sized joinSize) :
    Except String JoinRequest := do
  let secret ← context "failed to decapsulate invite" (enc.decapsulate (.fromBytes cp))
  let payload ← context "failed to decrypt join request payload"
    ((layout.joinRequest payload).decrypt s secret)
  let ⟨name, chat, identity⟩ := layout.joinRequestPayload payload
  let chat ← context "invalid chat name" (arrayToArrstr chat)
  let name ← context "invalid name" (arrayToArrstr name)
  return ⟨chat, name, secret, identity⟩

theorem openJoinRequest_ok {layout : Layout} {enc : KeyPair s} {cp : Sized cs}
    {payload : Sized joinSize} {secret : SharedSecret} {plain : Sized 96} {chat : ChatName}
    {name : UserName} (hsecret : enc.decapsulate (.fromBytes cp) = some secret)
    (hplain : (layout.joinRequest payload).decrypt s secret = some plain)
    (hchat : arrayToArrstr (layout.joinRequestPayload plain).chat = some chat)
    (hname : arrayToArrstr (layout.joinRequestPayload plain).name = some name) :
    openJoinRequest layout enc cp payload =
      .ok ⟨chat, name, secret, (layout.joinRequestPayload plain).identity⟩ := by
  unfold openJoinRequest
  simp only [hsecret, context, bind, Except.bind, hplain, hchat, hname]
  rfl

/-- The chat that a hash with a nonce stands for. -/
def findChat (host : Host) (vault : Vault) (nonce : Nonce) (chat : Sized 32) :
    Option (ChatName × HardenedChatMeta) :=
  vault.hardenedChats.find? fun entry =>
    (host.blake3 (asBytes entry.1.val ++ toBeBytes nonce)).bytes = chat.val

/-- The first member whose secret opens the message. What fails to be opened is left as
it was. -/
def findSender (s : Suite) (chat : HardenedChatMeta) (message : Bytes) :
    Option (UserName × Bytes) :=
  chat.members.findSome? fun entry =>
    (decrypt s message entry.2.secret).map fun decrypted => (entry.1, decrypted)

theorem arrayToArrstr_eq {arr : Sized 32} {name : ArrayString 32}
    (h : arr.val.take (nameLength arr.val) = asBytes name.val) : arrayToArrstr arr = some name := by
  have hread : fromUtf8 (arr.val.take (nameLength arr.val)) = some name.val := by
    rw [h, fromUtf8_asBytes]
  unfold arrayToArrstr
  rw [Option.map_eq_some_iff]
  exact ⟨⟨name.val, hread⟩, Option.attach_eq_some_iff.mpr hread, rfl⟩

end Opening

section Handlers

variable {s : Suite}

/-- What the handler works on. -/
structure Client where
  vault : Vault
  newMessages : List Message
  hardenedMessages : Option (ChatName × Message)
  spawned : List HardenedChatInvitePayload

inductive Panic where
  | decoding
  | assertEmpty
  | expect (msg : String)
  | unwrapNone
  deriving DecidableEq

inductive Outcome where
  | panicked (why : Panic)
  | done (result : Except String Unit) (client : Client)

def ChatMeta.fromSecret (secret : SharedSecret) : ChatMeta := ⟨secret.val, 0⟩

def Client.updateVault (client : Client) (f : Vault → Vault) : Client :=
  { client with vault := f client.vault }

def handleChatInvite (layout : Layout) (enc : KeyPair s) (client : Client) (chat : ChatName)
    (cp : Sized choosenCs) : Outcome :=
  match decapsulateChoosen enc (layout.choosenCiphertext cp) with
  | none => .done (.error "failed to decapsulate invite") client
  | some secret => .done (.ok ()) <| client.updateVault fun v =>
    { v with chats := v.chats.insert chat (ChatMeta.fromSecret secret) }

def handleHardenedJoinRequest (layout : Layout) (enc : KeyPair s) (client : Client)
    (cp : Sized cs) (payload : Sized joinSize) : Outcome :=
  match openJoinRequest layout enc cp payload with
  | .error msg => .done (.error msg) client
  | .ok request =>
    if request.chat ∉ client.vault.chats.keys then
      .done (.error "request to join chat we dont have") client
    else
      match client.vault.hardenedChats.get request.chat with
      | none => .panicked (.expect "we just checked")
      | some chat => .done (.ok ()) <| client.updateVault fun v =>
        { v with hardenedChats := v.hardenedChats.insert request.chat
                  ⟨chat.members.insert request.name request.member⟩ }

/-- The members are invited in a task of its own. -/
def handleHardenedChatInvite (enc : KeyPair s) (client : Client) (cp : Sized cs)
    (payload : Bytes) : Outcome :=
  match enc.decapsulate (.fromBytes cp) with
  | none => .done (.error "failed to decapsulate hardened invite") client
  | some secret =>
    match decrypt s payload secret with
    | none => .done (.error "failed to decrypt hardened invite") client
    | some payload =>
      match (hardenedChatInvitePayload.read payload).answer with
      | .panicked => .panicked .decoding
      | .refused => .done (.error "failed to decode hardened invite") client
      | .value invite => .done (.ok ()) { client with spawned := client.spawned ++ [invite] }

/-- A message that is for no chat, or from no member of it, is dropped. -/
def handleHardenedChatMessage (s : Suite) (host : Host) (myName : UserName) (client : Client)
    (nonce : Nonce) (chat : Sized 32) (content : Bytes) : Outcome :=
  match findChat host client.vault nonce chat with
  | none => .done (.ok ()) client
  | some (chat, details) =>
    match findSender s details content with
    | none => .done (.ok ()) client
    | some (sender, decrypted) =>
      match fromUtf8 decrypted with
      | none => .panicked .unwrapNone
      | some content =>
        let message := ⟨sender, myName, content, chat⟩
        .done (.ok ()) { client with
          newMessages := client.newMessages ++ [message]
          hardenedMessages := some (chat, message) }

def handleDecoded (host : Host) (layout : Layout) (enc : KeyPair s) (myName : UserName)
    (client : Client) : Mail → Outcome
  | .chatInvite chat cp => handleChatInvite layout enc client chat cp
  | .hardenedJoinRequest cp payload => handleHardenedJoinRequest layout enc client cp payload
  | .hardenedChatInvite cp payload => handleHardenedChatInvite enc client cp payload
  | .hardenedChatMessage nonce chat content =>
    handleHardenedChatMessage s host myName client nonce chat content

def handleMail (host : Host) (layout : Layout) (enc : KeyPair s) (myName : UserName)
    (client : Client) (rawMail : Bytes) : Outcome :=
  let read := mail.read rawMail
  match read.answer with
  | .panicked => .panicked .decoding
  | .refused => .done (.error "failed to decode chat message") client
  | .value mail =>
    if read.rest ≠ [] then .panicked .assertEmpty
    else handleDecoded host layout enc myName client mail

end Handlers

section Requirements

variable {s : Suite}

def Outcome.Returns (o : Outcome) : Prop := ∃ result client, o = .done result client

/-- The mail is a join request that opens to this one. -/
def Requests (layout : Layout) (enc : KeyPair s) (rawMail : Bytes) (request : JoinRequest) : Prop :=
  ∃ cp payload rest, mail.codec.decode rawMail = some (.hardenedJoinRequest cp payload, rest) ∧
    openJoinRequest layout enc cp payload = .ok request

/-- The mail is a message from a member of a chat, who wrote this. -/
def Writes (s : Suite) (host : Host) (vault : Vault) (rawMail decrypted : Bytes) : Prop :=
  ∃ nonce hash content rest chat sender,
    mail.codec.decode rawMail = some (.hardenedChatMessage nonce hash content, rest) ∧
    findChat host vault nonce hash = some chat ∧
    findSender s chat.2 content = some (sender, decrypted)

def Joined (vault : Vault) (request : JoinRequest) : Prop :=
  ∃ chat, vault.hardenedChats.get request.chat = some chat ∧
    chat.members.get request.name = some request.member

/-- No panic, and who asks to join a hardened chat is a member of it. -/
structure Handles (host : Host) (layout : Layout) (enc : KeyPair s) (myName : UserName)
    (client : Client) (rawMail : Bytes) : Prop where
  returns : (handleMail host layout enc myName client rawMail).Returns
  joins : ∀ request, Requests layout enc rawMail request →
    request.chat ∈ client.vault.hardenedChats.keys →
    ∃ after, handleMail host layout enc myName client rawMail = .done (.ok ()) after ∧
      Joined after.vault request

/-- What the handler takes for granted of the sender and of the vault. -/
structure WellBehaved (host : Host) (layout : Layout) (enc : KeyPair s) (client : Client)
    (rawMail : Bytes) : Prop where
  whole : ∀ m rest, mail.codec.decode rawMail = some (m, rest) → rest = []
  known : ∀ request, Requests layout enc rawMail request →
    (request.chat ∈ client.vault.chats.keys ↔ request.chat ∈ client.vault.hardenedChats.keys)
  readable : ∀ decrypted, Writes s host client.vault rawMail decrypted →
    ∃ content, fromUtf8 decrypted = some content

end Requirements

section Proofs

variable {s : Suite} {host : Host} {layout : Layout} {enc : KeyPair s} {myName : UserName}
  {client : Client} {rawMail : Bytes}

theorem returns_done (result : Except String Unit) (client : Client) :
    (Outcome.done result client).Returns := ⟨result, client, rfl⟩

theorem not_returns_panicked (why : Panic) : ¬ (Outcome.panicked why).Returns := by
  rintro ⟨result, client, hdone⟩
  cases hdone

theorem returns_handleChatInvite (chat : ChatName) (cp : Sized choosenCs) :
    (handleChatInvite layout enc client chat cp).Returns := by
  unfold handleChatInvite
  cases decapsulateChoosen enc (layout.choosenCiphertext cp) with
  | none => exact returns_done _ client
  | some secret => exact returns_done _ _

theorem length_decrypt_le (hs : InPlace s) {data plain : Bytes} {secret : SharedSecret}
    (h : decrypt s data secret = some plain) : plain.length ≤ data.length := by
  unfold decrypt at h
  split_ifs at h with hshort
  obtain ⟨⟨body, tail⟩, hsplit, hplain⟩ := Option.bind_eq_some_iff.mp h
  unfold splitTail at hsplit
  split_ifs at hsplit
  cases hsplit
  have hlength := hs _ _ _ _ _ hplain
  rw [hlength]
  exact List.length_take_le' _ _

/-- The invite is no longer than the mail it came in. -/
theorem returns_handleHardenedChatInvite (hs : InPlace s) (cp : Sized cs) {payload : Bytes}
    (hlength : payload.length < capacityLimit) :
    (handleHardenedChatInvite enc client cp payload).Returns := by
  unfold handleHardenedChatInvite
  cases enc.decapsulate (.fromBytes cp) with
  | none => exact returns_done _ client
  | some secret =>
    dsimp only
    cases hopened : decrypt s payload secret with
    | none => exact returns_done _ client
    | some plain =>
      have hplain := lt_of_le_of_lt (length_decrypt_le hs hopened) hlength
      obtain ⟨hcalm, -⟩ := read_eq known_hardenedChatInvitePayload hplain
      dsimp only
      cases hanswer : (hardenedChatInvitePayload.read plain).answer with
      | panicked => exact absurd hanswer hcalm
      | refused => exact returns_done _ client
      | value invite => exact returns_done _ _

theorem returns_handleHardenedChatMessage_iff (nonce : Nonce) (chat : Sized 32) (content : Bytes) :
    (handleHardenedChatMessage s host myName client nonce chat content).Returns ↔
      ∀ details sender decrypted, findChat host client.vault nonce chat = some details →
        findSender s details.2 content = some (sender, decrypted) →
        ∃ text, fromUtf8 decrypted = some text := by
  unfold handleHardenedChatMessage
  cases findChat host client.vault nonce chat with
  | none =>
    refine iff_of_true (returns_done _ client) ?_
    rintro _ _ _ ⟨⟩
  | some found =>
    dsimp only
    cases hsender : findSender s found.2 content with
    | none =>
      refine iff_of_true (returns_done _ client) ?_
      rintro _ _ _ ⟨⟩ hopened
      cases hsender.symm.trans hopened
    | some opened =>
      dsimp only
      cases htext : fromUtf8 opened.2 with
      | none =>
        refine iff_of_false (not_returns_panicked _) fun hreadable => ?_
        obtain ⟨text, hread⟩ := hreadable found opened.1 opened.2 rfl hsender
        cases htext.symm.trans hread
      | some text =>
        refine iff_of_true (returns_done _ _) ?_
        rintro _ _ _ ⟨⟩ hopened
        cases hsender.symm.trans hopened
        exact ⟨text, htext⟩

/-- What comes of a join request that is opened. -/
theorem handleHardenedJoinRequest_ok {cp : Sized cs} {payload : Sized joinSize}
    {request : JoinRequest} (hopened : openJoinRequest layout enc cp payload = .ok request) :
    (handleHardenedJoinRequest layout enc client cp payload).Returns ∧
        (request.chat ∈ client.vault.hardenedChats.keys →
          ∃ after, handleHardenedJoinRequest layout enc client cp payload = .done (.ok ()) after ∧
            Joined after.vault request) ↔
      (request.chat ∈ client.vault.chats.keys ↔
        request.chat ∈ client.vault.hardenedChats.keys) := by
  unfold handleHardenedJoinRequest
  rw [hopened]
  dsimp only
  by_cases hchat : request.chat ∈ client.vault.chats.keys
  · rw [if_neg (not_not.mpr hchat), iff_true_left hchat]
    cases hget : client.vault.hardenedChats.get request.chat with
    | none =>
      have hout := LinearMap.get_eq_none_iff.mp hget
      exact iff_of_false (fun h => not_returns_panicked _ h.1) hout
    | some chat =>
      refine iff_of_true ⟨returns_done _ _, fun _ => ⟨_, rfl, ?_⟩⟩ (LinearMap.mem_keys_of_get hget)
      exact ⟨_, LinearMap.get_insert_self _, LinearMap.get_insert_self _⟩
  · rw [if_pos hchat, iff_false_left hchat]
    constructor
    · rintro ⟨-, hjoins⟩ hhardened
      obtain ⟨after, hafter, -⟩ := hjoins hhardened
      cases hafter
    · intro hhardened
      exact ⟨returns_done _ client, fun hin => absurd hin hhardened⟩

theorem handleHardenedJoinRequest_error {cp : Sized cs} {payload : Sized joinSize} {msg : String}
    (hrefused : openJoinRequest layout enc cp payload = .error msg) :
    handleHardenedJoinRequest layout enc client cp payload = .done (.error msg) client := by
  unfold handleHardenedJoinRequest
  rw [hrefused]

theorem handleMail_refused (hlength : rawMail.length < capacityLimit)
    (h : mail.codec.decode rawMail = none) :
    handleMail host layout enc myName client rawMail =
      .done (.error "failed to decode chat message") client := by
  obtain ⟨hcalm, hagrees⟩ := read_eq known_mail hlength
  unfold handleMail
  dsimp only
  cases hanswer : (mail.read rawMail).answer with
  | panicked => exact absurd hanswer hcalm
  | refused => rfl
  | value m =>
    rw [hagrees, hanswer] at h
    cases h

theorem handleMail_decoded (hlength : rawMail.length < capacityLimit) {m : Mail} {rest : Bytes}
    (h : mail.codec.decode rawMail = some (m, rest)) :
    handleMail host layout enc myName client rawMail =
      if rest ≠ [] then .panicked .assertEmpty
      else handleDecoded host layout enc myName client m := by
  obtain ⟨hcalm, hagrees⟩ := read_eq known_mail hlength
  unfold handleMail
  dsimp only
  cases hanswer : (mail.read rawMail).answer with
  | panicked => exact absurd hanswer hcalm
  | refused =>
    rw [hagrees, hanswer] at h
    cases h
  | value read =>
    rw [hagrees, hanswer] at h
    cases h
    rfl

/-- A mail that is decoded as a whole. -/
theorem handleMail_whole (hlength : rawMail.length < capacityLimit) {m : Mail}
    (h : mail.codec.decode rawMail = some (m, [])) :
    handleMail host layout enc myName client rawMail =
      handleDecoded host layout enc myName client m := by
  rw [handleMail_decoded hlength h, if_neg (not_not.mpr rfl)]

theorem not_requests {m : Mail} {rest : Bytes} (h : mail.codec.decode rawMail = some (m, rest))
    (hm : ∀ cp payload, m ≠ .hardenedJoinRequest cp payload) (request : JoinRequest) :
    ¬ Requests layout enc rawMail request := by
  rintro ⟨cp, payload, rest, hjoin, -⟩
  cases h.symm.trans hjoin
  exact hm cp payload rfl

theorem not_writes {m : Mail} {rest : Bytes} (h : mail.codec.decode rawMail = some (m, rest))
    (hm : ∀ nonce hash content, m ≠ .hardenedChatMessage nonce hash content) (decrypted : Bytes) :
    ¬ Writes s host client.vault rawMail decrypted := by
  rintro ⟨nonce, hash, content, rest, _, _, hmessage, -⟩
  cases h.symm.trans hmessage
  exact hm nonce hash content rfl

/-- Only a join request asks for more than to return. -/
theorem handles_iff_returns (hrequests : ∀ request, ¬ Requests layout enc rawMail request) :
    Handles host layout enc myName client rawMail ↔
      (handleMail host layout enc myName client rawMail).Returns := by
  constructor
  · exact fun hhandles => hhandles.returns
  · exact fun hreturns => ⟨hreturns, fun request h => absurd h (hrequests request)⟩

/-- A mail that is decoded as a whole and is no join request. -/
theorem wellBehaved_iff_readable {m : Mail} (h : mail.codec.decode rawMail = some (m, []))
    (hrequests : ∀ request, ¬ Requests layout enc rawMail request) :
    WellBehaved host layout enc client rawMail ↔
      ∀ decrypted, Writes s host client.vault rawMail decrypted →
        ∃ content, fromUtf8 decrypted = some content := by
  constructor
  · exact fun hwell => hwell.readable
  · intro hreadable
    refine ⟨fun other rest hother => ?_, fun request hr => absurd hr (hrequests request), hreadable⟩
    cases h.symm.trans hother
    rfl

theorem handles_iff_of_refused (hlength : rawMail.length < capacityLimit)
    (h : mail.codec.decode rawMail = none) :
    Handles host layout enc myName client rawMail ↔
      WellBehaved host layout enc client rawMail := by
  have hrequests (request : JoinRequest) : ¬ Requests layout enc rawMail request := by
    rintro ⟨cp, payload, rest, hjoin, -⟩
    cases h.symm.trans hjoin
  rw [handles_iff_returns hrequests, handleMail_refused hlength h]
  refine iff_of_true (returns_done _ client) ⟨?_, ?_, ?_⟩
  · intro m rest hm
    cases h.symm.trans hm
  · exact fun request hr => absurd hr (hrequests request)
  · rintro decrypted ⟨nonce, hash, content, rest, chat, sender, hmessage, -⟩
    cases h.symm.trans hmessage

theorem handles_iff_of_quiet {m : Mail} (hlength : rawMail.length < capacityLimit)
    (h : mail.codec.decode rawMail = some (m, []))
    (hjoin : ∀ cp payload, m ≠ .hardenedJoinRequest cp payload)
    (hmessage : ∀ nonce hash content, m ≠ .hardenedChatMessage nonce hash content)
    (hreturns : (handleDecoded host layout enc myName client m).Returns) :
    Handles host layout enc myName client rawMail ↔
      WellBehaved host layout enc client rawMail := by
  rw [handles_iff_returns (not_requests h hjoin), wellBehaved_iff_readable h (not_requests h hjoin),
    handleMail_whole hlength h]
  refine iff_of_true hreturns fun decrypted hwrites => ?_
  exact absurd hwrites (not_writes h hmessage decrypted)

theorem handles_iff_of_message (hlength : rawMail.length < capacityLimit) {nonce : Nonce}
    {hash : Sized 32} {content : Bytes}
    (h : mail.codec.decode rawMail = some (.hardenedChatMessage nonce hash content, [])) :
    Handles host layout enc myName client rawMail ↔
      WellBehaved host layout enc client rawMail := by
  have hrequests (request : JoinRequest) : ¬ Requests layout enc rawMail request :=
    not_requests h (by rintro _ _ ⟨⟩) request
  rw [handles_iff_returns hrequests, wellBehaved_iff_readable h hrequests,
    handleMail_whole hlength h]
  change (handleHardenedChatMessage s host myName client nonce hash content).Returns ↔ _
  rw [returns_handleHardenedChatMessage_iff]
  constructor
  · rintro hreadable decrypted ⟨_, _, _, rest, chat, sender, hmessage, hchat, hsender⟩
    cases h.symm.trans hmessage
    exact hreadable chat sender decrypted hchat hsender
  · intro hreadable chat sender decrypted hchat hsender
    exact hreadable decrypted ⟨nonce, hash, content, [], chat, sender, h, hchat, hsender⟩

theorem handles_iff_of_request (hlength : rawMail.length < capacityLimit) {cp : Sized cs}
    {payload : Sized joinSize}
    (h : mail.codec.decode rawMail = some (.hardenedJoinRequest cp payload, [])) :
    Handles host layout enc myName client rawMail ↔
      WellBehaved host layout enc client rawMail := by
  have hwhole : handleMail host layout enc myName client rawMail =
      handleHardenedJoinRequest layout enc client cp payload := handleMail_whole hlength h
  have hwrites (decrypted : Bytes) : ¬ Writes s host client.vault rawMail decrypted :=
    not_writes h (by rintro _ _ _ ⟨⟩) decrypted
  have hopens (request : JoinRequest) : Requests layout enc rawMail request ↔
      openJoinRequest layout enc cp payload = .ok request := by
    constructor
    · rintro ⟨_, _, rest, hjoin, hopened⟩
      cases h.symm.trans hjoin
      exact hopened
    · exact fun hopened => ⟨cp, payload, [], h, hopened⟩
  cases hopened : openJoinRequest layout enc cp payload with
  | error msg =>
    have hrequests (request : JoinRequest) : ¬ Requests layout enc rawMail request := by
      rw [hopens, hopened]
      rintro ⟨⟩
    rw [handles_iff_returns hrequests, wellBehaved_iff_readable h hrequests, hwhole]
    refine iff_of_true ?_ fun decrypted hw => absurd hw (hwrites decrypted)
    rw [handleHardenedJoinRequest_error hopened]
    exact returns_done _ client
  | ok request =>
    have hhandled := @handleHardenedJoinRequest_ok s layout enc client cp payload request hopened
    have hrequest : Requests layout enc rawMail request := (hopens request).mpr hopened
    constructor
    · rintro ⟨hreturns, hjoins⟩
      rw [hwhole] at hreturns hjoins
      have hknown := hhandled.mp ⟨hreturns, hjoins request hrequest⟩
      refine ⟨fun m rest hm => ?_, fun other hother => ?_, fun decrypted hw => ?_⟩
      · cases h.symm.trans hm
        rfl
      · cases hopened.symm.trans ((hopens other).mp hother)
        exact hknown
      · exact absurd hw (hwrites decrypted)
    · intro hwell
      obtain ⟨hreturns, hjoins⟩ := hhandled.mpr (hwell.known request hrequest)
      refine ⟨?_, fun other hother => ?_⟩
      · rw [hwhole]
        exact hreturns
      · cases hopened.symm.trans ((hopens other).mp hother)
        rw [hwhole]
        exact hjoins

/-- Bytes after a mail, a join request for a chat that is not hardened and a message that
is no text crash the client, and who asks to join a hardened chat is refused where no other
chat has its name. -/
theorem handles_iff (hs : InPlace s) (hlength : rawMail.length < capacityLimit) :
    Handles host layout enc myName client rawMail ↔
      WellBehaved host layout enc client rawMail := by
  cases hdecoded : mail.codec.decode rawMail with
  | none => exact handles_iff_of_refused hlength hdecoded
  | some decoded =>
    obtain ⟨m, rest⟩ := decoded
    by_cases hrest : rest = []
    · subst hrest
      cases m with
      | chatInvite chat cp =>
        exact handles_iff_of_quiet hlength hdecoded (by rintro _ _ ⟨⟩) (by rintro _ _ _ ⟨⟩)
          (returns_handleChatInvite chat cp)
      | hardenedJoinRequest cp payload => exact handles_iff_of_request hlength hdecoded
      | hardenedChatMessage nonce hash content => exact handles_iff_of_message hlength hdecoded
      | hardenedChatInvite cp payload =>
        have hpayload := length_payload_lt hlength hdecoded
        exact handles_iff_of_quiet hlength hdecoded (by rintro _ _ ⟨⟩) (by rintro _ _ _ ⟨⟩)
          (returns_handleHardenedChatInvite hs cp hpayload)
    · refine iff_of_false (fun hhandles => ?_) fun hwell => hrest (hwell.whole m rest hdecoded)
      have hreturns := hhandles.returns
      rw [handleMail_decoded hlength hdecoded, if_pos hrest] at hreturns
      exact not_returns_panicked .assertEmpty hreturns

end Proofs

section Example

/-- An encrypted array as its parts follow each other. -/
def payloadOf (size : ℕ) (bytes : Sized (size + tagSize + nonceSize)) : FixedAesPayload size :=
  let (rest, nonce) := split (size + tagSize) bytes
  let (data, tag) := split size rest
  ⟨data, tag, nonce⟩

def sampleLayout : Layout where
  choosenCiphertext bytes :=
    let (pl, cp) := split (32 + tagSize + nonceSize) bytes
    ⟨payloadOf 32 pl, .fromBytes cp⟩
  joinRequest bytes := payloadOf 96 bytes
  joinRequestPayload bytes :=
    let (names, identity) := @split 64 32 bytes
    let (name, chat) := @split 32 32 names
    ⟨name, chat, identity⟩

theorem length_zeros : (List.replicate 32 (0 : UInt8)).length = 32 := List.length_replicate

def sampleHost : Host := ⟨fun _ => ⟨List.replicate 32 0, length_zeros⟩, true⟩

theorem inPlace_maskSuite : InPlace maskSuite := by
  intro key nonce data tag plain h
  change (if tag = keyTag key then some (mask key data) else none) = some plain at h
  split_ifs at h
  cases h
  exact List.length_map _

theorem utf8ByteSize_a : "a".utf8ByteSize ≤ (32 : UInt64).toNat := by decide

def sampleName : ArrayString 32 := ⟨"a", utf8ByteSize_a⟩

def sampleRaw : Sized 32 := join (repeated 1 97) (repeated 31 0xff)

theorem arrayToArrstr_sampleRaw : arrayToArrstr sampleRaw = some sampleName := by
  have hbytes : asBytes sampleName.val = [97] := by decide
  apply arrayToArrstr_eq
  rw [hbytes]
  decide +kernel

theorem length_samplePayload :
    (sampleRaw.val ++ sampleRaw.val ++ List.replicate 60 0).length = joinSize := rfl

/-- A request of `a` to join the chat `a`, under a key of zeros. -/
def samplePayload : Sized joinSize :=
  ⟨sampleRaw.val ++ sampleRaw.val ++ List.replicate 60 0, length_samplePayload⟩

def sampleRequest : JoinRequest := ⟨sampleName, sampleName, repeated 32 0, repeated 32 0⟩

theorem openJoinRequest_sample :
    openJoinRequest sampleLayout (maskPair 0) (repeated cs 0) samplePayload =
      .ok sampleRequest := by
  have hsecret : (maskPair 0).decapsulate (.fromBytes (repeated cs 0)) = some (repeated 32 0) := by
    decide +kernel
  have hplain : (sampleLayout.joinRequest samplePayload).decrypt maskSuite (repeated 32 0) =
      some (join (join sampleRaw sampleRaw) (repeated 32 0)) := by
    decide +kernel
  have hnames : sampleLayout.joinRequestPayload (join (join sampleRaw sampleRaw) (repeated 32 0)) =
      ⟨sampleRaw, sampleRaw, repeated 32 0⟩ := by
    simp only [sampleLayout, split_join]
  have hname : arrayToArrstr (sampleLayout.joinRequestPayload
      (join (join sampleRaw sampleRaw) (repeated 32 0))).name = some sampleName := by
    rw [hnames, arrayToArrstr_sampleRaw]
  have hchat : arrayToArrstr (sampleLayout.joinRequestPayload
      (join (join sampleRaw sampleRaw) (repeated 32 0))).chat = some sampleName := by
    rw [hnames, arrayToArrstr_sampleRaw]
  rw [openJoinRequest_ok hsecret hplain hchat hname, hnames]
  rfl

def sampleClient (chats : LinearMap ChatName ChatMeta)
    (hardenedChats : LinearMap ChatName HardenedChatMeta) : Client :=
  ⟨⟨chats, hardenedChats⟩, [], none, []⟩

def sampleChat : ChatMeta := ChatMeta.fromSecret (repeated 32 0)

/-- An invite with one more byte. -/
def longInvite : Bytes := mail.codec.toBytes (.chatInvite sampleName (repeated choosenCs 0)) ++ [0]

def joinMail : Bytes := mail.codec.toBytes (.hardenedJoinRequest (repeated cs 0) samplePayload)

theorem length_longInvite : longInvite.length < capacityLimit := by
  decide +kernel

theorem length_joinMail : joinMail.length < capacityLimit := by
  decide +kernel

theorem decode_longInvite :
    mail.codec.decode longInvite = some (.chatInvite sampleName (repeated choosenCs 0), [0]) :=
  decode_toBytes (i := 0) (sampleName, repeated choosenCs 0) everywhere_chatInvite trivial

theorem decode_joinMail :
    mail.codec.decode joinMail = some (.hardenedJoinRequest (repeated cs 0) samplePayload, []) := by
  have hdecoded : mail.codec.decode (joinMail ++ []) =
      some (.hardenedJoinRequest (repeated cs 0) samplePayload, []) :=
    decode_toBytes (i := 1) (repeated cs 0, samplePayload) everywhere_hardenedJoinRequest trivial
  rwa [List.append_nil] at hdecoded

theorem requests_joinMail : Requests sampleLayout (maskPair 0) joinMail sampleRequest :=
  ⟨repeated cs 0, samplePayload, [], decode_joinMail, openJoinRequest_sample⟩

/-- A byte too many and a request for a normal chat panic, and a request for a hardened chat
is refused. -/
theorem handleMail_crashes :
    ¬ Handles sampleHost sampleLayout (maskPair 0) sampleName (sampleClient [] []) longInvite ∧
    handleMail sampleHost sampleLayout (maskPair 0) sampleName (sampleClient [] []) longInvite =
      .panicked .assertEmpty ∧
    handleMail sampleHost sampleLayout (maskPair 0) sampleName
      (sampleClient [(sampleName, sampleChat)] []) joinMail =
        .panicked (.expect "we just checked") ∧
    Requests sampleLayout (maskPair 0) joinMail sampleRequest ∧
    handleMail sampleHost sampleLayout (maskPair 0) sampleName
      (sampleClient [] [(sampleRequest.chat, ⟨[]⟩)]) joinMail =
      .done (.error "request to join chat we dont have")
        (sampleClient [] [(sampleRequest.chat, ⟨[]⟩)]) := by
  have hcrash : handleMail sampleHost sampleLayout (maskPair 0) sampleName (sampleClient [] [])
      longInvite = .panicked .assertEmpty := by
    rw [handleMail_decoded length_longInvite decode_longInvite, if_pos (by decide)]
  refine ⟨fun hhandles => ?_, hcrash, ?_, requests_joinMail, ?_⟩
  · have hreturns := hhandles.returns
    rw [hcrash] at hreturns
    exact not_returns_panicked .assertEmpty hreturns
  · rw [handleMail_whole length_joinMail decode_joinMail]
    dsimp only [handleDecoded, handleHardenedJoinRequest]
    rw [openJoinRequest_sample]
    rfl
  · rw [handleMail_whole length_joinMail decode_joinMail]
    dsimp only [handleDecoded, handleHardenedJoinRequest]
    rw [openJoinRequest_sample]
    rfl

/-- A message for a chat the client is not in. -/
def strayMessage : Bytes := 2 :: 0 :: List.replicate 32 0

theorem handles_iff_stray :
    Handles sampleHost sampleLayout (maskPair 0) sampleName (sampleClient [] []) strayMessage ↔
      WellBehaved sampleHost sampleLayout (maskPair 0) (sampleClient [] []) strayMessage :=
  handles_iff inPlace_maskSuite (by decide)

end Example

end OrionNetwork.ClientMail
