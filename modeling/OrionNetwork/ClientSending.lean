import OrionNetwork.FixedNames

/-!
# Mail that clients write

The other side of the mail of the client. An invite to a normal chat carries the secret of the
chat, under a key that is new. An invite to a hardened chat names the members, and who accepts it
asks each of them to be added. A message to a hardened chat is written once for each member.
Random bytes are given by the caller. What an array is transmuted to can be transmuted back.
-/
namespace OrionNetwork.ClientSending
open Codec CodecReads BlockHash ChatReplica ChatDispatch Proofs Collections Onion ClientMail

variable {s : Suite}

section Sealing

/-- The tag and the nonce are put behind the data. -/
def encrypt (s : Suite) (data : Bytes) (secret : SharedSecret) (nonce : Sized nonceSize) : Bytes :=
  let (data, tag) := s.encrypt secret nonce data
  data ++ (join tag nonce).val

/-- What is encrypted in place is still an array. -/
def sameSize {size : ℕ} (data : Bytes) : Sized size := ⟨data.takeD size 0, data.takeD_length size 0⟩

def newPayload {size : ℕ} (s : Suite) (data : Sized size) (key : SharedSecret)
    (nonce : Sized nonceSize) : FixedAesPayload size :=
  let (data, tag) := s.encrypt key nonce data.val
  ⟨sameSize data, tag, nonce⟩

def encapsulateChoosen (enc : KeyPair s) (publicKey : PublicKey) (secret : SharedSecret)
    (coins : Coins) : ChoosenCiphertext :=
  let (cp, key) := enc.encapsulate publicKey coins.seed
  ⟨newPayload s secret key coins.nonce, cp⟩

theorem sameSize_of_length {size : ℕ} {data : Bytes} (h : data.length = size) :
    (sameSize data : Sized size).val = data := by
  subst h
  have htake := List.takeD_eq_take (0 : UInt8) (Nat.le_refl data.length)
  exact htake.trans List.take_length

variable (hs : s.Lawful)

include hs

theorem decrypt_encrypt (data : Bytes) (secret : SharedSecret) (nonce : Sized nonceSize) :
    decrypt s (encrypt s data secret nonce) secret = some data := by
  unfold decrypt encrypt
  dsimp only
  rw [if_neg, splitTail_append]
  · simp only [Option.bind_eq_bind, Option.bind_some, split_join, hs.decrypt_encrypt]
  · have htail : (join (s.encrypt secret nonce data).2 nonce).val.length = tagSize + nonceSize :=
      (join (s.encrypt secret nonce data).2 nonce).property
    rw [List.length_append, htail]
    omega

theorem decrypt_newPayload {size : ℕ} (data : Sized size) (key : SharedSecret)
    (nonce : Sized nonceSize) : (newPayload s data key nonce).decrypt s key = some data := by
  have hsame : (sameSize (s.encrypt key nonce data.val).1 : Sized size).val =
      (s.encrypt key nonce data.val).1 :=
    sameSize_of_length ((hs.length_encrypt key nonce data.val).trans data.property)
  unfold FixedAesPayload.decrypt newPayload
  dsimp only
  rw [hsame, hs.decrypt_encrypt]
  exact dif_pos data.property

theorem decapsulateChoosen_encapsulateChoosen (enc node : KeyPair s) (secret : SharedSecret)
    (coins : Coins) :
    decapsulateChoosen node (encapsulateChoosen enc node.publicKey secret coins) =
      some secret := by
  unfold decapsulateChoosen encapsulateChoosen
  dsimp only
  rw [KeyPair.decapsulate_encapsulate hs, Option.bind_some, decrypt_newPayload hs]

end Sealing

section Writing

variable {layout : Layout}

/-- What the arrays of a mail are transmuted from. -/
structure Transmuted (layout : Layout) where
  choosenCiphertext : ChoosenCiphertext → Sized choosenCs
  joinRequest : FixedAesPayload 96 → Sized joinSize
  joinRequestPayload : JoinRequestPayload → Sized 96
  choosenCiphertext_back : ∀ cp, layout.choosenCiphertext (choosenCiphertext cp) = cp
  joinRequest_back : ∀ payload, layout.joinRequest (joinRequest payload) = payload
  joinRequestPayload_back : ∀ payload,
    layout.joinRequestPayload (joinRequestPayload payload) = payload

/-- The end of `add_normal_user`. -/
def chatInvite (t : Transmuted layout) (enc : KeyPair s) (userData : PublicKey) (chat : ChatName)
    (secret : SharedSecret) (coins : Coins) : Bytes :=
  mail.codec.toBytes
    (.chatInvite chat (t.choosenCiphertext (encapsulateChoosen enc userData secret coins)))

/-- The end of `add_hardened_user`, with the secret that the new member is to have. -/
def hardenedInvite (enc : KeyPair s) (userData : PublicKey) (payload : HardenedChatInvitePayload)
    (coins : Coins) : Bytes × SharedSecret :=
  let (cp, secret) := enc.encapsulate userData coins.seed
  let payload := encrypt s (hardenedChatInvitePayload.codec.toBytes payload) secret coins.nonce
  (mail.codec.toBytes (.hardenedChatInvite cp.intoBytes payload), secret)

/-- `notify_about_invite`. The name in the request is that of the member who is notified. -/
def notifyAboutInvite (t : Transmuted layout) (name : UserName) (chat : ChatName) (enc : KeyPair s)
    (identity : Sized 32) (userData : PublicKey) (coins : Coins) : Bytes × SharedSecret :=
  let (cp, secret) := enc.encapsulate userData coins.seed
  let payload := t.joinRequestPayload
    ⟨FixedNames.arrstrToArray name, FixedNames.arrstrToArray chat, identity⟩
  (mail.codec.toBytes (.hardenedJoinRequest cp.intoBytes
    (t.joinRequest (newPayload s payload secret coins.nonce))), secret)

def withNonce (host : Host) (data : Bytes) (nonce : Nonce) : Hash :=
  host.blake3 (data ++ toBeBytes nonce)

/-- `send_hardened_message` for one member. -/
def hardenedMessage (s : Suite) (host : Host) (chat : ChatName) (content : String)
    (secret : SharedSecret) (nonce : Nonce) (aesNonce : Sized nonceSize) : Bytes :=
  let hash := withNonce host (asBytes chat.val) nonce
  mail.codec.toBytes (.hardenedChatMessage nonce ⟨hash.bytes, hash.size⟩
    (encrypt s (asBytes content) secret aesNonce))

/-- What the task works on that is spawned for an invite to a hardened chat. -/
def invitation (enc : KeyPair s) (rawMail : Bytes) :
    Option (HardenedChatInvitePayload × SharedSecret) :=
  match (mail.read rawMail).answer with
  | .value (.hardenedChatInvite cp payload) =>
    (enc.decapsulate (.fromBytes cp)).bind fun secret =>
      (decrypt s payload secret).bind fun payload =>
        match (hardenedChatInvitePayload.read payload).answer with
        | .value invite => some (invite, secret)
        | _ => none
  | _ => none

def rawChatMessage : Codec (UserName × Str) := .pair (.arrayString 32) .str

/-- The secrets in a vault are arrays. -/
def chatSecret (vault : Vault) (chat : ChatName) : Option SharedSecret :=
  (vault.chats.get chat).bind fun chat =>
    if h : chat.secret.length = 32 then some ⟨chat.secret, h⟩ else none

/-- The content that `send_normal_message` has added to the chat. -/
def sendNormalMessage (s : Suite) (vault : Vault) (myName : UserName) (chat : ChatName)
    (content : Str) (nonce : Sized nonceSize) : Option Bytes :=
  (chatSecret vault chat).map fun secret =>
    encrypt s (rawChatMessage.toBytes (myName, content)) secret nonce

/-- How a message that is fetched or pushed is shown, if at all. -/
def readNormalMessage (s : Suite) (vault : Vault) (chat : ChatName) (message : Bytes) :
    Option (UserName × Str) := do
  let secret ← chatSecret vault chat
  let decrypted ← decrypt s message secret
  let (message, _) ← rawChatMessage.decode decrypted
  return message

/-- The end of `add_hardened_user`. A chat that is gone panics. -/
def addMember (vault : Vault) (chat : ChatName) (name : UserName) (member : MemberMeta) :
    Option Vault :=
  (vault.hardenedChats.get chat).map fun details =>
    let members := details.members.insert name member
    { vault with hardenedChats := vault.hardenedChats.insert chat ⟨members⟩ }

/-- What a task that has notified all members does with their keys and that of the inviter. -/
def joinChat (vault : Vault) (invite : HardenedChatInvitePayload) (secret : SharedSecret)
    (members : List (UserName × MemberMeta)) : Vault :=
  let details := (vault.hardenedChats.get invite.chat).getD ⟨[]⟩
  let joined := members.foldl (fun joined e => joined.insert e.1 e.2) details.members
  let joined := joined.insert invite.inviter ⟨secret, invite.inviterId⟩
  { vault with hardenedChats := vault.hardenedChats.insert invite.chat ⟨joined⟩ }

end Writing

section Handling

variable {layout : Layout} {t : Transmuted layout} {host : Host} {enc node : KeyPair s}
  {myName : UserName} {client : Client} {chat : ChatName} {coins : Coins}

theorem decode_mail {i : Fin 4} (v : MailFields i) {R : Bytes → Prop}
    (hfields : RoundTrips R (mailFields i).codec) (hrest : R []) :
    mail.codec.decode (mail.codec.toBytes (Mail.build ⟨i, v⟩)) = some (Mail.build ⟨i, v⟩, []) := by
  have hdecoded := decode_toBytes v hfields hrest
  rwa [List.append_nil] at hdecoded

theorem roundTrips_hardenedChatMessage : RoundTrips (· = []) (mailFields 2).codec :=
  roundTrips_pair (roundTrips_int fun _ => rfl) (roundTrips_pair (everywhere_bytes 32)
    roundTrips_reminder)

theorem roundTrips_hardenedChatInvite : RoundTrips (· = []) (mailFields 3).codec :=
  roundTrips_pair (everywhere_bytes cs) roundTrips_reminder

theorem one_le_length_arrayString (cap : UInt64) (v : ArrayString cap) :
    1 ≤ ((Codec.arrayString cap).toBytes v).length := by
  have hlen : ((Codec.arrayString cap).toBytes v) =
      base128Encode (UInt64.ofNat v.val.utf8ByteSize) ++ asBytes v.val := by
    have husize := toBytes_int id id (UInt64.ofNat v.val.utf8ByteSize)
    unfold toBytes at husize ⊢
    unfold Codec.arrayString
    rw [List.flatten_append, List.flatten_singleton]
    exact congrArg (· ++ asBytes v.val) husize
  have hdigit : 1 ≤ (base128Encode (UInt64.ofNat v.val.utf8ByteSize)).length := by
    unfold base128Encode base128Loop
    split_ifs
    · exact Nat.le_refl 1
    · rw [List.length_cons]
      exact Nat.le_add_left 1 _
  rw [hlen, List.length_append]
  exact Nat.le_add_right_of_le hdigit

theorem roundTrips_fields {α β : Type} {fields : α → β} {build : β → α} {c : Decoder β}
    {R : Bytes → Prop} (hc : RoundTrips R c.codec) (hback : ∀ v, build (fields v) = v) :
    RoundTrips R (Decoder.struct fields build c).codec := by
  intro v rest hrest
  have hfields := hc (fields v) rest hrest
  change (c.codec.decode (c.codec.toBytes (fields v) ++ rest)).bind
    (fun r => some (build r.1, r.2)) = some (v, rest)
  rw [hfields, Option.bind_some, hback]

theorem everywhere_hardenedChatInvitePayload : Everywhere hardenedChatInvitePayload.codec := by
  have hmembers : Everywhere (Decoder.vec (Decoder.arrayString 32)).codec :=
    roundTrips_vec (roundTrips_arrayString 32) (one_le_length_arrayString 32)
  refine roundTrips_fields (roundTrips_pair (roundTrips_arrayString 32)
    (roundTrips_pair (roundTrips_arrayString 32) (roundTrips_pair (everywhere_bytes 32) hmembers)))
    fun payload => ?_
  rfl

theorem answer_of_decode {α : Type} {d : Decoder α} (hd : Known false false d)
    {buffer rest : Bytes} {v : α} (hlength : buffer.length < capacityLimit)
    (h : d.codec.decode buffer = some (v, rest)) : (d.read buffer).answer = .value v := by
  obtain ⟨hcalm, hagrees⟩ := read_eq hd hlength
  rw [hagrees] at h
  cases hanswer : (d.read buffer).answer with
  | panicked => exact absurd hanswer hcalm
  | refused =>
    rw [hanswer] at h
    cases h
  | value read =>
    rw [hanswer] at h
    cases h
    rfl

theorem invitation_eq_none {rawMail rest : Bytes} {m : Mail}
    (hlength : rawMail.length < capacityLimit)
    (h : mail.codec.decode rawMail = some (m, rest))
    (hm : ∀ cp payload, m ≠ .hardenedChatInvite cp payload) : invitation enc rawMail = none := by
  unfold invitation
  rw [answer_of_decode known_mail hlength h]
  cases m with
  | hardenedChatInvite cp payload => exact absurd rfl (hm cp payload)
  | chatInvite | hardenedJoinRequest | hardenedChatMessage => rfl

theorem decode_chatInvite (userData : PublicKey) (secret : SharedSecret) :
    mail.codec.decode (chatInvite t enc userData chat secret coins) = some (.chatInvite chat
      (t.choosenCiphertext (encapsulateChoosen enc userData secret coins)), []) :=
  decode_mail (i := 0) (chat, _) everywhere_chatInvite trivial

theorem decode_notifyAboutInvite (name : UserName) (identity : Sized 32) (userData : PublicKey) :
    mail.codec.decode (notifyAboutInvite t name chat enc identity userData coins).1 =
      some (.hardenedJoinRequest (enc.encapsulate userData coins.seed).1.intoBytes
        (t.joinRequest (newPayload s (t.joinRequestPayload ⟨FixedNames.arrstrToArray name,
          FixedNames.arrstrToArray chat, identity⟩) (enc.encapsulate userData coins.seed).2
            coins.nonce)), []) :=
  decode_mail (i := 1) (_, _) everywhere_hardenedJoinRequest trivial

theorem decode_hardenedMessage (content : String) (secret : SharedSecret) (nonce : Nonce)
    (aesNonce : Sized nonceSize) :
    mail.codec.decode (hardenedMessage s host chat content secret nonce aesNonce) =
      some (.hardenedChatMessage nonce ⟨(withNonce host (asBytes chat.val) nonce).bytes,
        (withNonce host (asBytes chat.val) nonce).size⟩
          (encrypt s (asBytes content) secret aesNonce), []) :=
  decode_mail (i := 2) (nonce, _, _) roundTrips_hardenedChatMessage rfl

theorem decode_hardenedInvite (userData : PublicKey) (payload : HardenedChatInvitePayload) :
    mail.codec.decode (hardenedInvite enc userData payload coins).1 =
      some (.hardenedChatInvite (enc.encapsulate userData coins.seed).1.intoBytes
        (encrypt s (hardenedChatInvitePayload.codec.toBytes payload)
          (enc.encapsulate userData coins.seed).2 coins.nonce), []) :=
  decode_mail (i := 3) (_, _) roundTrips_hardenedChatInvite rfl

theorem handleMail_hardenedMessage (content : String) (secret : SharedSecret) (nonce : Nonce)
    (aesNonce : Sized nonceSize)
    (hlength : (hardenedMessage s host chat content secret nonce aesNonce).length <
      capacityLimit) :
    handleMail host layout node myName client
        (hardenedMessage s host chat content secret nonce aesNonce) =
      handleHardenedChatMessage s host myName client nonce
        ⟨(withNonce host (asBytes chat.val) nonce).bytes,
          (withNonce host (asBytes chat.val) nonce).size⟩
        (encrypt s (asBytes content) secret aesNonce) :=
  handleMail_whole hlength (decode_hardenedMessage content secret nonce aesNonce)

/-- A message is shown if a member of a chat that the hash fits has the secret, and changes
nothing else. -/
theorem handleHardenedChatMessage_done {nonce : Nonce} {hash : Sized 32} {content : Bytes}
    {result : Except String Unit} {after : Client}
    (h : handleHardenedChatMessage s host myName client nonce hash content = .done result after) :
    after.vault = client.vault ∧ (after.newMessages = client.newMessages ∨
      ∃ details sender decrypted text, findChat host client.vault nonce hash = some details ∧
        findSender s details.2 content = some (sender, decrypted) ∧
        fromUtf8 decrypted = some text ∧
        after.newMessages = client.newMessages ++ [⟨sender, myName, text, details.1⟩]) := by
  unfold handleHardenedChatMessage at h
  cases hfound : findChat host client.vault nonce hash with
  | none =>
    rw [hfound] at h
    cases h
    exact ⟨rfl, .inl rfl⟩
  | some details =>
    rw [hfound] at h
    dsimp only at h
    cases hsender : findSender s details.2 content with
    | none =>
      rw [hsender] at h
      cases h
      exact ⟨rfl, .inl rfl⟩
    | some opened =>
      rw [hsender] at h
      dsimp only at h
      cases htext : fromUtf8 opened.2 with
      | none =>
        rw [htext] at h
        cases h
      | some text =>
        rw [htext] at h
        cases h
        exact ⟨rfl, .inr ⟨details, opened.1, opened.2, text, rfl, hsender, htext, rfl⟩⟩

variable (hs : s.Lawful)

include hs

theorem handleMail_chatInvite (secret : SharedSecret)
    (hlength : (chatInvite t enc node.publicKey chat secret coins).length < capacityLimit) :
    handleMail host layout node myName client
        (chatInvite t enc node.publicKey chat secret coins) =
      .done (.ok ()) (client.updateVault fun v =>
        { v with chats := v.chats.insert chat (ClientMail.ChatMeta.fromSecret secret) }) := by
  refine (handleMail_whole hlength (decode_chatInvite node.publicKey secret)).trans ?_
  change handleChatInvite layout node client chat
    (t.choosenCiphertext (encapsulateChoosen enc node.publicKey secret coins)) = _
  unfold handleChatInvite
  rw [t.choosenCiphertext_back, decapsulateChoosen_encapsulateChoosen hs]

theorem length_payload_le (payload : HardenedChatInvitePayload) :
    (hardenedChatInvitePayload.codec.toBytes payload).length ≤
      (hardenedInvite enc node.publicKey payload coins).1.length := by
  have hmail := toBytes_build 3 ((enc.encapsulate node.publicKey coins.seed).1.intoBytes,
    encrypt s (hardenedChatInvitePayload.codec.toBytes payload)
      (enc.encapsulate node.publicKey coins.seed).2 coins.nonce)
  have hbytes : (hardenedInvite enc node.publicKey payload coins).1 = _ := hmail
  have hfields := toBytes_pair (bytes cs).codec Codec.reminder
    ((enc.encapsulate node.publicKey coins.seed).1.intoBytes,
      encrypt s (hardenedChatInvitePayload.codec.toBytes payload)
        (enc.encapsulate node.publicKey coins.seed).2 coins.nonce)
  have hreminder (data : Bytes) : Codec.reminder.toBytes data = data := List.flatten_singleton
  rw [hreminder] at hfields
  have hlength := hs.length_encrypt (enc.encapsulate node.publicKey coins.seed).2 coins.nonce
    (hardenedChatInvitePayload.codec.toBytes payload)
  rw [hbytes, List.length_cons]
  change _ ≤ (toBytes (Codec.pair (bytes cs).codec Codec.reminder) _).length + 1
  rw [hfields]
  unfold encrypt
  dsimp only
  rw [List.length_append, List.length_append, hlength]
  omega

theorem read_payload (payload : HardenedChatInvitePayload)
    (hlength : (hardenedInvite enc node.publicKey payload coins).1.length < capacityLimit) :
    (hardenedChatInvitePayload.read (hardenedChatInvitePayload.codec.toBytes payload)).answer =
      .value payload := by
  have hdecoded := everywhere_hardenedChatInvitePayload payload [] trivial
  rw [List.append_nil] at hdecoded
  exact answer_of_decode known_hardenedChatInvitePayload
    (lt_of_le_of_lt (length_payload_le hs payload) hlength) hdecoded

theorem handleMail_hardenedInvite (payload : HardenedChatInvitePayload)
    (hlength : (hardenedInvite enc node.publicKey payload coins).1.length < capacityLimit) :
    handleMail host layout node myName client (hardenedInvite enc node.publicKey payload coins).1 =
      .done (.ok ()) { client with spawned := client.spawned ++ [payload] } := by
  refine (handleMail_whole hlength (decode_hardenedInvite node.publicKey payload)).trans ?_
  change handleHardenedChatInvite node client _ _ = _
  unfold handleHardenedChatInvite
  rw [Ciphertext.fromBytes_intoBytes, KeyPair.decapsulate_encapsulate hs]
  dsimp only
  rw [decrypt_encrypt hs]
  dsimp only
  rw [read_payload hs payload hlength]

theorem invitation_hardenedInvite (payload : HardenedChatInvitePayload)
    (hlength : (hardenedInvite enc node.publicKey payload coins).1.length < capacityLimit) :
    invitation node (hardenedInvite enc node.publicKey payload coins).1 =
      some (payload, (enc.encapsulate node.publicKey coins.seed).2) := by
  unfold invitation
  rw [answer_of_decode known_mail hlength (decode_hardenedInvite node.publicKey payload)]
  dsimp only
  rw [Ciphertext.fromBytes_intoBytes, KeyPair.decapsulate_encapsulate hs, Option.bind_some,
    decrypt_encrypt hs, Option.bind_some, read_payload hs payload hlength]

theorem openJoinRequest_notifyAboutInvite (name : UserName) (identity : Sized 32) :
    openJoinRequest layout node (enc.encapsulate node.publicKey coins.seed).1.intoBytes
        (t.joinRequest (newPayload s (t.joinRequestPayload ⟨FixedNames.arrstrToArray name,
          FixedNames.arrstrToArray chat, identity⟩)
            (enc.encapsulate node.publicKey coins.seed).2 coins.nonce)) =
      .ok ⟨chat, name, (enc.encapsulate node.publicKey coins.seed).2, identity⟩ := by
  have hsecret := KeyPair.decapsulate_encapsulate hs enc node coins.seed
  rw [← Ciphertext.fromBytes_intoBytes (enc.encapsulate node.publicKey coins.seed).1] at hsecret
  have hplain := decrypt_newPayload hs (t.joinRequestPayload ⟨FixedNames.arrstrToArray name,
    FixedNames.arrstrToArray chat, identity⟩) (enc.encapsulate node.publicKey coins.seed).2
      coins.nonce
  rw [← t.joinRequest_back (newPayload s _ _ coins.nonce)] at hplain
  have hname (text : ArrayString 32) :
      ClientMail.arrayToArrstr (FixedNames.arrstrToArray text) = some text :=
    (FixedNames.arrayToArrstr_client _).trans (FixedNames.arrayToArrstr_arrstrToArray text)
  have hopened := openJoinRequest_ok hsecret hplain
    (by rw [t.joinRequestPayload_back]; exact hname chat)
    (by rw [t.joinRequestPayload_back]; exact hname name)
  rwa [t.joinRequestPayload_back] at hopened

/-- A request is refused where no normal chat has the name of the chat. -/
theorem handleMail_notifyAboutInvite (name : UserName) (identity : Sized 32)
    (hlength : (notifyAboutInvite t name chat enc identity node.publicKey coins).1.length <
      capacityLimit) :
    handleMail host layout node myName client
        (notifyAboutInvite t name chat enc identity node.publicKey coins).1 =
      if chat ∉ client.vault.chats.keys then
        .done (.error "request to join chat we dont have") client
      else
        match addMember client.vault chat name
          ⟨(enc.encapsulate node.publicKey coins.seed).2, identity⟩ with
        | none => .panicked (.expect "we just checked")
        | some vault => .done (.ok ()) { client with vault := vault } := by
  have hopened : openJoinRequest layout node (enc.encapsulate node.publicKey coins.seed).1.intoBytes
      (t.joinRequest (newPayload s (t.joinRequestPayload ⟨FixedNames.arrstrToArray name,
        FixedNames.arrstrToArray chat, identity⟩)
          (enc.encapsulate node.publicKey coins.seed).2 coins.nonce)) = _ :=
    openJoinRequest_notifyAboutInvite hs name identity
  refine (handleMail_whole hlength
    (decode_notifyAboutInvite name identity node.publicKey)).trans ?_
  change handleHardenedJoinRequest layout node client _ _ = _
  unfold handleHardenedJoinRequest addMember
  rw [hopened]
  dsimp only
  split_ifs
  · cases client.vault.hardenedChats.get chat with
    | none => rfl
    | some details => rfl
  · rfl

theorem handleMail_notifyAboutInvite_done {name : UserName} {identity : Sized 32}
    {result : Except String Unit} {after : Client}
    (hlength : (notifyAboutInvite t name chat enc identity node.publicKey coins).1.length <
      capacityLimit)
    (hdone : handleMail host layout node myName client
      (notifyAboutInvite t name chat enc identity node.publicKey coins).1 = .done result after) :
    after = client ∨ ∃ vault, addMember client.vault chat name
      ⟨(enc.encapsulate node.publicKey coins.seed).2, identity⟩ = some vault ∧
        after = { client with vault := vault } := by
  rw [handleMail_notifyAboutInvite hs name identity hlength] at hdone
  by_cases hchat : chat ∈ client.vault.chats.keys
  · rw [if_neg (not_not.mpr hchat)] at hdone
    cases hvault : addMember client.vault chat name
        ⟨(enc.encapsulate node.publicKey coins.seed).2, identity⟩ with
    | none =>
      rw [hvault] at hdone
      cases hdone
    | some vault =>
      rw [hvault] at hdone
      cases hdone
      exact .inr ⟨vault, rfl, rfl⟩
  · rw [if_pos hchat] at hdone
    cases hdone
    exact .inl rfl

end Handling

end OrionNetwork.ClientSending
