import OrionNetwork.ClientSending
import OrionNetwork.Runs

/-!
# Clients that write to each other

Clients that all run the program create chats, invite each other and write messages. A mail that
was sent arrives any number of times, in any order, or never. A client waits for answers of the
servers, of the chain and of other tasks, and whatever can happen to it may happen in between. What
was sent is kept for good.
-/
namespace OrionNetwork.ClientWorld
open Codec CodecReads BlockHash ChatReplica ChatDispatch Proofs Collections Onion ClientMail
open ClientSending Runs

structure User (s : Suite) where
  name : UserName
  identity : Sized 32
  enc : KeyPair s

/-- The users and what they all rely on. An identity is the hash of a key. -/
structure Network (ι : Type) (s : Suite) where
  host : Host
  layout : Layout
  transmuted : Transmuted layout
  user : ι → User s
  lawful : s.Lawful
  identity_injective : Function.Injective fun i => (user i).identity

inductive Letter where
  | chatInvite (chat : ChatName) (secret : SharedSecret) (coins : Coins)
  | hardenedInvite (chat : ChatName) (members : Vec UserName) (coins : Coins)
  | joinRequest (chat : ChatName) (name : UserName) (coins : Coins)
  | hardenedMessage (chat : ChatName) (content : String) (secret : SharedSecret) (nonce : Nonce)
      (aesNonce : Sized nonceSize)

structure Sent (ι : Type) where
  sender : ι
  receiver : ι
  letter : Letter

/-- A task that answers an invite to a hardened chat, with the members notified so far. -/
structure Task where
  invite : HardenedChatInvitePayload
  secret : SharedSecret
  members : List (UserName × Option MemberMeta)

def Task.start (invitation : HardenedChatInvitePayload × SharedSecret) : Task :=
  ⟨invitation.1, invitation.2, invitation.1.members.val.map fun name => (name, none)⟩

/-- A client is `creating` a chat from the answer of the servers on, and `inviting` a member from
the mail on. -/
structure World (ι : Type) where
  client : ι → Client
  tasks : ι → List Task
  inviting : ι → List (ChatName × UserName × MemberMeta)
  creating : List (ι × ChatName)
  created : List ChatName
  sent : List (Sent ι)

inductive Event (ι : Type) where
  | requestChat (i : ι) (chat : ChatName)
  | createChat (i : ι) (chat : ChatName) (secret : SharedSecret)
  | act (i : ι) (chat : ChatName) (actionNo : Nonce)
  | createHardenedChat (i : ι) (chat : ChatName)
  | send (m : Sent ι)
  | addMember (i : ι) (chat : ChatName) (name : UserName)
  | receive (m : Sent ι)
  | joinChat (i : ι) (chat : ChatName)

def start : World ι := ⟨fun _ => ⟨⟨[], []⟩, [], none, []⟩, fun _ => [], fun _ => [], [], [], []⟩

variable {ι : Type} {s : Suite} (net : Network ι s)

def secretOf (i j : ι) (coins : Coins) : SharedSecret :=
  ((net.user i).enc.encapsulate (net.user j).enc.publicKey coins.seed).2

def Sent.bytes (m : Sent ι) : Bytes :=
  let sender := net.user m.sender
  let userData := (net.user m.receiver).enc.publicKey
  match m.letter with
  | .chatInvite chat secret coins =>
    chatInvite net.transmuted sender.enc userData chat secret coins
  | .hardenedInvite chat members coins =>
    (hardenedInvite sender.enc userData ⟨chat, sender.name, sender.identity, members⟩ coins).1
  | .joinRequest chat name coins =>
    (notifyAboutInvite net.transmuted name chat sender.enc sender.identity userData coins).1
  | .hardenedMessage chat content secret nonce aesNonce =>
    hardenedMessage s net.host chat content secret nonce aesNonce

/-- The chain finds a user by the raw name. -/
def Registered (name : UserName) (j : ι) : Prop :=
  FixedNames.usernameToRaw (net.user j).name = FixedNames.usernameToRaw name

section Steps

variable [DecidableEq ι]

def World.send (w : World ι) (m : Sent ι) : World ι := { w with sent := w.sent ++ [m] }

def World.setClient (w : World ι) (i : ι) (client : Client) : World ι :=
  { w with client := Function.update w.client i client }

def World.setVault (w : World ι) (i : ι) (vault : Vault) : World ι :=
  w.setClient i { w.client i with vault := vault }

def World.setChats (w : World ι) (i : ι) (chats : LinearMap ChatName ChatMeta) : World ι :=
  w.setVault i { (w.client i).vault with chats := chats }

def World.setHardenedChats (w : World ι) (i : ι) (chats : LinearMap ChatName HardenedChatMeta) :
    World ι :=
  w.setVault i { (w.client i).vault with hardenedChats := chats }

def World.setTasks (w : World ι) (i : ι) (tasks : List Task) : World ι :=
  { w with tasks := Function.update w.tasks i tasks }

def World.setInviting (w : World ι) (i : ι) (inviting : List (ChatName × UserName × MemberMeta)) :
    World ι :=
  { w with inviting := Function.update w.inviting i inviting }

inductive Step : World ι → Event ι → World ι → Prop where
  /-- The servers refuse a chat that exists. -/
  | requestChat {w : World ι} (i : ι) {chat : ChatName} (hnew : chat ∉ w.created) :
      Step w (.requestChat i chat)
        { w with creating := (i, chat) :: w.creating, created := chat :: w.created }
  | createChat {w : World ι} {i : ι} {chat : ChatName} (secret : SharedSecret)
      (hrequested : (i, chat) ∈ w.creating) :
      Step w (.createChat i chat secret)
        { w.setChats i ((w.client i).vault.chats.insert chat (ClientMail.ChatMeta.fromSecret secret)) with
          creating := w.creating.erase (i, chat) }
  /-- A proof for the chat uses up an action number. -/
  | act {w : World ι} {i : ι} {chat : ChatName} {entry : ChatMeta} (actionNo : Nonce)
      (hentry : (w.client i).vault.chats.get chat = some entry) :
      Step w (.act i chat actionNo)
        (w.setChats i
          ((w.client i).vault.chats.insert chat { entry with actionNo := actionNo }))
  | createHardenedChat {w : World ι} {i : ι} {chat : ChatName}
      (hnew : chat ∉ (w.client i).vault.hardenedChats.keys) :
      Step w (.createHardenedChat i chat)
        (w.setHardenedChats i ((w.client i).vault.hardenedChats.insert chat ⟨[]⟩))
  | invite {w : World ι} {i j : ι} {name : UserName} {chat : ChatName} {secret : SharedSecret}
      (coins : Coins) (hname : Registered net name j)
      (hsecret : chatSecret (w.client i).vault chat = some secret) :
      Step w (.send ⟨i, j, .chatInvite chat secret coins⟩)
        (w.send ⟨i, j, .chatInvite chat secret coins⟩)
  /-- The members were listed before the answers of the chain and the servers. -/
  | inviteHardened {w : World ι} {i j : ι} {name : UserName} {chat : ChatName}
      (members : Vec UserName) (coins : Coins) (hother : name ≠ (net.user i).name)
      (hname : Registered net name j) :
      Step w (.send ⟨i, j, .hardenedInvite chat members coins⟩)
        ((w.send ⟨i, j, .hardenedInvite chat members coins⟩).setInviting i
          (w.inviting i ++ [(chat, name, ⟨secretOf net i j coins, (net.user j).identity⟩)]))
  | addMember {w : World ι} {i : ι} {before later : List (ChatName × UserName × MemberMeta)}
      {chat : ChatName} {name : UserName} {member : MemberMeta} {vault : Vault}
      (hinviting : w.inviting i = before ++ (chat, name, member) :: later)
      (hvault : addMember (w.client i).vault chat name member = some vault) :
      Step w (.addMember i chat name) ((w.setVault i vault).setInviting i (before ++ later))
  /-- A mail is a vector of bytes. -/
  | receive {w : World ι} {m : Sent ι} {result : Except String Unit} {after : Client}
      (hsent : m ∈ w.sent) (hlength : (m.bytes net).length < capacityLimit)
      (hdone : handleMail net.host net.layout (net.user m.receiver).enc (net.user m.receiver).name
        (w.client m.receiver) (m.bytes net) = .done result after) :
      Step w (.receive m) ((w.setClient m.receiver after).setTasks m.receiver
        (w.tasks m.receiver ++
          (invitation (net.user m.receiver).enc (m.bytes net)).toList.map Task.start))
  | notify {w : World ι} {i j : ι} {before later : List Task} {task : Task}
      {notified rest : List (UserName × Option MemberMeta)} {name : UserName} (coins : Coins)
      (htasks : w.tasks i = before ++ task :: later)
      (hmembers : task.members = notified ++ (name, none) :: rest)
      (hname : Registered net name j) :
      Step w (.send ⟨i, j, .joinRequest task.invite.chat name coins⟩)
        ((w.send ⟨i, j, .joinRequest task.invite.chat name coins⟩).setTasks i
          (before ++ { task with members := notified ++ (name, some ⟨secretOf net i j coins,
            (net.user j).identity⟩) :: rest } :: later))
  | joinChat {w : World ι} {i : ι} {before later : List Task} {task : Task}
      {members : List (UserName × MemberMeta)} (htasks : w.tasks i = before ++ task :: later)
      (hmembers : task.members = members.map fun e => (e.1, some e.2)) :
      Step w (.joinChat i task.invite.chat)
        ((w.setVault i (joinChat (w.client i).vault task.invite task.secret members)).setTasks i
          (before ++ later))
  | message {w : World ι} {i j : ι} {chat : ChatName} {details : HardenedChatMeta}
      {name : UserName} {member : MemberMeta} (content : String) (nonce : Nonce)
      (aesNonce : Sized nonceSize)
      (hchat : (w.client i).vault.hardenedChats.get chat = some details)
      (hmember : (name, member) ∈ details.members)
      (hreceiver : member.identity = (net.user j).identity) :
      Step w (.send ⟨i, j, .hardenedMessage chat content member.secret nonce aesNonce⟩)
        (w.send ⟨i, j, .hardenedMessage chat content member.secret nonce aesNonce⟩)

end Steps

section Members

/-- How a client comes to have a member in a chat: it invited the member or asked it to be added,
or the member invited it or asked it to be added. -/
inductive Known (sent : List (Sent ι)) (i : ι) (chat : ChatName) (name : UserName) :
    MemberMeta → Prop where
  | invited {j : ι} {members : Vec UserName} {coins : Coins}
      (hsent : ⟨i, j, .hardenedInvite chat members coins⟩ ∈ sent) (hname : Registered net name j) :
      Known sent i chat name ⟨secretOf net i j coins, (net.user j).identity⟩
  | asked {j : ι} {coins : Coins} (hsent : ⟨i, j, .joinRequest chat name coins⟩ ∈ sent)
      (hname : Registered net name j) :
      Known sent i chat name ⟨secretOf net i j coins, (net.user j).identity⟩
  | inviter {j : ι} {members : Vec UserName} {coins : Coins}
      (hsent : ⟨j, i, .hardenedInvite chat members coins⟩ ∈ sent)
      (hname : name = (net.user j).name) :
      Known sent i chat name ⟨secretOf net j i coins, (net.user j).identity⟩
  | joiner {j : ι} {coins : Coins} (hsent : ⟨j, i, .joinRequest chat name coins⟩ ∈ sent)
      (hname : Registered net name i) :
      Known sent i chat name ⟨secretOf net j i coins, (net.user j).identity⟩

def Listed (sent : List (Sent ι)) (i : ι) (chat : ChatName)
    (members : LinearMap UserName MemberMeta) : Prop :=
  ∀ e ∈ members, Known net sent i chat e.1 e.2

structure Task.Known (sent : List (Sent ι)) (i : ι) (task : Task) : Prop where
  inviter : ClientWorld.Known net sent i task.invite.chat task.invite.inviter
    ⟨task.secret, task.invite.inviterId⟩
  members : ∀ name member, (name, some member) ∈ task.members →
    ClientWorld.Known net sent i task.invite.chat name member

/-- A message that is shown was sent, and the secret of its sender opens it. -/
def Opened (sent : List (Sent ι)) (j : ι) (msg : ClientMail.Message) : Prop :=
  msg.owner = (net.user j).name ∧ ∃ i chat content secret nonce aesNonce member decrypted,
    ⟨i, j, .hardenedMessage chat content secret nonce aesNonce⟩ ∈ sent ∧
    Known net sent j msg.chat msg.sender member ∧
    decrypt s (encrypt s (asBytes content) secret aesNonce) member.secret = some decrypted ∧
    fromUtf8 decrypted = some msg.content

structure Inv (w : World ι) : Prop where
  listed : ∀ i, ∀ e ∈ (w.client i).vault.hardenedChats, Listed net w.sent i e.1 e.2.members
  inviting : ∀ i, ∀ p ∈ w.inviting i, Known net w.sent i p.1 p.2.1 p.2.2
  tasks : ∀ i, ∀ task ∈ w.tasks i, task.Known net w.sent i
  requests : ∀ i j chat name coins, ⟨i, j, .joinRequest chat name coins⟩ ∈ w.sent →
    Registered net name j
  messages : ∀ i j chat content secret nonce aesNonce,
    ⟨i, j, .hardenedMessage chat content secret nonce aesNonce⟩ ∈ w.sent →
    ∃ name, Known net w.sent i chat name ⟨secret, (net.user j).identity⟩
  shown : ∀ j, ∀ msg ∈ (w.client j).newMessages, Opened net w.sent j msg

variable {net} {sent sent' : List (Sent ι)} {i : ι} {chat : ChatName} {name : UserName}
  {member : MemberMeta}

theorem Known.mono (h : Known net sent i chat name member) (hsub : sent ⊆ sent') :
    Known net sent' i chat name member := by
  cases h with
  | invited hsent hname => exact .invited (hsub hsent) hname
  | asked hsent hname => exact .asked (hsub hsent) hname
  | inviter hsent hname => exact .inviter (hsub hsent) hname
  | joiner hsent hname => exact .joiner (hsub hsent) hname

theorem Listed.insert {members : LinearMap UserName MemberMeta} (h : Listed net sent i chat members)
    (hmember : Known net sent i chat name member) :
    Listed net sent i chat (members.insert name member) := by
  intro e he
  rcases LinearMap.mem_of_mem_insert he with rfl | he
  · exact hmember
  · exact h e he

theorem Listed.foldl {members : LinearMap UserName MemberMeta} (h : Listed net sent i chat members)
    {more : List (UserName × MemberMeta)}
    (hmore : ∀ e ∈ more, Known net sent i chat e.1 e.2) :
    Listed net sent i chat (more.foldl (fun joined e => joined.insert e.1 e.2) members) := by
  induction more generalizing members with
  | nil => exact h
  | cons e more ih =>
    refine ih (h.insert (hmore e List.mem_cons_self)) fun e he => ?_
    exact hmore e (List.mem_cons_of_mem _ he)

end Members

section Keeping

variable {net} {w : World ι} {i : ι}

theorem inv_start : Inv net (start : World ι) where
  listed _ _ he := absurd he List.not_mem_nil
  inviting _ _ hp := absurd hp List.not_mem_nil
  tasks _ _ htask := absurd htask List.not_mem_nil
  requests _ _ _ _ _ hsent := absurd hsent List.not_mem_nil
  messages _ _ _ _ _ _ _ hsent := absurd hsent List.not_mem_nil
  shown _ _ hmsg := absurd hmsg List.not_mem_nil

/-- Which chats exist is of no interest here. -/
theorem Inv.create (h : Inv net w) (creating : List (ι × ChatName)) (created : List ChatName) :
    Inv net { w with creating := creating, created := created } :=
  ⟨h.listed, h.inviting, h.tasks, h.requests, h.messages, h.shown⟩

theorem Inv.send (h : Inv net w) {m : Sent ι}
    (hrequest : ∀ chat name coins, m.letter = .joinRequest chat name coins →
      Registered net name m.receiver)
    (hmessage : ∀ chat content secret nonce aesNonce,
      m.letter = .hardenedMessage chat content secret nonce aesNonce →
      ∃ name, Known net w.sent m.sender chat name ⟨secret, (net.user m.receiver).identity⟩) :
    Inv net (w.send m) := by
  have hsub : w.sent ⊆ w.sent ++ [m] := List.subset_append_left _ _
  refine ⟨fun i e he member hmember => ?_, fun i p hp => ?_, fun i task htask => ?_,
    fun i j chat name coins hsent => ?_,
    fun i j chat content secret nonce aesNonce hsent => ?_, fun j msg hmsg => ?_⟩
  · exact (h.listed i e he member hmember).mono hsub
  · exact (h.inviting i p hp).mono hsub
  · have hknown := h.tasks i task htask
    exact ⟨hknown.inviter.mono hsub, fun name member he => (hknown.members name member he).mono hsub⟩
  · rcases List.mem_append.mp hsent with hsent | hsent
    · exact h.requests i j chat name coins hsent
    · cases List.mem_singleton.mp hsent
      exact hrequest chat name coins rfl
  · rcases List.mem_append.mp hsent with hsent | hsent
    · obtain ⟨name, hknown⟩ := h.messages i j chat content secret nonce aesNonce hsent
      exact ⟨name, hknown.mono hsub⟩
    · cases List.mem_singleton.mp hsent
      obtain ⟨name, hknown⟩ := hmessage chat content secret nonce aesNonce rfl
      exact ⟨name, hknown.mono hsub⟩
  · obtain ⟨howner, i, chat, content, secret, nonce, aesNonce, member, decrypted, hsent, hknown,
      hopened⟩ := h.shown j msg hmsg
    exact ⟨howner, i, chat, content, secret, nonce, aesNonce, member, decrypted, hsub hsent,
      hknown.mono hsub, hopened⟩

/-- A chat with the members it had, or none, and one more. -/
theorem Inv.listed_get (h : Inv net w) {chat : ChatName} {details : HardenedChatMeta}
    (hget : (w.client i).vault.hardenedChats.get chat = some details) :
    Listed net w.sent i chat details.members := h.listed i _ (LinearMap.mem_of_get hget)

theorem Inv.listed_insert (h : Inv net w) {chat : ChatName} {details : HardenedChatMeta}
    (hdetails : Listed net w.sent i chat details.members) :
    ∀ e ∈ (w.client i).vault.hardenedChats.insert chat details,
      Listed net w.sent i e.1 e.2.members := by
  intro e he
  rcases LinearMap.mem_of_mem_insert he with rfl | he
  · exact hdetails
  · exact h.listed i e he

theorem Inv.listed_addMember (h : Inv net w) {chat : ChatName} {name : UserName}
    {member : MemberMeta} {vault : Vault} (hmember : Known net w.sent i chat name member)
    (hvault : ClientSending.addMember (w.client i).vault chat name member = some vault) :
    ∀ e ∈ vault.hardenedChats, Listed net w.sent i e.1 e.2.members := by
  obtain ⟨details, hget, rfl⟩ := Option.map_eq_some_iff.mp hvault
  exact h.listed_insert ((h.listed_get hget).insert hmember)

theorem Inv.listed_joinChat (h : Inv net w) {task : Task} {members : List (UserName × MemberMeta)}
    (htask : task.Known net w.sent i) (hmembers : task.members = members.map fun e => (e.1, some e.2)) :
    ∀ e ∈ (joinChat (w.client i).vault task.invite task.secret members).hardenedChats,
      Listed net w.sent i e.1 e.2.members := by
  have hdetails : Listed net w.sent i task.invite.chat
      ((((w.client i).vault.hardenedChats.get task.invite.chat).getD ⟨[]⟩).members) := by
    cases hget : (w.client i).vault.hardenedChats.get task.invite.chat with
    | none => exact fun e he => absurd he List.not_mem_nil
    | some details => exact h.listed_get hget
  refine h.listed_insert ((hdetails.foldl fun e he => ?_).insert htask.inviter)
  refine htask.members e.1 e.2 ?_
  rw [hmembers]
  exact List.mem_map_of_mem he

variable (net) in
/-- What a client makes of a mail. -/
structure Received (w : World ι) (j : ι) (bytes : Bytes) (after : Client) : Prop where
  listed : ∀ e ∈ after.vault.hardenedChats, Listed net w.sent j e.1 e.2.members
  shown : ∀ msg ∈ after.newMessages, Opened net w.sent j msg
  tasks : ∀ invite, invitation (net.user j).enc bytes = some invite →
    (Task.start invite).Known net w.sent j

theorem opened_of_findSender (h : Inv net w) {i j : ι} {chat : ChatName} {content : String}
    {secret : SharedSecret} {nonce : Nonce} {aesNonce : Sized nonceSize} {hash : Sized 32}
    {details : ChatName × HardenedChatMeta} {sender : UserName} {decrypted : Bytes} {text : String}
    (hsent : ⟨i, j, .hardenedMessage chat content secret nonce aesNonce⟩ ∈ w.sent)
    (hfound : findChat net.host (w.client j).vault nonce hash = some details)
    (hsender : findSender s details.2 (encrypt s (asBytes content) secret aesNonce) =
      some (sender, decrypted)) (htext : fromUtf8 decrypted = some text) :
    Opened net w.sent j ⟨sender, (net.user j).name, text, details.1⟩ := by
  obtain ⟨e, he, hopened⟩ := List.exists_of_findSome?_eq_some hsender
  obtain ⟨plain, hplain, hpair⟩ := Option.map_eq_some_iff.mp hopened
  cases hpair
  have hknown := h.listed j details (List.mem_of_find?_eq_some hfound) e he
  exact ⟨rfl, i, chat, content, secret, nonce, aesNonce, e.2, _, hsent, hknown, hplain, htext⟩

theorem received_of_handleMail (h : Inv net w) {m : Sent ι} {result : Except String Unit}
    {after : Client} (hsent : m ∈ w.sent) (hlength : (m.bytes net).length < capacityLimit)
    (hdone : handleMail net.host net.layout (net.user m.receiver).enc (net.user m.receiver).name
      (w.client m.receiver) (m.bytes net) = .done result after) :
    Received net w m.receiver (m.bytes net) after := by
  obtain ⟨i, j, letter⟩ := m
  cases letter with
  | chatInvite chat secret coins =>
    cases hdone.symm.trans (handleMail_chatInvite net.lawful secret hlength)
    refine ⟨h.listed j, h.shown j, fun invite hinvite => ?_⟩
    cases hinvite.symm.trans (invitation_eq_none hlength (decode_chatInvite _ secret)
      (by rintro _ _ ⟨⟩))
  | hardenedInvite chat members coins =>
    cases hdone.symm.trans (handleMail_hardenedInvite net.lawful _ hlength)
    refine ⟨h.listed j, h.shown j, fun invite hinvite => ?_⟩
    cases hinvite.symm.trans (invitation_hardenedInvite net.lawful _ hlength)
    refine ⟨.inviter hsent rfl, fun name member hmember => ?_⟩
    obtain ⟨other, -, hpair⟩ := List.mem_map.mp hmember
    cases hpair
  | joinRequest chat name coins =>
    have htasks : ∀ invite, invitation (net.user j).enc
        (Sent.bytes net ⟨i, j, .joinRequest chat name coins⟩) = some invite →
          (Task.start invite).Known net w.sent j := by
      intro invite hinvite
      cases hinvite.symm.trans (invitation_eq_none hlength (decode_notifyAboutInvite name _ _)
        (by rintro _ _ ⟨⟩))
    rcases handleMail_notifyAboutInvite_done net.lawful hlength hdone with rfl | ⟨vault, hvault, rfl⟩
    · exact ⟨h.listed j, h.shown j, htasks⟩
    · have hknown : Known net w.sent j chat name ⟨secretOf net i j coins, (net.user i).identity⟩ :=
        .joiner hsent (h.requests i j chat name coins hsent)
      exact ⟨h.listed_addMember hknown hvault, h.shown j, htasks⟩
  | hardenedMessage chat content secret nonce aesNonce =>
    have hhandled := hdone.symm.trans
      (handleMail_hardenedMessage content secret nonce aesNonce hlength)
    obtain ⟨hvault, hmessages⟩ := handleHardenedChatMessage_done hhandled.symm
    refine ⟨?_, fun msg hmsg => ?_, fun invite hinvite => ?_⟩
    · rw [hvault]
      exact h.listed j
    · rcases hmessages with hsame | ⟨details, sender, decrypted, text, hfound, hsender, htext, hnew⟩
      · rw [hsame] at hmsg
        exact h.shown j msg hmsg
      · rw [hnew, List.mem_append, List.mem_singleton] at hmsg
        rcases hmsg with hmsg | rfl
        · exact h.shown j msg hmsg
        · exact opened_of_findSender h hsent hfound hsender htext
    · cases hinvite.symm.trans (invitation_eq_none hlength
        (decode_hardenedMessage content secret nonce aesNonce) (by rintro _ _ ⟨⟩))

variable [DecidableEq ι]

theorem Inv.setClient (h : Inv net w) {client : Client}
    (hlisted : ∀ e ∈ client.vault.hardenedChats, Listed net w.sent i e.1 e.2.members)
    (hshown : ∀ msg ∈ client.newMessages, Opened net w.sent i msg) :
    Inv net (w.setClient i client) := by
  refine ⟨fun j e he => ?_, h.inviting, h.tasks, h.requests, h.messages, fun j msg hmsg => ?_⟩
  · change e ∈ (Function.update w.client i client j).vault.hardenedChats at he
    rw [Function.update_apply] at he
    split_ifs at he with hj
    · rw [hj]
      exact hlisted e he
    · exact h.listed j e he
  · change msg ∈ (Function.update w.client i client j).newMessages at hmsg
    rw [Function.update_apply] at hmsg
    split_ifs at hmsg with hj
    · rw [hj]
      exact hshown msg hmsg
    · exact h.shown j msg hmsg

theorem Inv.setVault (h : Inv net w) {vault : Vault}
    (hlisted : ∀ e ∈ vault.hardenedChats, Listed net w.sent i e.1 e.2.members) :
    Inv net (w.setVault i vault) := h.setClient hlisted (h.shown i)

theorem Inv.setChats (h : Inv net w) (chats : LinearMap ChatName ChatMeta) :
    Inv net (w.setChats i chats) := h.setVault (h.listed i)

theorem Inv.setTasks (h : Inv net w) {tasks : List Task}
    (htasks : ∀ task ∈ tasks, task.Known net w.sent i) : Inv net (w.setTasks i tasks) := by
  refine ⟨h.listed, h.inviting, fun j task htask => ?_, h.requests, h.messages, h.shown⟩
  change task ∈ Function.update w.tasks i tasks j at htask
  rw [Function.update_apply] at htask
  split_ifs at htask with hj
  · rw [hj]
    exact htasks task htask
  · exact h.tasks j task htask

theorem Inv.setInviting (h : Inv net w) {inviting : List (ChatName × UserName × MemberMeta)}
    (hinviting : ∀ p ∈ inviting, Known net w.sent i p.1 p.2.1 p.2.2) :
    Inv net (w.setInviting i inviting) := by
  refine ⟨h.listed, fun j p hp => ?_, h.tasks, h.requests, h.messages, h.shown⟩
  change p ∈ Function.update w.inviting i inviting j at hp
  rw [Function.update_apply] at hp
  split_ifs at hp with hj
  · rw [hj]
    exact hinviting p hp
  · exact h.inviting j p hp

theorem inv_step {w' : World ι} {e : Event ι} (h : Inv net w) (hstep : Step net w e w') :
    Inv net w' := by
  cases hstep with
  | requestChat i hnew => exact h.create _ _
  | createChat secret hrequested =>
    exact (h.setChats _).create _ _
  | act actionNo hentry => exact h.setChats _
  | createHardenedChat hnew =>
    exact h.setVault (h.listed_insert fun e he => absurd he List.not_mem_nil)
  | invite coins hname hsecret =>
    exact h.send (by rintro _ _ _ ⟨⟩) (by rintro _ _ _ _ _ ⟨⟩)
  | @inviteHardened i j name chat members coins hother hname =>
    have hsend := h.send (m := ⟨i, j, .hardenedInvite chat members coins⟩)
      (by rintro _ _ _ ⟨⟩) (by rintro _ _ _ _ _ ⟨⟩)
    refine hsend.setInviting fun p hp => ?_
    rcases List.mem_append.mp hp with hp | hp
    · exact hsend.inviting i p hp
    · cases List.mem_singleton.mp hp
      exact .invited (List.mem_append_right _ (List.mem_singleton_self _)) hname
  | @addMember i before later chat name member vault hinviting hvault =>
    have hmember := h.inviting i (chat, name, member)
      (hinviting ▸ List.mem_append_right before List.mem_cons_self)
    have hvaulted := h.setVault (h.listed_addMember hmember hvault)
    refine hvaulted.setInviting fun p hp => h.inviting i p ?_
    rw [hinviting]
    exact List.mem_append.mpr ((List.mem_append.mp hp).imp_right (List.mem_cons_of_mem _))
  | @receive m result after hsent hlength hdone =>
    have hreceived := received_of_handleMail h hsent hlength hdone
    have hclient := h.setClient hreceived.listed hreceived.shown
    refine hclient.setTasks fun task htask => ?_
    rcases List.mem_append.mp htask with htask | htask
    · exact h.tasks m.receiver task htask
    · obtain ⟨invite, hinvite, rfl⟩ := List.mem_map.mp htask
      exact hreceived.tasks invite (Option.mem_toList.mp hinvite)
  | @notify i j before later task notified rest name coins htasks hmembers hname =>
    have hsend := h.send (m := ⟨i, j, .joinRequest task.invite.chat name coins⟩)
      (by rintro _ _ _ ⟨⟩; exact hname) (by rintro _ _ _ _ _ ⟨⟩)
    have hall (other : Task) (hother : other ∈ before ++ task :: later) :=
      hsend.tasks i other (htasks ▸ hother)
    have htask := hall task (List.mem_append_right before List.mem_cons_self)
    refine hsend.setTasks fun other hother => ?_
    rcases List.mem_append.mp hother with hother | hother
    · exact hall other (List.mem_append_left _ hother)
    · rcases List.mem_cons.mp hother with rfl | hother
      · refine ⟨htask.inviter, fun listed member hmember => ?_⟩
        rcases List.mem_append.mp hmember with hmember | hmember
        · exact htask.members listed member (hmembers ▸ List.mem_append_left _ hmember)
        · rcases List.mem_cons.mp hmember with hpair | hmember
          · cases hpair
            exact .asked (List.mem_append_right _ (List.mem_singleton_self _)) hname
          · refine htask.members listed member ?_
            rw [hmembers]
            exact List.mem_append_right _ (List.mem_cons_of_mem _ hmember)
      · exact hall other (List.mem_append_right before (List.mem_cons_of_mem task hother))
  | @joinChat i before later task members htasks hmembers =>
    have hall (other : Task) (hother : other ∈ before ++ task :: later) :=
      h.tasks i other (htasks ▸ hother)
    have htask := hall task (List.mem_append_right before List.mem_cons_self)
    have hvault := h.setVault (h.listed_joinChat htask hmembers)
    refine hvault.setTasks fun other hother => hall other ?_
    exact List.mem_append.mpr ((List.mem_append.mp hother).imp_right (List.mem_cons_of_mem task))
  | @message i j chat details name member content nonce aesNonce hchat hmember hreceiver =>
    refine h.send (by rintro _ _ _ ⟨⟩) ?_
    rintro _ _ _ _ _ ⟨⟩
    have hknown := h.listed_get hchat _ hmember
    refine ⟨name, ?_⟩
    rw [← hreceiver]
    exact hknown

theorem inv_run {es : List (Event ι)} (hrun : Run (Step net) start es w) : Inv net w :=
  hrun.stateInvariant inv_start fun _ _ _ ht hstep => inv_step ht hstep

end Keeping

section Conversation

variable [DecidableEq ι] {net} {i j : ι} {name : UserName}

theorem no_members_length : ([] : List UserName).length < 2 ^ 64 := by decide

def noMembers : Vec UserName := ⟨[], no_members_length⟩

theorem get_singleton {K V : Type*} [DecidableEq K] (key : K) (value : V) :
    LinearMap.get [(key, value)] key = some value := by
  simp [LinearMap.get]

theorem insert_singleton {K V : Type*} [DecidableEq K] (key : K) (value old : V) :
    LinearMap.insert key value [(key, old)] = [(key, value)] := by
  simp [LinearMap.insert]

/-- A chat with one member, who was invited by the only other one. -/
theorem exists_invited (chat : ChatName) (hne : i ≠ j) (hother : name ≠ (net.user i).name)
    (hname : Registered net name j) (coins : Coins) :
    ∃ es w, Run (Step net) start es w ∧
      w.sent = [⟨i, j, .hardenedInvite chat noMembers coins⟩] ∧
      (w.client i).vault.hardenedChats =
        [(chat, ⟨[(name, ⟨secretOf net i j coins, (net.user j).identity⟩)]⟩)] ∧
      w.client j = ⟨⟨[], []⟩, [], none, []⟩ ∧ w.tasks j = [] := by
  obtain ⟨w1, hw1⟩ : ∃ w1 : World ι, w1 = start.setHardenedChats i [(chat, ⟨[]⟩)] := ⟨_, rfl⟩
  have hcreated : Step net start (.createHardenedChat i chat) w1 :=
    hw1 ▸ .createHardenedChat List.not_mem_nil
  obtain ⟨w2, hw2⟩ : ∃ w2 : World ι, w2 =
      (w1.send ⟨i, j, .hardenedInvite chat noMembers coins⟩).setInviting i (w1.inviting i ++
        [(chat, name, ⟨secretOf net i j coins, (net.user j).identity⟩)]) := ⟨_, rfl⟩
  have hinvited : Step net w1 (.send ⟨i, j, .hardenedInvite chat noMembers coins⟩) w2 :=
    hw2 ▸ .inviteHardened noMembers coins hother hname
  have hclient (k : ι) : w2.client k =
      if k = i then ⟨⟨[], [(chat, ⟨[]⟩)]⟩, [], none, []⟩ else ⟨⟨[], []⟩, [], none, []⟩ := by
    rw [hw2, hw1]
    exact Function.update_apply _ i _ k
  have hinviting : w2.inviting i =
      [] ++ (chat, name, ⟨secretOf net i j coins, (net.user j).identity⟩) :: [] := by
    rw [hw2, hw1]
    exact Function.update_self i _ _
  have hvault : ClientSending.addMember (w2.client i).vault chat name
      ⟨secretOf net i j coins, (net.user j).identity⟩ = some ⟨[], [(chat,
        ⟨[(name, ⟨secretOf net i j coins, (net.user j).identity⟩)]⟩)]⟩ := by
    rw [hclient, if_pos rfl]
    unfold ClientSending.addMember
    dsimp only
    rw [get_singleton, Option.map_some, insert_singleton]
    rfl
  have hrun := ((Run.start.next _ hcreated).next _ hinvited).next _ (.addMember hinviting hvault)
  refine ⟨_, _, hrun, ?_, ?_, ?_, ?_⟩
  · rw [hw2, hw1]
    rfl
  · change (Function.update w2.client i _ i : Client).vault.hardenedChats = _
    rw [Function.update_self]
  · change (Function.update w2.client i _ j : Client) = _
    rw [Function.update_of_ne hne.symm, hclient, if_neg hne.symm]
  · rw [hw2, hw1]
    rfl

/-- Who accepts an invite and who sent it have each other in the chat. -/
theorem exists_joined (chat : ChatName) (hne : i ≠ j) (hother : name ≠ (net.user i).name)
    (hname : Registered net name j) (coins : Coins)
    (hlength : (Sent.bytes net ⟨i, j, .hardenedInvite chat noMembers coins⟩).length <
      capacityLimit) :
    ∃ es w, Run (Step net) start es w ∧
      w.sent = [⟨i, j, .hardenedInvite chat noMembers coins⟩] ∧
      (w.client i).vault.hardenedChats =
        [(chat, ⟨[(name, ⟨secretOf net i j coins, (net.user j).identity⟩)]⟩)] ∧
      (w.client j).vault.hardenedChats =
        [(chat, ⟨[((net.user i).name, ⟨secretOf net i j coins, (net.user i).identity⟩)]⟩)] ∧
      (w.client j).newMessages = [] := by
  obtain ⟨es, w, hrun, hsent, hinviter, hclient, htasks⟩ :=
    exists_invited chat hne hother hname coins
  obtain ⟨payload, hpayload⟩ : ∃ payload : HardenedChatInvitePayload,
    payload = ⟨chat, (net.user i).name, (net.user i).identity, noMembers⟩ := ⟨_, rfl⟩
  have hbytes : Sent.bytes net ⟨i, j, .hardenedInvite chat noMembers coins⟩ =
      (hardenedInvite (net.user i).enc (net.user j).enc.publicKey payload coins).1 := by
    rw [hpayload]
    rfl
  rw [hbytes] at hlength
  have hdone : handleMail net.host net.layout (net.user j).enc (net.user j).name (w.client j)
      (Sent.bytes net ⟨i, j, .hardenedInvite chat noMembers coins⟩) =
        .done (.ok ()) { w.client j with spawned := (w.client j).spawned ++ [payload] } := by
    rw [hbytes]
    exact handleMail_hardenedInvite net.lawful payload hlength
  have hinvitation : invitation (net.user j).enc
      (Sent.bytes net ⟨i, j, .hardenedInvite chat noMembers coins⟩) =
        some (payload, secretOf net i j coins) := by
    rw [hbytes]
    exact invitation_hardenedInvite net.lawful payload hlength
  have hmail : ⟨i, j, .hardenedInvite chat noMembers coins⟩ ∈ w.sent := by
    rw [hsent]
    exact List.mem_singleton_self _
  obtain ⟨after, hafter⟩ : ∃ after : Client,
    after = { w.client j with spawned := (w.client j).spawned ++ [payload] } := ⟨_, rfl⟩
  obtain ⟨w', hw'⟩ : ∃ w' : World ι, w' = (w.setClient j after).setTasks j
    (w.tasks j ++ (invitation (net.user j).enc (Sent.bytes net
      ⟨i, j, .hardenedInvite chat noMembers coins⟩)).toList.map Task.start) := ⟨_, rfl⟩
  have hreceived : Step net w (.receive ⟨i, j, .hardenedInvite chat noMembers coins⟩) w' := by
    rw [hw', hafter]
    exact .receive hmail (hbytes ▸ hlength) hdone
  obtain ⟨task, htask⟩ : ∃ task : Task, task = ⟨payload, secretOf net i j coins, []⟩ := ⟨_, rfl⟩
  have htasks' : w'.tasks j = [] ++ task :: [] := by
    rw [hw', htask]
    change (Function.update w.tasks j _ j : List Task) = _
    rw [Function.update_self, htasks, hinvitation, hpayload]
    rfl
  have hclient' (k : ι) : w'.client k = if k = j then after else w.client k := by
    rw [hw']
    exact Function.update_apply w.client j after k
  have hchats : after.vault.hardenedChats = [] := by
    rw [hafter, hclient]
  have hmembers : task.members = ([] : List (UserName × MemberMeta)).map fun e => (e.1, some e.2) := by
    rw [htask]
    rfl
  refine ⟨_, _, (hrun.next _ hreceived).next _ (.joinChat htasks' hmembers), ?_, ?_, ?_, ?_⟩
  · rw [hw']
    exact hsent
  · change (Function.update w'.client j _ i : Client).vault.hardenedChats = _
    rw [Function.update_of_ne hne, hclient', if_neg hne, hinviter]
  · change (Function.update w'.client j _ j : Client).vault.hardenedChats = _
    rw [Function.update_self, hclient', if_pos rfl, htask, hpayload]
    unfold joinChat
    rw [hchats]
    simp [LinearMap.get, LinearMap.insert]
  · change (Function.update w'.client j _ j : Client).newMessages = _
    rw [Function.update_self, hclient', if_pos rfl, hafter, hclient]

/-- A message that one of them writes then is on its way to the other. -/
theorem exists_conversation (chat : ChatName) (hne : i ≠ j) (hother : name ≠ (net.user i).name)
    (hname : Registered net name j) (coins : Coins) (content : String) (nonce : Nonce)
    (aesNonce : Sized nonceSize)
    (hlength : (Sent.bytes net ⟨i, j, .hardenedInvite chat noMembers coins⟩).length <
      capacityLimit) :
    ∃ es w, Run (Step net) start es w ∧
      w.sent = [⟨i, j, .hardenedInvite chat noMembers coins⟩, ⟨i, j, .hardenedMessage chat content
        (secretOf net i j coins) nonce aesNonce⟩] ∧
      (w.client j).vault.hardenedChats =
        [(chat, ⟨[((net.user i).name, ⟨secretOf net i j coins, (net.user i).identity⟩)]⟩)] ∧
      (w.client j).newMessages = [] := by
  obtain ⟨es, w, hrun, hsent, hinviter, hjoined, hmessages⟩ :=
    exists_joined chat hne hother hname coins hlength
  have hchat : (w.client i).vault.hardenedChats.get chat =
      some ⟨[(name, ⟨secretOf net i j coins, (net.user j).identity⟩)]⟩ := by
    rw [hinviter]
    exact get_singleton _ _
  refine ⟨_, _, hrun.next _ (.message content nonce aesNonce hchat (List.mem_singleton_self _) rfl),
    ?_, hjoined, hmessages⟩
  change w.sent ++ [_] = _
  rw [hsent]
  rfl

end Conversation

section Samples

def bytesOf {size : ℕ} (payload : FixedAesPayload size) : Sized (size + tagSize + nonceSize) :=
  join (join payload.data payload.tag) payload.nonce

theorem payloadOf_bytesOf {size : ℕ} (payload : FixedAesPayload size) :
    payloadOf size (bytesOf payload) = payload := by
  unfold payloadOf bytesOf
  simp only [split_join]

theorem sampleLayout_choosenCiphertext (cp : ChoosenCiphertext) :
    sampleLayout.choosenCiphertext (join (bytesOf cp.pl) cp.cp.intoBytes) = cp := by
  unfold sampleLayout
  simp only [split_join, payloadOf_bytesOf, Ciphertext.fromBytes_intoBytes]

theorem sampleLayout_joinRequestPayload (payload : JoinRequestPayload) :
    sampleLayout.joinRequestPayload
      (join (join payload.name payload.chat) payload.identity) = payload := by
  unfold sampleLayout
  simp only [split_join]

def sampleTransmuted : Transmuted sampleLayout where
  choosenCiphertext cp := join (bytesOf cp.pl) cp.cp.intoBytes
  joinRequest := bytesOf
  joinRequestPayload payload := join (join payload.name payload.chat) payload.identity
  choosenCiphertext_back := sampleLayout_choosenCiphertext
  joinRequest_back := payloadOf_bytesOf
  joinRequestPayload_back := sampleLayout_joinRequestPayload

theorem utf8ByteSize_b : "b".utf8ByteSize ≤ (32 : UInt64).toNat := by decide

def sampleUser : Bool → User maskSuite
  | false => ⟨sampleName, repeated 32 0, maskPair 0⟩
  | true => ⟨⟨"b", utf8ByteSize_b⟩, repeated 32 1, maskPair 1⟩

theorem sampleUser_identity_injective : Function.Injective fun i => (sampleUser i).identity := by
  decide +kernel

theorem sampleUser_ne : (sampleUser true).name ≠ (sampleUser false).name := by
  intro h
  exact absurd (congrArg Subtype.val h) (by decide)

/-- Two users, `a` and `b`. -/
def sampleNetwork : Network Bool maskSuite :=
  ⟨ClientMail.sampleHost, sampleLayout, sampleTransmuted, sampleUser, maskSuite_lawful,
    sampleUser_identity_injective⟩

def sampleCoins : Coins := ⟨repeated 32 3, repeated 12 4⟩

theorem length_sampleInvite : (Sent.bytes sampleNetwork ⟨false, true,
    .hardenedInvite sampleName noMembers sampleCoins⟩).length < capacityLimit := by
  decide +kernel

theorem length_sampleMessage : (Sent.bytes sampleNetwork ⟨false, true, .hardenedMessage sampleName
    "hi" (secretOf sampleNetwork false true sampleCoins) 5 (repeated 12 6)⟩).length <
      capacityLimit := by
  decide +kernel

end Samples


section Messages

variable {net} {w : World ι} {es : List (Event ι)} {i j : ι} {chat : ChatName} {name : UserName}
  {member : MemberMeta}

/-- The chat and the random bytes of a mail that keys are exchanged by. -/
def Letter.exchange : Letter → Option (ChatName × Coins)
  | .hardenedInvite chat _ coins => some (chat, coins)
  | .joinRequest chat _ coins => some (chat, coins)
  | .chatInvite .. | .hardenedMessage .. => none

/-- No two exchanges have one secret, and what is encrypted under one of them is opened by no
other. -/
structure Ideal (net : Network ι s) (sent : List (Sent ι)) : Prop where
  fresh : ∀ m ∈ sent, ∀ m' ∈ sent, ∀ chat coins chat' coins',
    m.letter.exchange = some (chat, coins) → m'.letter.exchange = some (chat', coins') →
    secretOf net m.sender m.receiver coins = secretOf net m'.sender m'.receiver coins' → m = m'
  sealed : ∀ i j chat content secret nonce aesNonce,
    ⟨i, j, .hardenedMessage chat content secret nonce aesNonce⟩ ∈ sent →
    ∀ m ∈ sent, ∀ chat' coins decrypted, m.letter.exchange = some (chat', coins) →
    decrypt s (encrypt s (asBytes content) secret aesNonce)
      (secretOf net m.sender m.receiver coins) = some decrypted →
    secretOf net m.sender m.receiver coins = secret

/-- The mail behind a member, and the user at its other end. -/
theorem Known.exchange {sent : List (Sent ι)} (h : Known net sent i chat name member) :
    ∃ k, ∃ m ∈ sent, ∃ coins, m.letter.exchange = some (chat, coins) ∧
      member = ⟨secretOf net m.sender m.receiver coins, (net.user k).identity⟩ ∧
      ((m.sender = i ∧ m.receiver = k ∧ Registered net name k) ∨
        (m.sender = k ∧ m.receiver = i ∧ (Registered net name k ∨
          Registered net name i ∧ m.letter = .joinRequest chat name coins))) := by
  cases h with
  | @invited k members coins hsent hname =>
    exact ⟨k, _, hsent, coins, rfl, rfl, .inl ⟨rfl, rfl, hname⟩⟩
  | @asked k coins hsent hname => exact ⟨k, _, hsent, coins, rfl, rfl, .inl ⟨rfl, rfl, hname⟩⟩
  | @inviter k members coins hsent hname =>
    refine ⟨k, _, hsent, coins, rfl, rfl, .inr ⟨rfl, rfl, .inl ?_⟩⟩
    rw [hname]
    rfl
  | @joiner k coins hsent hname =>
    exact ⟨k, _, hsent, coins, rfl, rfl, .inr ⟨rfl, rfl, .inr ⟨hname, rfl⟩⟩⟩

/-- The chat is found if no other chat of the client has its hash. -/
theorem findChat_eq {host : Host} {vault : Vault} {nonce : Nonce}
    (hhash : ∀ other ∈ vault.hardenedChats.keys,
      withNonce host (asBytes other.val) nonce = withNonce host (asBytes chat.val) nonce →
      other = chat) :
    findChat host vault nonce ⟨(withNonce host (asBytes chat.val) nonce).bytes,
        (withNonce host (asBytes chat.val) nonce).size⟩ =
      (vault.hardenedChats.get chat).map fun details => (chat, details) := by
  have hsame : findChat host vault nonce ⟨(withNonce host (asBytes chat.val) nonce).bytes,
      (withNonce host (asBytes chat.val) nonce).size⟩ =
        vault.hardenedChats.find? fun e => e.1 = chat := by
    refine List.find?_congr fun e he => ?_
    rw [decide_eq_decide]
    constructor
    · intro hbytes
      exact hhash e.1 (List.mem_map_of_mem he) (Hash.ext_bytes hbytes)
    · intro hchat
      rw [hchat]
      rfl
  rw [hsame]
  unfold LinearMap.get
  cases hfind : vault.hardenedChats.find? fun e => e.1 = chat with
  | none => rfl
  | some e =>
    have hchat : e.1 = chat := by simpa using List.find?_some hfind
    rw [← hchat]
    rfl

/-- The sender is the first member with the secret, if no other secret opens the message. -/
theorem findSender_eq (hs : s.Lawful) {details : HardenedChatMeta} {content : String}
    {secret : SharedSecret} {aesNonce : Sized nonceSize}
    (hopens : ∀ e ∈ details.members, ∀ decrypted,
      decrypt s (encrypt s (asBytes content) secret aesNonce) e.2.secret = some decrypted →
      e.2.secret = secret) :
    findSender s details (encrypt s (asBytes content) secret aesNonce) =
      (details.members.find? fun e => e.2.secret = secret).map fun e => (e.1, asBytes content) := by
  obtain ⟨members⟩ := details
  unfold findSender
  induction members with
  | nil => rfl
  | cons e members ih =>
    have hrest := ih fun e he => hopens e (List.mem_cons_of_mem _ he)
    dsimp only at hrest ⊢
    rw [List.findSome?_cons]
    by_cases hsecret : e.2.secret = secret
    · rw [List.find?_cons_of_pos (by simpa using hsecret), hsecret, decrypt_encrypt hs]
      rfl
    · rw [List.find?_cons_of_neg (by simpa using hsecret), ← hrest]
      cases hopened : decrypt s (encrypt s (asBytes content) secret aesNonce) e.2.secret with
      | none => rfl
      | some decrypted =>
        exact absurd (hopens e List.mem_cons_self decrypted hopened) hsecret

/-- The first member of the chat with the secret is shown as the sender. -/
def afterMessage (myName : UserName) (chat : ChatName) (content : String) (secret : SharedSecret)
    (client : Client) : Client :=
  let details := client.vault.hardenedChats.get chat
  match details.bind fun details => details.members.find? fun e => e.2.secret = secret with
  | none => client
  | some e =>
    let message := ⟨e.1, myName, content, chat⟩
    { client with
      newMessages := client.newMessages ++ [message]
      hardenedMessages := some (chat, message) }

theorem Inv.handleMail_message (hinv : Inv net w) (hideal : Ideal net w.sent) {content : String}
    {secret : SharedSecret} {nonce : Nonce} {aesNonce : Sized nonceSize}
    (hsent : ⟨i, j, .hardenedMessage chat content secret nonce aesNonce⟩ ∈ w.sent)
    (hlength : (Sent.bytes net
      ⟨i, j, .hardenedMessage chat content secret nonce aesNonce⟩).length < capacityLimit)
    (hhash : ∀ other ∈ (w.client j).vault.hardenedChats.keys,
      withNonce net.host (asBytes other.val) nonce = withNonce net.host (asBytes chat.val) nonce →
      other = chat) :
    handleMail net.host net.layout (net.user j).enc (net.user j).name (w.client j)
        (Sent.bytes net ⟨i, j, .hardenedMessage chat content secret nonce aesNonce⟩) =
      .done (.ok ()) (afterMessage (net.user j).name chat content secret (w.client j)) := by
  refine (handleMail_hardenedMessage content secret nonce aesNonce hlength).trans ?_
  unfold handleHardenedChatMessage afterMessage
  rw [findChat_eq hhash]
  cases hget : (w.client j).vault.hardenedChats.get chat with
  | none => rfl
  | some details =>
    have hopens (e : UserName × MemberMeta) (he : e ∈ details.members) (decrypted : Bytes)
        (hopened : decrypt s (encrypt s (asBytes content) secret aesNonce) e.2.secret =
          some decrypted) : e.2.secret = secret := by
      obtain ⟨k, m, hm, coins, hexchange, hmember, -⟩ := (hinv.listed_get hget e he).exchange
      rw [hmember] at hopened ⊢
      exact hideal.sealed i j chat content secret nonce aesNonce hsent m hm chat coins decrypted
        hexchange hopened
    dsimp only [Option.map_some, Option.bind_some]
    rw [findSender_eq net.lawful hopens]
    cases details.members.find? fun e => e.2.secret = secret with
    | none => rfl
    | some e =>
      dsimp only [Option.map_some]
      rw [fromUtf8_asBytes]

theorem newMessages_afterMessage {myName sender : UserName} {content : String}
    {secret : SharedSecret} {identity : Sized 32} {client : Client}
    (hchat : client.vault.hardenedChats.get chat = some ⟨[(sender, ⟨secret, identity⟩)]⟩) :
    (afterMessage myName chat content secret client).newMessages =
      client.newMessages ++ [⟨sender, myName, content, chat⟩] := by
  unfold afterMessage
  rw [hchat]
  dsimp only [Option.bind_some]
  rw [List.find?_cons_of_pos (by simp)]

/-- No exchange but the one is there, so none can be taken for another. -/
theorem ideal_conversation {coins : Coins} {content : String} {nonce : Nonce}
    {aesNonce : Sized nonceSize} :
    Ideal net [⟨i, j, .hardenedInvite chat noMembers coins⟩,
      ⟨i, j, .hardenedMessage chat content (secretOf net i j coins) nonce aesNonce⟩] := by
  have hexchange (m : Sent ι) (hm : m ∈ [⟨i, j, .hardenedInvite chat noMembers coins⟩,
      ⟨i, j, .hardenedMessage chat content (secretOf net i j coins) nonce aesNonce⟩])
      (chat' : ChatName) (coins' : Coins) (h : m.letter.exchange = some (chat', coins')) :
      m = ⟨i, j, .hardenedInvite chat noMembers coins⟩ ∧ coins' = coins := by
    rcases List.mem_pair.mp hm with rfl | rfl
    · cases h
      exact ⟨rfl, rfl⟩
    · cases h
  refine ⟨fun m hm m' hm' _ _ _ _ h h' _ => ?_, ?_⟩
  · rw [(hexchange m hm _ _ h).1, (hexchange m' hm' _ _ h').1]
  · intro i' j' chat' content' secret nonce' aesNonce' hsent m hm other coins' decrypted h _
    obtain ⟨rfl, rfl⟩ := hexchange m hm _ _ h
    rcases List.mem_pair.mp hsent with hletter | hletter
    · cases hletter
    · cases hletter
      rfl

variable [DecidableEq ι]

/-- In every run each member that a client has in a hardened chat stands for one exchange of keys
with one other user, the mail of which is among those that were sent. The member has the name of
that user, but who asks to be added is kept under the name of the one who is asked. -/
theorem members_exchanged (hrun : Run (Step net) start es w) {details : HardenedChatMeta}
    (hchat : (w.client i).vault.hardenedChats.get chat = some details)
    (hmember : details.members.get name = some member) : Known net w.sent i chat name member :=
  (inv_run hrun).listed_get hchat _ (LinearMap.mem_of_get hmember)

theorem members_exchanged_joined : ∃ es w, Run (Step sampleNetwork) start es w ∧
    ∃ details, (w.client true).vault.hardenedChats.get sampleName = some details ∧
      details.members.get sampleName =
        some ⟨secretOf sampleNetwork false true sampleCoins, repeated 32 0⟩ ∧
      Known sampleNetwork w.sent true sampleName sampleName
        ⟨secretOf sampleNetwork false true sampleCoins, repeated 32 0⟩ := by
  obtain ⟨es, w, hrun, -, -, hjoined, -⟩ := exists_joined sampleName Bool.false_ne_true
    sampleUser_ne rfl sampleCoins length_sampleInvite
  have hchat : (w.client true).vault.hardenedChats.get sampleName =
      some ⟨[(sampleName, ⟨secretOf sampleNetwork false true sampleCoins, repeated 32 0⟩)]⟩ := by
    rw [hjoined]
    exact get_singleton _ _
  exact ⟨es, w, hrun, _, hchat, get_singleton _ _,
    members_exchanged hrun hchat (get_singleton _ _)⟩

/-- In every run a message that comes in is shown exactly if the client has a member in the chat
with the secret that the message was written with, as it was written and from that member. -/
theorem message_shown (hrun : Run (Step net) start es w) (hideal : Ideal net w.sent)
    {content : String} {secret : SharedSecret} {nonce : Nonce} {aesNonce : Sized nonceSize}
    (hsent : ⟨i, j, .hardenedMessage chat content secret nonce aesNonce⟩ ∈ w.sent)
    (hlength : (Sent.bytes net
      ⟨i, j, .hardenedMessage chat content secret nonce aesNonce⟩).length < capacityLimit)
    (hhash : ∀ other ∈ (w.client j).vault.hardenedChats.keys,
      withNonce net.host (asBytes other.val) nonce = withNonce net.host (asBytes chat.val) nonce →
      other = chat) :
    handleMail net.host net.layout (net.user j).enc (net.user j).name (w.client j)
        (Sent.bytes net ⟨i, j, .hardenedMessage chat content secret nonce aesNonce⟩) =
      .done (.ok ()) (afterMessage (net.user j).name chat content secret (w.client j)) :=
  (inv_run hrun).handleMail_message hideal hsent hlength hhash

theorem message_shown_conversation : ∃ es w, Run (Step sampleNetwork) start es w ∧
    handleMail sampleNetwork.host sampleNetwork.layout (sampleNetwork.user true).enc
        (sampleNetwork.user true).name (w.client true)
        (Sent.bytes sampleNetwork ⟨false, true, .hardenedMessage sampleName "hi"
          (secretOf sampleNetwork false true sampleCoins) 5 (repeated 12 6)⟩) =
      .done (.ok ()) (afterMessage (sampleNetwork.user true).name sampleName "hi"
        (secretOf sampleNetwork false true sampleCoins) (w.client true)) := by
  obtain ⟨es, w, hrun, hsent, hjoined, -⟩ := exists_conversation sampleName Bool.false_ne_true
    sampleUser_ne rfl sampleCoins "hi" 5 (repeated 12 6) length_sampleInvite
  have hmessage : ⟨false, true, .hardenedMessage sampleName "hi"
      (secretOf sampleNetwork false true sampleCoins) 5 (repeated 12 6)⟩ ∈ w.sent := by
    rw [hsent]
    exact List.mem_pair.mpr (.inr rfl)
  refine ⟨es, w, hrun, message_shown hrun (hsent ▸ ideal_conversation) hmessage
    length_sampleMessage fun other hother _ => ?_⟩
  rw [hjoined] at hother
  exact List.mem_singleton.mp hother

/-- In every run a message that a client shows in a hardened chat was written by another user to
this client and to this chat, with this content. The name that is shown is that of the user, or
that of the client itself where the user asked to be added. -/
theorem messages_authentic (hrun : Run (Step net) start es w) (hideal : Ideal net w.sent)
    {msg : ClientMail.Message} (hmsg : msg ∈ (w.client j).newMessages) :
    msg.owner = (net.user j).name ∧ ∃ i secret nonce aesNonce,
      ⟨i, j, .hardenedMessage msg.chat msg.content secret nonce aesNonce⟩ ∈ w.sent ∧
      (Registered net msg.sender i ∨ Registered net msg.sender j ∧
        ∃ coins, ⟨i, j, .joinRequest msg.chat msg.sender coins⟩ ∈ w.sent) := by
  have hinv := inv_run hrun
  obtain ⟨howner, i, chat, content, secret, nonce, aesNonce, member, decrypted, hsent, hknown,
    hopened, htext⟩ := hinv.shown j msg hmsg
  refine ⟨howner, i, secret, nonce, aesNonce, ?_⟩
  obtain ⟨named, hsender⟩ := hinv.messages i j chat content secret nonce aesNonce hsent
  obtain ⟨k, m, hm, coins, hexchange, rfl, hends⟩ := hknown.exchange
  obtain ⟨k', m', hm', coins', hexchange', hmember', hends'⟩ := hsender.exchange
  obtain ⟨hsecret, hidentity⟩ := MemberMeta.mk.inj hmember'
  have hopens := hideal.sealed i j chat content secret nonce aesNonce hsent m hm _ coins decrypted
    hexchange hopened
  -- the sender and the client have their keys from the same mail
  have hsame := hideal.fresh m hm m' hm' _ _ _ _ hexchange hexchange' (hopens.trans hsecret)
  subst hsame
  obtain ⟨hchat, hcoins⟩ := Prod.mk.inj (Option.some.inj (hexchange.symm.trans hexchange'))
  have hplain : decrypted = asBytes content := by
    rw [hopens, decrypt_encrypt net.lawful] at hopened
    exact (Option.some.inj hopened).symm
  have hcontent : content = msg.content := by
    rw [hplain, fromUtf8_asBytes] at htext
    exact Option.some.inj htext
  have hreceiver : k' = j := net.identity_injective hidentity.symm
  subst hreceiver hcontent
  have hk : k = i := by
    rcases hends with ⟨h1, h2, -⟩ | ⟨h1, h2, -⟩
    · rcases hends' with ⟨h3, h4, -⟩ | ⟨h3, h4, -⟩
      · rw [← h2, h4, ← h1, h3]
      · rw [← h2, h4]
    · rcases hends' with ⟨h3, h4, -⟩ | ⟨h3, h4, -⟩
      · rw [← h1, h3]
      · rw [← h1, h3, ← h2, h4]
  subst hk
  refine ⟨hchat ▸ hsent, ?_⟩
  rcases hends with ⟨-, -, hname⟩ | ⟨hfrom, hto, hname | ⟨hname, hletter⟩⟩
  · exact .inl hname
  · exact .inl hname
  · refine .inr ⟨hname, coins, ?_⟩
    rw [← hletter, ← hfrom, ← hto]
    exact hm

theorem messages_authentic_conversation : ∃ es w, Run (Step sampleNetwork) start es w ∧
    (w.client true).newMessages = [⟨sampleName, (sampleNetwork.user true).name, "hi", sampleName⟩] ∧
    ∃ i secret nonce aesNonce,
      ⟨i, true, .hardenedMessage sampleName "hi" secret nonce aesNonce⟩ ∈ w.sent ∧
      (Registered sampleNetwork sampleName i ∨ Registered sampleNetwork sampleName true ∧
        ∃ coins, ⟨i, true, .joinRequest sampleName sampleName coins⟩ ∈ w.sent) := by
  obtain ⟨es, w, hrun, hsent, hjoined, hnone⟩ := exists_conversation sampleName Bool.false_ne_true
    sampleUser_ne rfl sampleCoins "hi" 5 (repeated 12 6) length_sampleInvite
  have hmessage : ⟨false, true, .hardenedMessage sampleName "hi"
      (secretOf sampleNetwork false true sampleCoins) 5 (repeated 12 6)⟩ ∈ w.sent := by
    rw [hsent]
    exact List.mem_pair.mpr (.inr rfl)
  have hideal : Ideal sampleNetwork w.sent := hsent ▸ ideal_conversation
  have hdone := (inv_run hrun).handleMail_message hideal hmessage length_sampleMessage
    fun other hother _ => by
      rw [hjoined] at hother
      exact List.mem_singleton.mp hother
  have hnew : (afterMessage (sampleNetwork.user true).name sampleName "hi" (secretOf sampleNetwork
      false true sampleCoins) (w.client true)).newMessages =
        [⟨sampleName, (sampleNetwork.user true).name, "hi", sampleName⟩] := by
    rw [newMessages_afterMessage (hjoined ▸ get_singleton _ _), hnone]
    rfl
  obtain ⟨after, hafter⟩ : ∃ after, after = afterMessage (sampleNetwork.user true).name sampleName
    "hi" (secretOf sampleNetwork false true sampleCoins) (w.client true) := ⟨_, rfl⟩
  rw [← hafter] at hdone hnew
  have hreceived := hrun.next _ (.receive hmessage length_sampleMessage hdone)
  have hmessages : (Function.update w.client true after true).newMessages = _ :=
    (congrArg Client.newMessages (Function.update_self true after w.client)).trans hnew
  refine ⟨_, _, hreceived, hmessages, ?_⟩
  exact (messages_authentic hreceived hideal (hmessages ▸ List.mem_singleton_self _)).2

end Messages

section Chats

variable {w : World ι} {i : ι} {chat : ChatName} {secret : Bytes}

/-- The secrets of a chat in vaults and in invites. -/
inductive Holds (w : World ι) (chat : ChatName) : Bytes → Prop where
  | kept {i : ι} {entry : ChatMeta} (h : (chat, entry) ∈ (w.client i).vault.chats) :
      Holds w chat entry.secret
  | invited {i j : ι} {secret : SharedSecret} {coins : Coins}
      (h : ⟨i, j, .chatInvite chat secret coins⟩ ∈ w.sent) : Holds w chat secret.val

/-- One secret for each chat, and none before it is created. -/
structure Agreed (w : World ι) : Prop where
  unique : ∀ chat a b, Holds w chat a → Holds w chat b → a = b
  size : ∀ chat a, Holds w chat a → a.length = 32
  created : ∀ chat a, Holds w chat a → chat ∈ w.created ∧ ∀ i, (i, chat) ∉ w.creating
  creating : ∀ e ∈ w.creating, e.2 ∈ w.created
  nodup : (w.creating.map Prod.snd).Nodup

theorem agreed_start : Agreed (start : World ι) := by
  have hnone (chat : ChatName) (a : Bytes) : ¬ Holds (start : World ι) chat a := by
    rintro (h | h)
    · exact absurd h List.not_mem_nil
    · exact absurd h List.not_mem_nil
  exact ⟨fun _ _ _ h => absurd h (hnone _ _), fun _ _ h => absurd h (hnone _ _),
    fun _ _ h => absurd h (hnone _ _), fun _ h => absurd h List.not_mem_nil, List.nodup_nil⟩

theorem Agreed.mono {w' : World ι} (h : Agreed w)
    (hholds : ∀ chat a, Holds w' chat a → Holds w chat a) (hcreating : w'.creating = w.creating)
    (hcreated : w'.created = w.created) : Agreed w' := by
  refine ⟨fun chat a b ha hb => h.unique chat a b (hholds chat a ha) (hholds chat b hb),
    fun chat a ha => h.size chat a (hholds chat a ha), ?_, ?_, ?_⟩
  · rw [hcreating, hcreated]
    exact fun chat a ha => h.created chat a (hholds chat a ha)
  · rw [hcreating, hcreated]
    exact h.creating
  · rw [hcreating]
    exact h.nodup

theorem holds_of_chatSecret {value : SharedSecret}
    (h : chatSecret (w.client i).vault chat = some value) : Holds w chat value.val := by
  obtain ⟨entry, hentry, hvalue⟩ := Option.bind_eq_some_iff.mp h
  split_ifs at hvalue
  cases hvalue
  exact .kept (LinearMap.mem_of_get hentry)

/-- Neither the tasks of a client nor the members it invites hold a secret of a normal chat. -/
theorem holds_of_lists {w' : World ι} (h : Holds w' chat secret) (hclient : w'.client = w.client)
    (hsent : w'.sent = w.sent) : Holds w chat secret := by
  cases h with
  | kept h => exact .kept (hclient ▸ h)
  | invited h => exact .invited (hsent ▸ h)

/-- Letters that are no invites to normal chats. -/
theorem holds_of_send {m : Sent ι} (h : Holds (w.send m) chat secret)
    (hm : ∀ chat secret coins, m.letter ≠ .chatInvite chat secret coins) : Holds w chat secret := by
  cases h with
  | kept h => exact .kept h
  | invited h =>
    rcases List.mem_append.mp h with h | h
    · exact .invited h
    · cases List.mem_singleton.mp h
      exact absurd rfl (hm _ _ _)

variable [DecidableEq ι]

theorem holds_of_setClient {client : Client} (h : Holds (w.setClient i client) chat secret) :
    (∃ entry, (chat, entry) ∈ client.vault.chats ∧ entry.secret = secret) ∨ Holds w chat secret := by
  cases h with
  | @kept j entry h =>
    change (chat, entry) ∈ (Function.update w.client i client j).vault.chats at h
    rw [Function.update_apply] at h
    split_ifs at h with hj
    · exact .inl ⟨entry, h, rfl⟩
    · exact .inr (.kept h)
  | invited h => exact .inr (.invited h)

theorem holds_of_same {client : Client} (h : Holds (w.setClient i client) chat secret)
    (hchats : client.vault.chats = (w.client i).vault.chats) : Holds w chat secret := by
  rcases holds_of_setClient h with ⟨entry, hentry, rfl⟩ | h
  · rw [hchats] at hentry
    exact .kept hentry
  · exact h

theorem holds_of_insert {other : ChatName} {entry : ChatMeta}
    (h : Holds (w.setChats i ((w.client i).vault.chats.insert chat entry)) other secret) :
    (other = chat ∧ secret = entry.secret) ∨ Holds w other secret := by
  rcases holds_of_setClient h with ⟨kept, hkept, rfl⟩ | h
  · rcases LinearMap.mem_of_mem_insert hkept with hpair | hkept
    · cases hpair
      exact .inl ⟨rfl, rfl⟩
    · exact .inr (.kept hkept)
  · exact .inr h

variable {net}

/-- Only an invite to a normal chat changes which normal chats a client has. -/
theorem holds_of_handleMail {m : Sent ι} {result : Except String Unit} {after : Client}
    (hsent : m ∈ w.sent) (hlength : (m.bytes net).length < capacityLimit)
    (hdone : handleMail net.host net.layout (net.user m.receiver).enc (net.user m.receiver).name
      (w.client m.receiver) (m.bytes net) = .done result after)
    (h : Holds (w.setClient m.receiver after) chat secret) : Holds w chat secret := by
  obtain ⟨i, j, letter⟩ := m
  cases letter with
  | chatInvite invited value coins =>
    cases hdone.symm.trans (handleMail_chatInvite net.lawful value hlength)
    rcases holds_of_insert h with ⟨rfl, rfl⟩ | h
    · exact .invited hsent
    · exact h
  | hardenedInvite invited members coins =>
    cases hdone.symm.trans (handleMail_hardenedInvite net.lawful _ hlength)
    exact holds_of_same h rfl
  | joinRequest invited name coins =>
    rcases handleMail_notifyAboutInvite_done net.lawful hlength hdone with rfl | ⟨vault, hvault, rfl⟩
    · exact holds_of_same h rfl
    · obtain ⟨details, -, rfl⟩ := Option.map_eq_some_iff.mp hvault
      exact holds_of_same h rfl
  | hardenedMessage invited content key nonce aesNonce =>
    have hhandled := hdone.symm.trans
      (handleMail_hardenedMessage content key nonce aesNonce hlength)
    refine holds_of_same h ?_
    rw [(handleHardenedChatMessage_done hhandled.symm).1]

omit [DecidableEq ι] in
/-- A chat that the servers have just created is held by nobody. -/
theorem Agreed.requestChat (h : Agreed w) (i : ι) (hnew : chat ∉ w.created) :
    Agreed { w with creating := (i, chat) :: w.creating, created := chat :: w.created } := by
  have hholds (other : ChatName) (a : Bytes) (hother : Holds
      { w with creating := (i, chat) :: w.creating, created := chat :: w.created } other a) :
      Holds w other a := holds_of_lists hother rfl rfl
  refine ⟨fun other a b ha hb => h.unique other a b (hholds other a ha) (hholds other b hb),
    fun other a ha => h.size other a (hholds other a ha), fun other a ha => ?_, fun e he => ?_, ?_⟩
  · obtain ⟨hcreated, hnot⟩ := h.created other a (hholds other a ha)
    refine ⟨List.mem_cons_of_mem chat hcreated, fun j hj => ?_⟩
    rcases List.mem_cons.mp hj with hpair | hj
    · cases hpair
      exact hnew hcreated
    · exact hnot j hj
  · rcases List.mem_cons.mp he with rfl | he
    · exact List.mem_cons_self
    · exact List.mem_cons_of_mem chat (h.creating e he)
  · refine List.nodup_cons.mpr ⟨fun hmem => ?_, h.nodup⟩
    obtain ⟨e, he, hchat⟩ := List.mem_map.mp hmem
    have hcreated := h.creating e he
    rw [show e.2 = chat from hchat] at hcreated
    exact hnew hcreated

/-- Who created the chat makes the only secret. -/
theorem Agreed.createChat (h : Agreed w) (value : SharedSecret)
    (hrequested : (i, chat) ∈ w.creating) :
    Agreed { w.setChats i ((w.client i).vault.chats.insert chat
      (ClientMail.ChatMeta.fromSecret value)) with creating := w.creating.erase (i, chat) } := by
  have hfree (a : Bytes) : ¬ Holds w chat a := fun ha => (h.created chat a ha).2 i hrequested
  have hholds (other : ChatName) (a : Bytes) (hother : Holds
      { w.setChats i ((w.client i).vault.chats.insert chat
        (ClientMail.ChatMeta.fromSecret value)) with creating := w.creating.erase (i, chat) }
      other a) : (other = chat ∧ a = value.val) ∨ Holds w other a := by
    have hinsert : Holds (w.setChats i ((w.client i).vault.chats.insert chat
        (ClientMail.ChatMeta.fromSecret value))) other a := holds_of_lists hother rfl rfl
    exact holds_of_insert hinsert
  refine ⟨fun other a b ha hb => ?_, fun other a ha => ?_, fun other a ha => ?_,
    fun e he => h.creating e (List.mem_of_mem_erase he), ?_⟩
  · rcases hholds other a ha with ⟨hother, hvalue⟩ | hold
    · rcases hholds other b hb with ⟨-, hvalue'⟩ | hold'
      · rw [hvalue, hvalue']
      · exact absurd (hother ▸ hold') (hfree b)
    · rcases hholds other b hb with ⟨hother, -⟩ | hold'
      · exact absurd (hother ▸ hold) (hfree a)
      · exact h.unique other a b hold hold'
  · rcases hholds other a ha with ⟨-, hvalue⟩ | hold
    · rw [hvalue]
      exact value.property
    · exact h.size other a hold
  · rcases hholds other a ha with ⟨hother, -⟩ | hold
    · subst hother
      refine ⟨h.creating _ hrequested, fun j hj => ?_⟩
      have hperm := (List.perm_cons_erase hrequested).map Prod.snd
      rw [List.map_cons] at hperm
      have hnodup := List.nodup_cons.mp (hperm.nodup_iff.mp h.nodup)
      exact hnodup.1 (List.mem_map.mpr ⟨(j, other), hj, rfl⟩)
    · obtain ⟨hcreated, hnot⟩ := h.created other a hold
      exact ⟨hcreated, fun j hj => hnot j (List.mem_of_mem_erase hj)⟩
  · exact h.nodup.sublist (List.erase_sublist.map Prod.snd)

theorem agreed_step {w' : World ι} {e : Event ι} (h : Agreed w) (hstep : Step net w e w') :
    Agreed w' := by
  cases hstep with
  | requestChat i hnew => exact h.requestChat i hnew
  | createChat value hrequested => exact h.createChat value hrequested
  | @act i chat entry actionNo hentry =>
    refine h.mono (fun other a ha => ?_) rfl rfl
    have hheld : Holds w chat entry.secret := .kept (LinearMap.mem_of_get hentry)
    rcases holds_of_insert ha with ⟨hother, hvalue⟩ | ha
    · rw [hother, hvalue]
      exact hheld
    · exact ha
  | createHardenedChat hnew =>
    exact h.mono (fun chat a ha => holds_of_same ha rfl) rfl rfl
  | @invite i j name chat value coins hname hsecret =>
    refine h.mono (fun other a ha => ?_) rfl rfl
    cases ha with
    | kept ha => exact .kept ha
    | invited ha =>
      rcases List.mem_append.mp ha with ha | ha
      · exact .invited ha
      · cases List.mem_singleton.mp ha
        exact holds_of_chatSecret hsecret
  | inviteHardened members coins hother hname =>
    refine h.mono (fun chat a ha => ?_) rfl rfl
    exact holds_of_send (holds_of_lists ha rfl rfl) (by rintro _ _ _ ⟨⟩)
  | @addMember i before later chat name member vault hinviting hvault =>
    obtain ⟨details, -, rfl⟩ := Option.map_eq_some_iff.mp hvault
    refine h.mono (fun other a ha => ?_) rfl rfl
    exact holds_of_same (w := w) (holds_of_lists ha rfl rfl) rfl
  | receive hsent hlength hdone =>
    refine h.mono (fun chat a ha => ?_) rfl rfl
    exact holds_of_handleMail hsent hlength hdone (holds_of_lists ha rfl rfl)
  | notify coins htasks hmembers hname =>
    refine h.mono (fun chat a ha => ?_) rfl rfl
    exact holds_of_send (holds_of_lists ha rfl rfl) (by rintro _ _ _ ⟨⟩)
  | joinChat htasks hmembers =>
    refine h.mono (fun other a ha => ?_) rfl rfl
    exact holds_of_same (w := w) (holds_of_lists ha rfl rfl) rfl
  | message content nonce aesNonce hchat hmember hreceiver =>
    exact h.mono (fun chat a ha => holds_of_send ha (by rintro _ _ _ ⟨⟩)) rfl rfl

theorem decode_rawChatMessage (message : UserName × Str) :
    rawChatMessage.decode (rawChatMessage.toBytes message) = some (message, []) := by
  have hcodec : Everywhere rawChatMessage := roundTrips_pair (roundTrips_arrayString 32) roundTrips_str
  have hdecoded := hcodec message [] trivial
  rwa [List.append_nil] at hdecoded

theorem chatSecret_eq {vault : Vault} {entry : ChatMeta} {key : SharedSecret}
    (h : vault.chats.get chat = some entry) (hkey : entry.secret = key.val) :
    chatSecret vault chat = some key := by
  have hsize : entry.secret.length = 32 := hkey ▸ key.property
  unfold chatSecret
  rw [h, Option.bind_some, dif_pos hsize]
  exact congrArg some (Subtype.ext hkey)

/-- In every run all who have a normal chat have one secret for it, and what one of them writes the
others read as it was written, with the name of the writer. -/
theorem chats_readable {es : List (Event ι)} {j : ι} {a b : ChatMeta}
    (hrun : Run (Step net) start es w) (ha : (w.client i).vault.chats.get chat = some a)
    (hb : (w.client j).vault.chats.get chat = some b) :
    a.secret = b.secret ∧ ∀ name content nonce, ∃ message,
      sendNormalMessage s (w.client i).vault name chat content nonce = some message ∧
      readNormalMessage s (w.client j).vault chat message = some (name, content) := by
  have hagreed : Agreed w := hrun.stateInvariant agreed_start fun _ _ _ ht hstep =>
    agreed_step ht hstep
  have hholds : Holds w chat a.secret := .kept (LinearMap.mem_of_get ha)
  have hsame := hagreed.unique chat _ _ hholds (.kept (LinearMap.mem_of_get hb))
  obtain ⟨key, hkey⟩ : ∃ key : SharedSecret, a.secret = key.val :=
    ⟨⟨a.secret, hagreed.size chat _ hholds⟩, rfl⟩
  refine ⟨hsame, fun name content nonce =>
    ⟨encrypt s (rawChatMessage.toBytes (name, content)) key nonce, ?_, ?_⟩⟩
  · unfold sendNormalMessage
    rw [chatSecret_eq ha hkey, Option.map_some]
  · unfold readNormalMessage
    rw [chatSecret_eq hb (hsame.symm.trans hkey), Option.bind_eq_bind, Option.bind_some,
      decrypt_encrypt net.lawful, Option.bind_eq_bind, Option.bind_some, decode_rawChatMessage]
    rfl

theorem chats_readable_created : ∃ es w, Run (Step sampleNetwork) start es w ∧
    ∃ a, (w.client false).vault.chats.get sampleName = some a ∧ a.secret = (repeated 32 7).val ∧
      (a.secret = a.secret ∧ ∀ name content nonce, ∃ message,
        sendNormalMessage maskSuite (w.client false).vault name sampleName content nonce =
          some message ∧
        readNormalMessage maskSuite (w.client false).vault sampleName message =
          some (name, content)) := by
  obtain ⟨w, hw⟩ : ∃ w : World Bool, w = { (start : World Bool) with
    creating := [(false, sampleName)], created := [sampleName] } := ⟨_, rfl⟩
  have hrequested : Step sampleNetwork start (.requestChat false sampleName) w := by
    rw [hw]
    exact .requestChat false List.not_mem_nil
  have hcreating : (false, sampleName) ∈ w.creating := by
    rw [hw]
    exact List.mem_singleton_self _
  obtain ⟨w', hw'⟩ : ∃ w' : World Bool, w' = { w.setChats false ((w.client false).vault.chats.insert
    sampleName (ClientMail.ChatMeta.fromSecret (repeated 32 7))) with
      creating := w.creating.erase (false, sampleName) } := ⟨_, rfl⟩
  have hcreated : Step sampleNetwork w (.createChat false sampleName (repeated 32 7)) w' :=
    hw' ▸ .createChat (repeated 32 7) hcreating
  have hkept : (w'.client false).vault.chats.get sampleName =
      some (ClientMail.ChatMeta.fromSecret (repeated 32 7)) := by
    rw [hw']
    change (Function.update w.client false _ false : Client).vault.chats.get sampleName = _
    rw [Function.update_self]
    exact LinearMap.get_insert_self _
  have hrun := (Run.start.next _ hrequested).next _ hcreated
  exact ⟨_, w', hrun, _, hkept, rfl, chats_readable hrun hkept hkept⟩

end Chats

end OrionNetwork.ClientWorld
