import OrionNetwork.ChatAuthorship
import OrionNetwork.ChatUniqueness
import OrionNetwork.Protocols

/-!
# Accepted and rejected chat actions

A node performs the actions of users on the chats it stores. The nonce of a member
is advanced before the action itself is looked at, so an action that is refused
later has used up its proof. Nothing ever takes a nonce back: neither a new chat of
the same name nor a new invitation nor a block of another replica.
-/
namespace OrionNetwork.ChatActions
open Codec MessageBlock BlockHash ChatReplica Proofs ChatAuthorship Runs
open Protocols (CreateChatError)

variable {host : Host} {scheme : Verify} {node : ChatAuthorship.Node} {proof : Proof ChatName}
  {action : ChatAction}

/-- The node with a chat in its place. -/
def store (node : ChatAuthorship.Node) (name : ChatName) (chat : Chat) : ChatAuthorship.Node :=
  ⟨Function.update node.chats name (some chat)⟩

/-- The chat after the nonce of its member moved forward. -/
def advanced (chat : Chat) (sender : Identity) (nonce : Nonce) : Chat :=
  { chat with members := Function.update chat.members sender (some nonce) }

def Verified (host : Host) (scheme : Verify) (proof : Proof ChatName) : Prop :=
  verify host scheme ⟨proof.pk, proof.nonce, proof.signature, .chatName proof.context⟩ = true

instance : Decidable (Verified host scheme proof) := inferInstanceAs (Decidable (_ = _))

@[simp] theorem store_self (name : ChatName) (chat : Chat) :
    (store node name chat).chats name = some chat :=
  Function.update_self _ _ _

theorem store_of_ne {name other : ChatName} (h : other ≠ name) (chat : Chat) :
    (store node name chat).chats other = node.chats other :=
  Function.update_of_ne h _ _

theorem store_eq {name : ChatName} {chat : Chat} (h : node.chats name = some chat) :
    store node name chat = node := by
  unfold store
  rw [← h, Function.update_eq_self]

section Shapes

/-- Every way a request can be answered. The first four leave the node as it is;
the later ones come after the nonce was advanced. -/
inductive ExecuteShape (host : Host) (scheme : Verify) (node : ChatAuthorship.Node)
    (proof : Proof ChatName) :
    ChatAction → ChatAuthorship.Node → Except ChatActionError Unit → Prop where
  | invalidProof {action : ChatAction} (hverify : ¬ Verified host scheme proof) :
      ExecuteShape host scheme node proof action node (.error .invalidProof)
  | chatNotFound {action : ChatAction} (hverify : Verified host scheme proof)
      (hchat : node.chats proof.context = none) :
      ExecuteShape host scheme node proof action node (.error .chatNotFound)
  | notMember {action : ChatAction} {chat : Chat} (hverify : Verified host scheme proof)
      (hchat : node.chats proof.context = some chat)
      (hsender : chat.members (host.blake3 proof.pk) = none) :
      ExecuteShape host scheme node proof action node (.error .notMember)
  | invalidAction {action : ChatAction} {chat : Chat} {current : Nonce}
      (hverify : Verified host scheme proof) (hchat : node.chats proof.context = some chat)
      (hsender : chat.members (host.blake3 proof.pk) = some current)
      (hstale : proof.nonce ≤ current) :
      ExecuteShape host scheme node proof action node (.error (.invalidAction current))
  | alreadyMember {id : Identity} {chat : Chat} {current : Nonce}
      (hverify : Verified host scheme proof) (hchat : node.chats proof.context = some chat)
      (hsender : chat.members (host.blake3 proof.pk) = some current)
      (hfresh : current < proof.nonce) (hid : (chat.members id).isSome) :
      ExecuteShape host scheme node proof (.addUser id)
        (store node proof.context (advanced chat (host.blake3 proof.pk) proof.nonce))
        (.error .alreadyMember)
  | added {id : Identity} {chat : Chat} {current : Nonce}
      (hverify : Verified host scheme proof) (hchat : node.chats proof.context = some chat)
      (hsender : chat.members (host.blake3 proof.pk) = some current)
      (hfresh : current < proof.nonce) (hid : chat.members id = none) :
      ExecuteShape host scheme node proof (.addUser id)
        (store node proof.context
          (advanced (advanced chat (host.blake3 proof.pk) proof.nonce) id 0)) (.ok ())
  | messageTooLarge {msg : Bytes} {chat : Chat} {current : Nonce}
      (hverify : Verified host scheme proof) (hchat : node.chats proof.context = some chat)
      (hsender : chat.members (host.blake3 proof.pk) = some current)
      (hfresh : current < proof.nonce) (hlarge : maxMessageSize < msg.length) :
      ExecuteShape host scheme node proof (.sendMessage msg)
        (store node proof.context (advanced chat (host.blake3 proof.pk) proof.nonce))
        (.error .messageTooLarge)
  | messageBlockNotFinalized {msg : Bytes} {chat : Chat} {current : Nonce}
      (hverify : Verified host scheme proof) (hchat : node.chats proof.context = some chat)
      (hsender : chat.members (host.blake3 proof.pk) = some current)
      (hfresh : current < proof.nonce) (hsize : msg.length ≤ maxMessageSize)
      (hfull : blockSize < chat.currentBlock.length +
        (encodeMessage (host.blake3 proof.pk) (proof.nonce - 1) msg).length + packetLenWidth)
      (hstage : (∃ own others, chat.stage = .unfinalized (some own) others) ∨
        ∃ h, chat.stage = .recovering h true) :
      ExecuteShape host scheme node proof (.sendMessage msg)
        (store node proof.context (advanced chat (host.blake3 proof.pk) proof.nonce))
        (.error .messageBlockNotFinalized)
  | sent {msg : Bytes} {chat : Chat} {current : Nonce}
      {out : Outcome (Except (Option Hash) Unit)}
      (hverify : Verified host scheme proof) (hchat : node.chats proof.context = some chat)
      (hsender : chat.members (host.blake3 proof.pk) = some current)
      (hfresh : current < proof.nonce) (hsize : msg.length ≤ maxMessageSize)
      (hpush : PushShape host (advanced chat (host.blake3 proof.pk) proof.nonce)
        (encodeMessage (host.blake3 proof.pk) (proof.nonce - 1) msg) out)
      (hreply : out.reply ≠ .error none) :
      ExecuteShape host scheme node proof (.sendMessage msg)
        (store node proof.context out.chat) (.ok ())

/-- The message arm, once the nonce has been advanced. -/
theorem sendMessage_shape {msg : Bytes} {chat : Chat} {current : Nonce} {out : Outcome ActionReply}
    (hverify : Verified host scheme proof) (hchat : node.chats proof.context = some chat)
    (hsender : chat.members (host.blake3 proof.pk) = some current)
    (hfresh : current < proof.nonce)
    (h : sendMessage host (advanced chat (host.blake3 proof.pk) proof.nonce)
      (host.blake3 proof.pk) proof.nonce msg = .ok out) :
    ExecuteShape host scheme node proof (.sendMessage msg) (store node proof.context out.chat)
      out.reply.result := by
  unfold sendMessage at h
  split_ifs at h with hlarge
  · cases h
    exact .messageTooLarge hverify hchat hsender hfresh hlarge
  · have hsize : msg.length ≤ maxMessageSize := Nat.le_of_not_lt hlarge
    cases hpush : pushMessage host (advanced chat (host.blake3 proof.pk) proof.nonce)
        (encodeMessage (host.blake3 proof.pk) (proof.nonce - 1) msg) with
    | error p =>
      rw [hpush] at h
      cases h
    | ok pushed =>
      rw [hpush] at h
      have hshape := pushMessage_shape hpush
      cases hshape with
      | blocked hfull hstage =>
        cases h
        exact .messageBlockNotFinalized hverify hchat hsender hfresh hsize hfull hstage
      | _ =>
        cases h
        exact .sent hverify hchat hsender hfresh hsize (pushMessage_shape hpush) (by simp)

/-- A member stays one when its nonce moves. -/
theorem isSome_advanced {chat : Chat} {sender : Identity} {current nonce : Nonce}
    (hsender : chat.members sender = some current) (id : Identity) :
    ((advanced chat sender nonce).members id).isSome = (chat.members id).isSome := by
  unfold advanced
  by_cases hid : id = sender
  · subst hid
    simp [hsender]
  · simp [Function.update_of_ne hid]

/-- The invitation arm, once the nonce has been advanced. -/
theorem addUser_shape {id : Identity} {chat : Chat} {current : Nonce} {out : Outcome ActionReply}
    (hverify : Verified host scheme proof) (hchat : node.chats proof.context = some chat)
    (hsender : chat.members (host.blake3 proof.pk) = some current)
    (hfresh : current < proof.nonce)
    (h : (if ((advanced chat (host.blake3 proof.pk) proof.nonce).members id).isSome then
        .ok (rejected (advanced chat (host.blake3 proof.pk) proof.nonce) .alreadyMember)
      else
        .ok ⟨advanced (advanced chat (host.blake3 proof.pk) proof.nonce) id 0,
          ⟨.ok (), none, false⟩, none⟩ : Except Panic (Outcome ActionReply)) = .ok out) :
    ExecuteShape host scheme node proof (.addUser id) (store node proof.context out.chat)
      out.reply.result := by
  rw [isSome_advanced hsender] at h
  split_ifs at h with hid
  · cases h
    exact .alreadyMember hverify hchat hsender hfresh hid
  · cases h
    exact .added hverify hchat hsender hfresh (by simpa using hid)

theorem execute_shape {after : ChatAuthorship.Node} {reply : Except ChatActionError Unit}
    (h : execute host scheme node proof action = .ok (after, reply)) :
    ExecuteShape host scheme node proof action after reply := by
  unfold execute at h
  split_ifs at h with hproof
  · cases h
    exact .invalidProof (by simpa [Verified] using hproof)
  have hverify : Verified host scheme proof := by simpa [Verified] using hproof
  cases hchat : node.chats proof.context with
  | none =>
    rw [hchat] at h
    cases h
    exact .chatNotFound hverify hchat
  | some chat =>
    rw [hchat] at h
    simp only at h
    cases hperform : performChatAction host chat ⟨true, proof.pk, proof.nonce⟩ action with
    | error p =>
      rw [hperform] at h
      cases h
    | ok out =>
      rw [hperform] at h
      cases h
      change ExecuteShape host scheme node proof action (store node proof.context out.chat) _
      unfold performChatAction at hperform
      simp only [Bool.not_true, Bool.false_eq_true, if_false] at hperform
      cases hsender : chat.members (host.blake3 proof.pk) with
      | none =>
        rw [hsender] at hperform
        cases hperform
        rw [rejected, store_eq hchat]
        exact .notMember hverify hchat hsender
      | some current =>
        rw [hsender] at hperform
        by_cases hfresh : current < proof.nonce
        · have hadvance : advanceNonce current proof.nonce = some proof.nonce := if_pos hfresh
          simp only [hadvance] at hperform
          cases action with
          | addUser id => exact addUser_shape hverify hchat hsender hfresh hperform
          | sendMessage msg => exact sendMessage_shape hverify hchat hsender hfresh hperform
        · have hadvance : advanceNonce current proof.nonce = none := if_neg hfresh
          simp only [hadvance] at hperform
          cases hperform
          rw [rejected, store_eq hchat]
          exact .invalidAction hverify hchat hsender (UInt64.not_lt.mp hfresh)

end Shapes

section Rejected

/-- What is looked at only after the nonce was advanced: an invited identity that is
a member, a message above the limit, a message that does not fit the open block
while the previous one is not finalized. -/
def Refused (host : Host) (chat : Chat) (proof : Proof ChatName) : ChatAction → Prop
  | .addUser id => (chat.members id).isSome
  | .sendMessage msg => maxMessageSize < msg.length ∨
      (blockSize < chat.currentBlock.length +
          (encodeMessage (host.blake3 proof.pk) (proof.nonce - 1) msg).length + packetLenWidth ∧
        ((∃ own others, chat.stage = .unfinalized (some own) others) ∨
          ∃ h, chat.stage = .recovering h true))

/-- The request is refused with its nonce used up. -/
def UsesUp (host : Host) (scheme : Verify) (node : ChatAuthorship.Node) (proof : Proof ChatName)
    (action : ChatAction) : Prop :=
  Verified host scheme proof ∧ ∃ chat current, node.chats proof.context = some chat ∧
    chat.members (host.blake3 proof.pk) = some current ∧ current < proof.nonce ∧
    Refused host chat proof action

theorem store_advanced_ne {chat : Chat} {current : Nonce}
    (hchat : node.chats proof.context = some chat)
    (hsender : chat.members (host.blake3 proof.pk) = some current)
    (hfresh : current < proof.nonce) :
    store node proof.context (advanced chat (host.blake3 proof.pk) proof.nonce) ≠ node := by
  intro heq
  have hstored := congrArg (fun n => n.chats proof.context) heq
  simp only [store_self, hchat, Option.some.injEq] at hstored
  have hmembers := congrArg (fun c => c.members (host.blake3 proof.pk)) hstored
  simp only [advanced, Function.update_self, hsender, Option.some.injEq] at hmembers
  rw [hmembers] at hfresh
  exact UInt64.lt_irrefl _ hfresh

/-- A message that does not fit is refused while a block waits. -/
theorem pushMessage_blocked {chat : Chat} {msg : Bytes}
    (hfull : blockSize < chat.currentBlock.length + msg.length + packetLenWidth)
    (hstage : (∃ own others, chat.stage = .unfinalized (some own) others) ∨
      ∃ h, chat.stage = .recovering h true) :
    pushMessage host chat msg = .ok ⟨chat, .error none, none⟩ := by
  have hpush : tryPush chat.currentBlock msg = none := if_neg (Nat.not_le_of_lt hfull)
  unfold pushMessage
  rw [hpush]
  rcases hstage with ⟨own, others, hstage⟩ | ⟨hash, hstage⟩
  · simp only [hstage]
  · simp only [hstage]

/-- The arms after the nonce has been advanced answer with an error. -/
theorem execute_of_usesUp {chat : Chat} {current : Nonce} (hverify : Verified host scheme proof)
    (hchat : node.chats proof.context = some chat)
    (hsender : chat.members (host.blake3 proof.pk) = some current)
    (hfresh : current < proof.nonce) (hrefused : Refused host chat proof action) :
    ∃ err, execute host scheme node proof action =
      .ok (store node proof.context (advanced chat (host.blake3 proof.pk) proof.nonce),
        .error err) := by
  have hadvance : advanceNonce current proof.nonce = some proof.nonce := if_pos hfresh
  have hproof : (!verify host scheme
      ⟨proof.pk, proof.nonce, proof.signature, .chatName proof.context⟩) = false := by
    rw [Bool.not_eq_false']
    exact hverify
  unfold execute performChatAction
  rw [hproof, hchat]
  simp only [Bool.false_eq_true, if_false, Bool.not_true, hsender, hadvance]
  cases action with
  | addUser id =>
    have hid : ((advanced chat (host.blake3 proof.pk) proof.nonce).members id).isSome = true :=
      (isSome_advanced hsender id).trans hrefused
    refine ⟨.alreadyMember, ?_⟩
    unfold advanced at hid
    simp only [hid, if_true]
    rfl
  | sendMessage msg =>
    unfold sendMessage
    by_cases hlarge : maxMessageSize < msg.length
    · refine ⟨.messageTooLarge, ?_⟩
      simp only [gt_iff_lt, hlarge, if_true]
      rfl
    · refine ⟨.messageBlockNotFinalized, ?_⟩
      obtain ⟨hfull, hstage⟩ := hrefused.resolve_left hlarge
      have hpush : pushMessage host (advanced chat (host.blake3 proof.pk) proof.nonce) _ = _ :=
        pushMessage_blocked hfull hstage
      unfold advanced at hpush
      simp only [gt_iff_lt, hlarge, if_false, hpush]
      rfl

/-- An action that is refused leaves the chats of the node as they were exactly
when its refusal comes before its nonce is advanced. -/
theorem refused_unchanged_iff (host : Host) (scheme : Verify) (node : ChatAuthorship.Node)
    (proof : Proof ChatName) (action : ChatAction) :
    (∀ after err, execute host scheme node proof action = .ok (after, .error err) →
      after = node) ↔ ¬ UsesUp host scheme node proof action := by
  constructor
  · rintro hunchanged ⟨hverify, chat, current, hchat, hsender, hfresh, hrefused⟩
    obtain ⟨err, hexecute⟩ := execute_of_usesUp hverify hchat hsender hfresh hrefused
    exact store_advanced_ne hchat hsender hfresh (hunchanged _ err hexecute)
  · intro hnot after err hexecute
    generalize hreply : (Except.error err : Except ChatActionError Unit) = reply at hexecute
    cases execute_shape hexecute with
    | alreadyMember hverify hchat hsender hfresh hid =>
      exact absurd ⟨hverify, _, _, hchat, hsender, hfresh, hid⟩ hnot
    | messageTooLarge hverify hchat hsender hfresh hlarge =>
      exact absurd ⟨hverify, _, _, hchat, hsender, hfresh, .inl hlarge⟩ hnot
    | messageBlockNotFinalized hverify hchat hsender hfresh hsize hfull hstage =>
      exact absurd ⟨hverify, _, _, hchat, hsender, hfresh, .inr ⟨hfull, hstage⟩⟩ hnot
    | added => cases hreply
    | sent => cases hreply
    | _ => rfl

theorem sample_members :
    (new (sampleHost.blake3 [97])).members (sampleHost.blake3 [97]) = some 0 := by
  simp [new]

/-- The creator of a chat invites itself: the request is refused, and its nonce is
taken all the same. -/
theorem refused_uses_nonce : ∃ after err,
    execute sampleHost (sampleScheme 7) sampleNode (sampleProof 7)
      (.addUser (sampleHost.blake3 [97])) = .ok (after, .error err) ∧ after ≠ sampleNode := by
  have hrefused : Refused sampleHost (new (sampleHost.blake3 [97])) (sampleProof 7)
      (.addUser (sampleHost.blake3 [97])) := by
    simp [Refused, sample_members]
  have hverify : Verified sampleHost (sampleScheme 7) (sampleProof 7) := verify_sampleProof 7
  have hchat : sampleNode.chats (sampleProof 7).context = some (new (sampleHost.blake3 [97])) := rfl
  obtain ⟨err, hexecute⟩ :=
    execute_of_usesUp hverify hchat sample_members (by decide) hrefused
  exact ⟨_, err, hexecute, store_advanced_ne hchat sample_members (by decide)⟩

end Rejected

section Accepted

/-- `CreateChat::execute`: the name of a chat is taken once. -/
def createChat (node : ChatAuthorship.Node) (name : ChatName) (identity : Identity) :
    ChatAuthorship.Node × Except CreateChatError Unit :=
  match node.chats name with
  | some _ => (node, .error .alreadyExists)
  | none => (store node name (new identity), .ok ())

/-- What reaches a node. The slot of the replicator that a vote or a block comes from
is known from outside; there is none when the sender is no replicator. -/
inductive Request where
  | createChat (name : ChatName) (identity : Identity)
  | performChatAction (proof : Proof ChatName) (action : ChatAction)
  | proposeMsgBlock (name : ChatName) (index : Option Slot) (number : ℕ) (hash : Hash)
  | sendBlock (name : ChatName) (index : Option Slot) (number : ℕ) (block : Bytes)

/-- A node with the proofs it accepted, newest first. -/
structure Ledger where
  node : ChatAuthorship.Node
  accepted : List (Proof ChatName)

def noteAccepted (proof : Proof ChatName) (accepted : List (Proof ChatName)) :
    Except ChatActionError Unit → List (Proof ChatName)
  | .ok () => proof :: accepted
  | .error _ => accepted

/-- One handled request. A panicking handler has no step. -/
inductive Step (host : Host) (scheme : Verify) (s : Ledger) : Request → Ledger → Prop where
  | createChat (name : ChatName) (identity : Identity) :
      Step host scheme s (.createChat name identity)
        ⟨(createChat s.node name identity).1, s.accepted⟩
  | performChatAction {proof : Proof ChatName} {action : ChatAction} {after : ChatAuthorship.Node}
      {reply : Except ChatActionError Unit}
      (h : execute host scheme s.node proof action = .ok (after, reply)) :
      Step host scheme s (.performChatAction proof action)
        ⟨after, noteAccepted proof s.accepted reply⟩
  | proposeMsgBlock {name : ChatName} {index : Slot} {number : ℕ} {hash : Hash} {chat : Chat}
      {out : Outcome ProposeReply} (hchat : s.node.chats name = some chat)
      (h : proposeMsgBlock host chat index number hash = .ok out) :
      Step host scheme s (.proposeMsgBlock name (some index) number hash)
        ⟨store s.node name out.chat, s.accepted⟩
  | sendBlock {name : ChatName} {index : Slot} {number : ℕ} {block : Bytes} {chat : Chat}
      {out : Outcome (Except SendBlockError Unit)} (hchat : s.node.chats name = some chat)
      (h : sendBlock host chat index number block = .ok out) :
      Step host scheme s (.sendBlock name (some index) number block)
        ⟨store s.node name out.chat, s.accepted⟩
  | proposeRefused {name : ChatName} {index : Option Slot} {number : ℕ} {hash : Hash}
      (hnone : index = none ∨ s.node.chats name = none) :
      Step host scheme s (.proposeMsgBlock name index number hash) s
  | sendRefused {name : ChatName} {index : Option Slot} {number : ℕ} {block : Bytes}
      (hnone : index = none ∨ s.node.chats name = none) :
      Step host scheme s (.sendBlock name index number block) s

/-- The nonce of a member of a chat is at least the given one. -/
def Reached (node : ChatAuthorship.Node) (name : ChatName) (id : Identity) (nonce : Nonce) : Prop :=
  ∃ chat last, node.chats name = some chat ∧ chat.members id = some last ∧ nonce ≤ last

/-- Members stay with nonces that only grow. -/
def Grows (before after : Chat) : Prop :=
  ∀ id last, before.members id = some last → ∃ last', after.members id = some last' ∧ last ≤ last'

theorem Grows.of_members_eq {before after : Chat} (h : after.members = before.members) :
    Grows before after := by
  intro id last hlast
  exact ⟨last, by rw [h, hlast], UInt64.le_refl _⟩

theorem grows_advanced {chat : Chat} {sender : Identity} {current nonce : Nonce}
    (hsender : chat.members sender = some current) (hle : current ≤ nonce) :
    Grows chat (advanced chat sender nonce) := by
  intro id last hlast
  by_cases hid : id = sender
  · subst hid
    rw [hsender] at hlast
    cases hlast
    exact ⟨nonce, Function.update_self _ _ _, hle⟩
  · exact ⟨last, (Function.update_of_ne hid _ _).trans hlast, UInt64.le_refl _⟩

/-- A stranger has no nonce to lose. -/
theorem grows_invited {chat : Chat} {id : Identity} (hid : chat.members id = none) :
    Grows chat (advanced chat id 0) := by
  intro other last hlast
  have hne : other ≠ id := by
    rintro rfl
    rw [hid] at hlast
    cases hlast
  exact ⟨last, (Function.update_of_ne hne _ _).trans hlast, UInt64.le_refl _⟩

theorem Grows.trans {a b c : Chat} (h : Grows a b) (h' : Grows b c) : Grows a c := by
  intro id last hlast
  obtain ⟨middle, hmiddle, hle⟩ := h id last hlast
  obtain ⟨final, hfinal, hle'⟩ := h' id middle hmiddle
  exact ⟨final, hfinal, UInt64.le_trans hle hle'⟩

theorem Reached.store {name other : ChatName} {id : Identity} {nonce : Nonce} {before after : Chat}
    (h : Reached node other id nonce) (hbefore : node.chats name = some before)
    (hgrows : Grows before after) : Reached (store node name after) other id nonce := by
  obtain ⟨chat, last, hchat, hlast, hle⟩ := h
  by_cases hname : other = name
  · subst hname
    rw [hbefore] at hchat
    cases hchat
    obtain ⟨last', hlast', hle'⟩ := hgrows id last hlast
    exact ⟨after, last', store_self _ _, hlast', UInt64.le_trans hle hle'⟩
  · exact ⟨chat, last, (store_of_ne hname after).trans hchat, hlast, hle⟩

theorem members_of_push {chat : Chat} {msg : Bytes} {out : Outcome (Except (Option Hash) Unit)}
    (h : PushShape host chat msg out) : out.chat.members = chat.members := by
  cases h <;> rfl

theorem members_of_propose {chat after : Chat} {index : Slot} {number : ℕ} {hash : Hash}
    {pushed : Option (ℕ × Hash)} (h : ProposeShape host chat index number hash after pushed) :
    after.members = chat.members := by
  cases h <;> rfl

theorem members_of_send {chat : Chat} {index : Slot} {number : ℕ} {block : Bytes}
    {out : Outcome (Except SendBlockError Unit)}
    (h : SendShape host chat index number block out) : out.chat.members = chat.members := by
  cases h <;> rfl

/-- Performing an action, whatever it is answered with, takes no nonce back. -/
theorem Reached.execute {name : ChatName} {id : Identity} {nonce : Nonce}
    {after : ChatAuthorship.Node} {reply : Except ChatActionError Unit}
    (h : Reached node name id nonce)
    (hexecute : execute host scheme node proof action = .ok (after, reply)) :
    Reached after name id nonce := by
  cases execute_shape hexecute with
  | alreadyMember _ hchat hsender hfresh _ =>
    exact h.store hchat (grows_advanced hsender (UInt64.le_of_lt hfresh))
  | messageTooLarge _ hchat hsender hfresh _ =>
    exact h.store hchat (grows_advanced hsender (UInt64.le_of_lt hfresh))
  | messageBlockNotFinalized _ hchat hsender hfresh _ _ _ =>
    exact h.store hchat (grows_advanced hsender (UInt64.le_of_lt hfresh))
  | @added id chat current _ hchat hsender hfresh hid =>
    have hstranger : (advanced chat (host.blake3 proof.pk) proof.nonce).members id = none := by
      rw [← Option.not_isSome_iff_eq_none, isSome_advanced hsender, hid]
      exact Bool.false_ne_true
    exact h.store hchat
      ((grows_advanced hsender (UInt64.le_of_lt hfresh)).trans (grows_invited hstranger))
  | sent _ hchat hsender hfresh _ hpush _ =>
    exact h.store hchat ((grows_advanced hsender (UInt64.le_of_lt hfresh)).trans
      (.of_members_eq (members_of_push hpush)))
  | _ => exact h

/-- No request takes a nonce back. -/
theorem Reached.step {s t : Ledger} {r : Request} {name : ChatName} {id : Identity} {nonce : Nonce}
    (h : Reached s.node name id nonce) (hstep : Step host scheme s r t) :
    Reached t.node name id nonce := by
  cases hstep with
  | createChat other identity =>
    unfold createChat
    cases hother : s.node.chats other with
    | some chat => exact h
    | none =>
      obtain ⟨chat, last, hchat, hlast, hle⟩ := h
      have hne : name ≠ other := by
        rintro rfl
        rw [hother] at hchat
        cases hchat
      exact ⟨chat, last, (store_of_ne hne _).trans hchat, hlast, hle⟩
  | performChatAction hexecute => exact h.execute hexecute
  | proposeMsgBlock hchat hpropose =>
    exact h.store hchat (.of_members_eq (members_of_propose (proposeMsgBlock_shape hpropose)))
  | sendBlock hchat hsend =>
    exact h.store hchat (.of_members_eq (members_of_send (sendBlock_shape hsend)))
  | proposeRefused => exact h
  | sendRefused => exact h

/-- An accepted action moves the nonce of its author from a lower one. -/
theorem accepted_advances {after : ChatAuthorship.Node}
    (h : execute host scheme node proof action = .ok (after, .ok ())) :
    Verified host scheme proof ∧
    (∃ chat current, node.chats proof.context = some chat ∧
      chat.members (host.blake3 proof.pk) = some current ∧ current < proof.nonce) ∧
    Reached after proof.context (host.blake3 proof.pk) proof.nonce := by
  cases execute_shape h with
  | @added id chat current hverify hchat hsender hfresh hid =>
    have hne : host.blake3 proof.pk ≠ id := by
      rintro rfl
      rw [hsender] at hid
      cases hid
    refine ⟨hverify, ⟨chat, current, hchat, hsender, hfresh⟩, _, proof.nonce, store_self _ _, ?_,
      UInt64.le_refl _⟩
    simp only [advanced, Function.update_of_ne hne, Function.update_self]
  | @sent msg chat current out hverify hchat hsender hfresh hsize hpush hreply =>
    refine ⟨hverify, ⟨chat, current, hchat, hsender, hfresh⟩, _, proof.nonce, store_self _ _, ?_,
      UInt64.le_refl _⟩
    rw [members_of_push hpush]
    exact Function.update_self _ _ _

/-- Accepted proofs verify, and their authors stay at their nonces or beyond. Of two
by one author for one chat the later has the higher nonce. -/
structure Spent (host : Host) (scheme : Verify) (s : Ledger) : Prop where
  verified : ∀ p ∈ s.accepted, Verified host scheme p
  reached : ∀ p ∈ s.accepted, Reached s.node p.context (host.blake3 p.pk) p.nonce
  increasing : s.accepted.Pairwise fun later earlier => later.context = earlier.context →
    host.blake3 later.pk = host.blake3 earlier.pk → earlier.nonce < later.nonce

theorem Spent.step {s t : Ledger} {r : Request} (h : Spent host scheme s)
    (hstep : Step host scheme s r t) : Spent host scheme t := by
  have hreached : ∀ p ∈ s.accepted, Reached t.node p.context (host.blake3 p.pk) p.nonce :=
    fun p hp => (h.reached p hp).step hstep
  cases hstep with
  | @performChatAction proof action after reply hexecute =>
    cases reply with
    | error err => exact ⟨h.verified, hreached, h.increasing⟩
    | ok done =>
      obtain ⟨hverify, ⟨chat, current, hchat, hsender, hfresh⟩, hafter⟩ :=
        accepted_advances hexecute
      refine ⟨List.forall_mem_cons.mpr ⟨hverify, h.verified⟩,
        List.forall_mem_cons.mpr ⟨hafter, hreached⟩, List.pairwise_cons.mpr ⟨?_, h.increasing⟩⟩
      intro earlier hearlier hcontext hauthor
      obtain ⟨chat', last, hchat', hlast, hle⟩ := h.reached earlier hearlier
      rw [← hcontext, hchat] at hchat'
      cases hchat'
      rw [← hauthor, hsender] at hlast
      cases hlast
      exact UInt64.lt_of_le_of_lt hle hfresh
  | _ => exact ⟨h.verified, hreached, h.increasing⟩

/-- A proof whose nonce was reached is refused with the nonce that is current. -/
theorem execute_spent (hverify : Verified host scheme proof)
    (hreached : Reached node proof.context (host.blake3 proof.pk) proof.nonce) :
    ∃ current, execute host scheme node proof action =
      .ok (node, .error (.invalidAction current)) := by
  obtain ⟨chat, last, hchat, hlast, hle⟩ := hreached
  have hadvance : advanceNonce last proof.nonce = none := if_neg (UInt64.not_lt.mpr hle)
  have hproof : (!verify host scheme
      ⟨proof.pk, proof.nonce, proof.signature, .chatName proof.context⟩) = false := by
    rw [Bool.not_eq_false']
    exact hverify
  refine ⟨last, ?_⟩
  unfold execute performChatAction
  rw [hproof, hchat]
  simp only [Bool.false_eq_true, if_false, Bool.not_true, hlast, hadvance, rejected]
  exact congrArg (fun n => Except.ok (n, _)) (store_eq hchat)

/-- A message that was taken is the newest one of the open block. -/
theorem head_of_push {chat : Chat} {msg : Bytes} {out : Outcome (Except (Option Hash) Unit)}
    (h : PushShape host chat msg out) (hreply : out.reply ≠ .error none)
    (hmsg : msg.length < 65536) :
    (unpackMessages out.chat.currentBlock).head? = some msg := by
  have hframe : (unpackMessages (frame msg)).head? = some msg := by
    rw [← List.nil_append (frame msg), unpackMessages_append_frame _ _ hmsg, List.head?_cons]
  cases h with
  | stored => rw [unpackMessages_append_frame _ _ hmsg, List.head?_cons]
  | blocked => exact absurd rfl hreply
  | finalized => exact hframe
  | proposed => exact hframe
  | discarded => exact hframe

/-- The nonce in a message is one below that of its proof, which is not zero. -/
theorem accepted_message {msg : Bytes} {after : ChatAuthorship.Node}
    (h : execute host scheme node proof (.sendMessage msg) = .ok (after, .ok ())) :
    ∃ chat, after.chats proof.context = some chat ∧
      (unpackMessages chat.currentBlock).head? =
        some (encodeMessage (host.blake3 proof.pk) (proof.nonce - 1) msg) ∧
      (proof.nonce - 1).toNat + 1 = proof.nonce.toNat := by
  cases execute_shape h with
  | @sent _ chat current out hverify hchat hsender hfresh hsize hpush hreply =>
    have hlength : (encodeMessage (host.blake3 proof.pk) (proof.nonce - 1) msg).length < 65536 :=
      length_encodeMessage_lt hsize
    have hpos : 1 ≤ proof.nonce := by
      rw [UInt64.lt_iff_toNat_lt] at hfresh
      rw [UInt64.le_iff_toNat_le, UInt64.toNat_one]
      omega
    refine ⟨out.chat, store_self _ _, head_of_push hpush hreply hlength, ?_⟩
    rw [UInt64.le_iff_toNat_le] at hpos
    rw [UInt64.toNat_sub_of_le _ _ (UInt64.le_iff_toNat_le.mpr hpos), UInt64.toNat_one]
    rw [UInt64.toNat_one] at hpos
    omega

/-- Whatever a node handles, the nonces of the actions it accepts of a member of a
chat increase, a proof it accepted is refused from then on, no member ever falls
back, and a message carries the nonce of its proof less one. -/
theorem accepted_once (host : Host) (scheme : Verify) (start : ChatAuthorship.Node)
    (requests : List Request) (s : Ledger)
    (h : Run (Step host scheme) ⟨start, []⟩ requests s) :
    (s.accepted.Pairwise fun later earlier => later.context = earlier.context →
      host.blake3 later.pk = host.blake3 earlier.pk → earlier.nonce < later.nonce) ∧
    (∀ p ∈ s.accepted, ∀ action, ∃ current,
      execute host scheme s.node p action = .ok (s.node, .error (.invalidAction current))) ∧
    (∀ name id nonce, Reached start name id nonce → Reached s.node name id nonce) ∧
    ∀ proof msg after,
      execute host scheme s.node proof (.sendMessage msg) = .ok (after, .ok ()) →
      ∃ chat, after.chats proof.context = some chat ∧
        (unpackMessages chat.currentBlock).head? =
          some (encodeMessage (host.blake3 proof.pk) (proof.nonce - 1) msg) ∧
        (proof.nonce - 1).toNat + 1 = proof.nonce.toNat := by
  have hstart : Spent host scheme ⟨start, []⟩ := by
    refine ⟨?_, ?_, List.Pairwise.nil⟩
    · intro p hp
      cases hp
    · intro p hp
      cases hp
  have hspent : Spent host scheme s := h.stateInvariant hstart fun _ _ _ hs hstep => hs.step hstep
  refine ⟨hspent.increasing, ?_, ?_, fun proof msg after => accepted_message⟩
  · intro p hp action
    exact execute_spent (hspent.verified p hp) (hspent.reached p hp)
  · intro name id nonce hreached
    exact h.stateInvariant (P := fun s => Reached s.node name id nonce) hreached
      fun _ _ _ hs hstep => hs.step hstep

/-- The creator of a chat invites another user; the proof cannot be used again. -/
theorem accepted_once_invitation : ∃ s,
    Run (Step sampleHost (sampleScheme 7)) ⟨sampleNode, []⟩
        [.createChat nameA Hash.zero, .performChatAction (sampleProof 7) (.addUser Hash.zero)] s ∧
      s.accepted = [sampleProof 7] ∧
      ∀ action, ∃ current, execute sampleHost (sampleScheme 7) s.node (sampleProof 7) action =
        .ok (s.node, .error (.invalidAction current)) := by
  have hother : Hash.zero ≠ sampleHost.blake3 [97] := by decide
  have hchat : sampleNode.chats (sampleProof 7).context = some (new (sampleHost.blake3 [97])) := rfl
  obtain ⟨after, hafter⟩ := accepted_addUser (verify_sampleProof 7) hchat sample_members
    (by decide) (if_neg hother)
  have hcreate : Step sampleHost (sampleScheme 7) ⟨sampleNode, []⟩ (.createChat nameA Hash.zero)
      ⟨sampleNode, []⟩ := .createChat nameA Hash.zero
  have hrun := (Run.single hcreate).append (Run.single (Step.performChatAction hafter))
  obtain ⟨-, hreplay, -, -⟩ := accepted_once _ _ _ _ _ hrun
  exact ⟨_, hrun, rfl, hreplay _ (List.mem_singleton.mpr rfl)⟩

end Accepted

end OrionNetwork.ChatActions
