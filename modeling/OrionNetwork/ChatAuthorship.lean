import OrionNetwork.Proofs

/-!
# Authorship of chat actions

A node performs the action of a request when the proof in it verifies, its
author is a member of the chat and its nonce is new. The signed bytes are the
name of the chat and the nonce, so nothing ties the action to the proof.
-/
namespace OrionNetwork.ChatAuthorship
open Codec BlockHash ChatReplica Proofs

/-- The chats a node stores. -/
structure Node where
  chats : ChatName → Option Chat

/-- `PerformChatAction::execute`. -/
def execute (host : Host) (scheme : Verify) (node : Node) (proof : Proof ChatName)
    (action : ChatAction) : Except Panic (Node × Except ChatActionError Unit) :=
  if !verify host scheme ⟨proof.pk, proof.nonce, proof.signature, .chatName proof.context⟩ then
    .ok (node, .error .invalidProof)
  else
    match node.chats proof.context with
    | none => .ok (node, .error .chatNotFound)
    | some chat =>
      match performChatAction host chat ⟨true, proof.pk, proof.nonce⟩ action with
      | .error panic => .error panic
      | .ok out =>
        .ok (⟨Function.update node.chats proof.context (some out.chat)⟩, out.reply.result)

/-- The request is acknowledged. -/
def Accepted (host : Host) (scheme : Verify) (node : Node) (proof : Proof ChatName)
    (action : ChatAction) : Prop :=
  ∃ after, execute host scheme node proof action = .ok (after, .ok ())

/-- The author of the proof is a member of its chat with a lower nonce. -/
def Current (host : Host) (node : Node) (proof : Proof ChatName) : Prop :=
  ∃ chat nonce, node.chats proof.context = some chat ∧
    chat.members (host.blake3 proof.pk) = some nonce ∧ nonce < proof.nonce

/-- The members are the keys of a map, of which there are less than `isize::MAX`. -/
def Bounded (chat : Chat) : Prop :=
  ∃ keys : Finset Identity, keys.card < 2 ^ 63 ∧ ∀ id, (chat.members id).isSome → id ∈ keys

/-- A hash for each number. -/
def hashOf (n : UInt64) : Hash := ⟨toBeBytes n ++ List.replicate 24 0, by simp [toBeBytes]⟩

theorem hashOf_injective : Function.Injective fun i : Fin (2 ^ 64) => hashOf (UInt64.ofNat i) := by
  intro i j h
  have hbytes := congrArg Hash.bytes h
  have hnumber := toBeBytes_injective (List.append_cancel_right hbytes)
  have hi : (UInt64.ofNat i.val).toNat = i.val := toNat_ofNat i.isLt
  have hj : (UInt64.ofNat j.val).toNat = j.val := toNat_ofNat j.isLt
  apply Fin.ext
  rw [← hi, ← hj, hnumber]

/-- A chat never has all identities as its members. -/
theorem exists_two_strangers {chat : Chat} (h : Bounded chat) :
    ∃ i j, i ≠ j ∧ chat.members i = none ∧ chat.members j = none := by
  obtain ⟨keys, hcard, hkeys⟩ := h
  let all := Finset.univ.image fun i : Fin (2 ^ 64) => hashOf (UInt64.ofNat i)
  have hall : all.card = 2 ^ 64 := by
    rw [Finset.card_image_of_injective _ hashOf_injective, Finset.card_univ, Fintype.card_fin]
  have hmany : 1 < (all \ keys).card := by
    have hle := Finset.le_card_sdiff keys all
    omega
  obtain ⟨i, hi, j, hj, hij⟩ := Finset.one_lt_card.mp hmany
  have hstranger : ∀ id ∈ all \ keys, chat.members id = none := by
    intro id hid
    by_contra hmember
    exact (Finset.mem_sdiff.mp hid).2 (hkeys id (Option.isSome_iff_ne_none.mpr hmember))
  exact ⟨i, j, hij, hstranger i hi, hstranger j hj⟩

section Acceptance

variable {host : Host} {scheme : Verify} {node : Node} {proof : Proof ChatName}

/-- Whoever is not a member yet can be added with a current proof. -/
theorem accepted_addUser {chat : Chat} {nonce : Nonce}
    (hverify : verify host scheme
      ⟨proof.pk, proof.nonce, proof.signature, .chatName proof.context⟩ = true)
    (hchat : node.chats proof.context = some chat)
    (hsender : chat.members (host.blake3 proof.pk) = some nonce) (hnonce : nonce < proof.nonce)
    {id : Identity} (hid : chat.members id = none) :
    Accepted host scheme node proof (.addUser id) := by
  have hother : id ≠ host.blake3 proof.pk := by
    rintro rfl
    rw [hsender] at hid
    cases hid
  have hadvance : advanceNonce nonce proof.nonce = some proof.nonce := if_pos hnonce
  have hstranger : Function.update chat.members (host.blake3 proof.pk) (some proof.nonce) id =
      none := by
    rw [Function.update_of_ne hother, hid]
  unfold Accepted execute performChatAction
  simp only [hverify, hchat, hsender, hadvance, hstranger, Bool.not_true, Bool.false_eq_true,
    if_false, Option.isSome_none]
  exact ⟨_, rfl⟩

theorem not_accepted {action : ChatAction} (h : ¬ Current host node proof) :
    ¬ Accepted host scheme node proof action := by
  rintro ⟨after, hafter⟩
  unfold execute at hafter
  split_ifs at hafter
  · cases hafter
  cases hchat : node.chats proof.context with
  | none =>
    rw [hchat] at hafter
    cases hafter
  | some chat =>
    rw [hchat] at hafter
    unfold performChatAction at hafter
    simp only [Bool.not_true, Bool.false_eq_true, if_false] at hafter
    cases hsender : chat.members (host.blake3 proof.pk) with
    | none =>
      rw [hsender] at hafter
      cases hafter
    | some nonce =>
      have hstale : ¬ proof.nonce > nonce := fun hlt => h ⟨chat, nonce, hchat, hsender, hlt⟩
      have hadvance : advanceNonce nonce proof.nonce = none := if_neg hstale
      rw [hsender] at hafter
      simp only [hadvance] at hafter
      cases hafter

/-- At most one action goes with a proof exactly when none does. -/
theorem action_unique_iff
    (hverify : verify host scheme
      ⟨proof.pk, proof.nonce, proof.signature, .chatName proof.context⟩ = true)
    (hbounded : ∀ chat, node.chats proof.context = some chat → Bounded chat) :
    (∀ a b, Accepted host scheme node proof a → Accepted host scheme node proof b → a = b) ↔
      ¬ Current host node proof := by
  constructor
  · rintro hunique ⟨chat, nonce, hchat, hsender, hnonce⟩
    obtain ⟨i, j, hij, hi, hj⟩ := exists_two_strangers (hbounded chat hchat)
    have heq := hunique _ _ (accepted_addUser hverify hchat hsender hnonce hi)
      (accepted_addUser hverify hchat hsender hnonce hj)
    injection heq with heq
    exact hij heq
  · intro hnot a b ha
    exact absurd ha (not_accepted hnot)

end Acceptance

/-- The one signature that verifies was made for the chat `a`. -/
def sampleScheme (nonce : Nonce) : Verify := fun pk data signature =>
  pk = [97] && data = packPayload nonce (toProofContext sampleHost (.chatName nameA)) &&
    signature = [1]

def sampleProof (nonce : Nonce) : Proof ChatName := ⟨[97], nonce, [1], nameA⟩

/-- A node with the chat `a`, which was created by the author of the proof. -/
def sampleNode : Node := ⟨fun _ => some (new (sampleHost.blake3 [97]))⟩

theorem verify_sampleProof (nonce : Nonce) : verify sampleHost (sampleScheme nonce)
    ⟨(sampleProof nonce).pk, nonce, (sampleProof nonce).signature, .chatName nameA⟩ = true := by
  unfold verify sampleScheme sampleProof
  simp

theorem bounded_new (id : Identity) : Bounded (new id) := by
  refine ⟨{id}, by simp, fun other h => ?_⟩
  rw [Finset.mem_singleton]
  by_contra hne
  unfold new at h
  simp only [if_neg hne, Option.isSome_none, Bool.false_eq_true] at h

/-- A proof with a nonce that was used already. -/
theorem action_unique_stale :
    ¬ Current sampleHost sampleNode (sampleProof 0) ∧
      ∀ a b, Accepted sampleHost (sampleScheme 0) sampleNode (sampleProof 0) a →
        Accepted sampleHost (sampleScheme 0) sampleNode (sampleProof 0) b → a = b := by
  have hstale : ¬ Current sampleHost sampleNode (sampleProof 0) := by
    rintro ⟨chat, nonce, hchat, -, hlt⟩
    exact absurd hlt (UInt64.not_lt_zero)
  refine ⟨hstale, (action_unique_iff (verify_sampleProof 0) fun chat hchat => ?_).mpr hstale⟩
  cases hchat
  exact bounded_new _

/-- Two identities can be added with one proof. -/
theorem actions_share_proof : ¬ ∀ (host : Host) (scheme : Verify) (node : Node)
    (proof : Proof ChatName), verify host scheme
      ⟨proof.pk, proof.nonce, proof.signature, .chatName proof.context⟩ = true →
    (∀ chat, node.chats proof.context = some chat → Bounded chat) →
    ∀ a b, Accepted host scheme node proof a → Accepted host scheme node proof b → a = b := by
  intro hclaim
  have hbounded : ∀ chat, sampleNode.chats nameA = some chat → Bounded chat := by
    intro chat hchat
    cases hchat
    exact bounded_new _
  have haccepted : ∀ id, id ≠ sampleHost.blake3 [97] →
      Accepted sampleHost (sampleScheme 7) sampleNode (sampleProof 7) (.addUser id) := by
    intro id hid
    have hsender : (new (sampleHost.blake3 [97])).members (sampleHost.blake3 [97]) = some 0 := by
      simp [new]
    exact accepted_addUser (verify_sampleProof 7) rfl hsender (by decide) (if_neg hid)
  have hsame := hclaim sampleHost (sampleScheme 7) sampleNode (sampleProof 7)
    (verify_sampleProof 7) hbounded _ _ (haccepted (sampleHost.blake3 [98]) (by decide))
    (haccepted Hash.zero (by decide))
  injection hsame with hsame
  exact absurd hsame (by decide)

end OrionNetwork.ChatAuthorship
