import OrionNetwork.ChatFinality
import Mathlib.Data.Multiset.UnionInter

/-!
# No message is stored twice

A message is named by its sender and its nonce. Locally the nonces of a member
only grow, so the open and the proposed block of a node never repeat a name.
Foreign blocks are the difficulty: they go straight into the history, and the
nonces of their senders are not advanced. Only the recovering path removes the
messages of a foreign block from the open one.
-/
namespace OrionNetwork.ChatReplica
open Codec MessageBlock BlockHash Runs

variable {host : Host} {chat : Chat}

abbrev Key := Identity × Nonce

/-- Sender and nonce of an encoded message. -/
def messageKey (msg : Bytes) : Option Key :=
  if h : 32 ≤ msg.length then
    (base128Decode (msg.drop 32)).map fun r => (⟨msg.take 32, by simpa using h⟩, r.1)
  else none

theorem messageKey_encodeMessage (identity : Identity) (nonce : Nonce) (content : Bytes) :
    messageKey (encodeMessage identity nonce content) = some (identity, nonce) := by
  have hsize := identity.size
  have hlen : 32 ≤ (encodeMessage identity nonce content).length := by
    simp only [encodeMessage, List.length_append]
    omega
  have hdrop : (encodeMessage identity nonce content).drop 32 =
      base128Encode nonce ++ content := by
    rw [encodeMessage, List.append_assoc, ← hsize, List.drop_left]
  have htake : (encodeMessage identity nonce content).take 32 = identity.bytes := by
    rw [encodeMessage, List.append_assoc, ← hsize, List.take_left]
  rw [messageKey, dif_pos hlen]
  simp only [hdrop, htake, base128Decode_base128Encode, Option.map_some]

lemma length_encodeMessage_lt {identity : Identity} {nonce : Nonce} {content : Bytes}
    (h : content.length ≤ maxMessageSize) : (encodeMessage identity nonce content).length < 65536 := by
  have hnonce := length_base128Encode_le nonce
  have hsize := identity.size
  simp only [encodeMessage, List.length_append, maxMessageSize] at *
  omega

/-- Names of the readable messages of a block. -/
def blockKeys (block : Bytes) : Multiset Key := ((unpackMessages block).filterMap messageKey : List Key)

def finalizedKeys (blocks : List Block) : Multiset Key :=
  (blocks.map fun block => blockKeys block.data).sum

def proposedKeys (stage : BlockStage) : Multiset Key :=
  (stage.unfinalizedBlock.map blockKeys).getD 0

/-- Names in the blocks a node fills itself. -/
def localKeys (chat : Chat) : Multiset Key :=
  proposedKeys chat.stage + blockKeys chat.currentBlock

def storedKeys (chat : Chat) : Multiset Key := finalizedKeys chat.finalized + localKeys chat

/-- What `push_to_finalized` keeps of the history. -/
def history (blocks : List Block) : List Block :=
  if blocks.length = blockHistory then blocks.dropLast else blocks

@[simp] theorem blockKeys_nil : blockKeys [] = 0 := rfl

@[simp] theorem proposedKeys_fresh : proposedKeys .fresh = 0 := rfl

@[simp] theorem proposedKeys_open (others : Vector Hash replicationFactor) :
    proposedKeys (.unfinalized none others) = 0 := rfl

@[simp] theorem proposedKeys_some (own : Block) (others : Vector Hash replicationFactor) :
    proposedKeys (.unfinalized (some own) others) = blockKeys own.data := rfl

@[simp] theorem proposedKeys_recovering (hash : Hash) (w : Bool) :
    proposedKeys (.recovering hash w) = 0 := rfl

@[simp] theorem finalized_pushToFinalized (chat : Chat) (block : Block) :
    (chat.pushToFinalized block).finalized = block :: history chat.finalized := rfl

@[simp] theorem finalizedKeys_cons (block : Block) (blocks : List Block) :
    finalizedKeys (block :: blocks) = blockKeys block.data + finalizedKeys blocks := by
  simp [finalizedKeys]

lemma blockKeys_append_frame {block msg : Bytes} {k : Key} (hk : messageKey msg = some k)
    (hlen : msg.length < 65536) : blockKeys (block ++ frame msg) = k ::ₘ blockKeys block := by
  rw [blockKeys, unpackMessages_append_frame _ _ hlen, List.filterMap_cons_some hk]
  rfl

lemma blockKeys_frame {msg : Bytes} {k : Key} (hk : messageKey msg = some k)
    (hlen : msg.length < 65536) : blockKeys (frame msg) = {k} := by
  have happend : blockKeys ([] ++ frame msg) = k ::ₘ blockKeys [] := blockKeys_append_frame hk hlen
  simpa using happend

lemma finalizedKeys_history_le (blocks : List Block) :
    finalizedKeys (history blocks) ≤ finalizedKeys blocks := by
  unfold history
  split_ifs
  · have hsub : (blocks.dropLast.map fun block => blockKeys block.data).Sublist
        (blocks.map fun block => blockKeys block.data) :=
      (List.dropLast_sublist _).map _
    exact hsub.sum_le_sum fun _ _ => Multiset.zero_le _
  · exact le_rfl

/-- A push stores at most the new message besides what was stored. -/
lemma stored_push {msg : Bytes} {k : Key} {out : Outcome (Except (Option Hash) Unit)}
    (hk : messageKey msg = some k) (hlen : msg.length < 65536) (hs : PushShape host chat msg out) :
    storedKeys out.chat ≤ k ::ₘ storedKeys chat ∧ localKeys out.chat ≤ k ::ₘ localKeys chat := by
  have hframe := blockKeys_frame hk hlen
  cases hs with
  | stored =>
    simp [storedKeys, localKeys, blockKeys_append_frame hk hlen]
  | blocked => exact ⟨Multiset.le_cons_self _ _, Multiset.le_cons_self _ _⟩
  | finalized hfull hroom hhash hstage =>
    rename_i hash leaves
    have hproposed : proposedKeys chat.stage = 0 := by
      obtain ⟨others, hopen, -⟩ | hrec := hstage
      · rw [hopen, proposedKeys_open]
      · rw [hrec, proposedKeys_recovering]
    have hlocal : localKeys { chat.finalizeCurrentBlock hash with currentBlock := frame msg } =
        {k} := by
      change proposedKeys .fresh + blockKeys (frame msg) = {k}
      rw [proposedKeys_fresh, zero_add, hframe]
    constructor
    · calc storedKeys { chat.finalizeCurrentBlock hash with currentBlock := frame msg }
          = blockKeys chat.currentBlock + finalizedKeys (history chat.finalized) + {k} := by
            rw [storedKeys, hlocal]
            change finalizedKeys (⟨hash, chat.currentBlock⟩ :: history chat.finalized) + {k} = _
            rw [finalizedKeys_cons]
        _ ≤ blockKeys chat.currentBlock + finalizedKeys chat.finalized + {k} :=
            add_le_add_left (add_le_add_right (finalizedKeys_history_le _) _) _
        _ = k ::ₘ storedKeys chat := by
            rw [storedKeys, localKeys, hproposed, zero_add, add_comm (blockKeys _),
              add_comm _ ({k} : Multiset Key),
              Multiset.singleton_add]
    · rw [hlocal, ← Multiset.singleton_add]
      exact Multiset.le_add_right _ _
  | proposed hfull hroom hhash hstage hfew =>
    rw [storedKeys, storedKeys, localKeys, localKeys]
    simp only [hstage, proposedKeys_open, proposedKeys_some, hframe, zero_add]
    rw [← Multiset.singleton_add, ← Multiset.singleton_add, add_comm _ ({k} : Multiset Key),
      add_left_comm]
    exact ⟨le_rfl, le_rfl⟩
  | discarded hfull hroom hhash hstage hne =>
    rw [storedKeys, storedKeys, localKeys, localKeys]
    simp only [hstage, proposedKeys_recovering, hframe, zero_add]
    rw [← Multiset.singleton_add, ← Multiset.singleton_add, add_comm _ ({k} : Multiset Key)]
    exact ⟨add_le_add_right (Multiset.le_add_right _ _) _, Multiset.le_add_right _ _⟩

/-- A vote moves the proposed block or drops it. -/
lemma stored_propose {index : Slot} {number : ℕ} {hash : Hash} {after : Chat}
    {pushed : Option (ℕ × Hash)} (hs : ProposeShape host chat index number hash after pushed) :
    storedKeys after ≤ storedKeys chat ∧ localKeys after ≤ localKeys chat ∧
      after.members = chat.members := by
  cases hs with
  | ignored => exact ⟨le_rfl, le_rfl, rfl⟩
  | recorded hlast hnumber hstage =>
    rename_i k proposed others
    have hlocal : localKeys { chat with
        stage := .unfinalized proposed (others.set index hash index.isLt) } = localKeys chat := by
      rw [localKeys, localKeys, hstage]
      cases proposed <;> rfl
    exact ⟨(congrArg (finalizedKeys chat.finalized + ·) hlocal).le, hlocal.le, rfl⟩
  | finalized hlast hnumber hstage hown hvotes =>
    rename_i k own others
    have hlocal : localKeys { chat.pushToFinalized own with stage := .fresh } =
        blockKeys chat.currentBlock := by
      change proposedKeys .fresh + blockKeys chat.currentBlock = _
      rw [proposedKeys_fresh, zero_add]
    refine ⟨?_, ?_, rfl⟩
    · calc storedKeys { chat.pushToFinalized own with stage := .fresh }
          = blockKeys own.data + finalizedKeys (history chat.finalized) + blockKeys chat.currentBlock := by
            rw [storedKeys, hlocal, finalized_pushToFinalized, finalizedKeys_cons]
        _ ≤ blockKeys own.data + finalizedKeys chat.finalized + blockKeys chat.currentBlock :=
            add_le_add_left (add_le_add_right (finalizedKeys_history_le _) _) _
        _ = storedKeys chat := by
            rw [storedKeys, localKeys, hstage, proposedKeys_some, add_comm (blockKeys own.data),
              add_assoc]
    · rw [hlocal, localKeys]
      exact Multiset.le_add_left _ _
  | outvoted hlast hnumber hstage hown hvotes =>
    have hlocal : localKeys { chat with stage := .recovering hash true } ≤ localKeys chat := by
      rw [localKeys, localKeys, proposedKeys_recovering, zero_add]
      exact Multiset.le_add_left _ _
    exact ⟨add_le_add_right hlocal _, hlocal, rfl⟩
  | overtaken hlast hnumber hstage hvotes =>
    have hlocal : localKeys { chat with stage := .recovering hash false } ≤ localKeys chat := by
      rw [localKeys, localKeys, proposedKeys_recovering, zero_add]
      exact Multiset.le_add_left _ _
    exact ⟨add_le_add_right hlocal _, hlocal, rfl⟩

lemma mem_blockKeys_unknownTo {leaves : List Hash} {block : Bytes} {k : Key}
    (h : k ∈ blockKeys (unknownTo host leaves block)) :
    ∃ m ∈ unpackMessages block, messageKey m = some k ∧ host.blake3 m ∉ leaves := by
  rw [blockKeys, unknownTo, unpackMessages_retain, Multiset.mem_coe, List.mem_filterMap] at h
  obtain ⟨m, hm, hk⟩ := h
  obtain ⟨hmem, hout⟩ := List.mem_filter.mp hm
  exact ⟨m, hmem, hk, by simpa using hout⟩

lemma blockKeys_unknownTo_le (leaves : List Hash) (block : Bytes) :
    blockKeys (unknownTo host leaves block) ≤ blockKeys block := by
  rw [blockKeys, blockKeys, unknownTo, unpackMessages_retain, Multiset.coe_le]
  exact (List.filter_sublist.filterMap _).subperm

/-- What reaches the chat from users and from other replicators. -/
inductive Request where
  | action (proof : ChatProof) (action : ChatAction)
  | propose (index : Slot) (number : ℕ) (hash : Hash)
  | send (index : Slot) (number : ℕ) (block : Bytes)

/-- One handled request. -/
inductive Handles (host : Host) (chat : Chat) : Request → Chat → Prop where
  | action {proof : ChatProof} {action : ChatAction} {out : Outcome ActionReply}
      (h : performChatAction host chat proof action = .ok out) :
      Handles host chat (.action proof action) out.chat
  | propose {index : Slot} {number : ℕ} {hash : Hash} {out : Outcome ProposeReply}
      (h : proposeMsgBlock host chat index number hash = .ok out) :
      Handles host chat (.propose index number hash) out.chat
  | send {index : Slot} {number : ℕ} {block : Bytes}
      {out : Outcome (Except SendBlockError Unit)}
      (h : sendBlock host chat index number block = .ok out) :
      Handles host chat (.send index number block) out.chat

/-- A received block does not repeat a name. -/
def Distinct : Request → Prop
  | .action _ _ => True
  | .propose _ _ _ => True
  | .send _ _ block => (blockKeys block).Nodup

/-- Left out are a message with a fresh nonce that a foreign block has already
brought, a foreign block that replaces the own one and shares a message with the
history or the open block, and a recovered block that shares a message with the
history or names a message of the open block without containing it. -/
def KeepsUnique (host : Host) (chat : Chat) : Request → Prop
  | .action proof (.sendMessage msg) => ∀ last, proof.verified = true →
      chat.members (host.blake3 proof.pk) = some last → last < proof.nonce →
      msg.length ≤ maxMessageSize →
      (host.blake3 proof.pk, proof.nonce - 1) ∉ finalizedKeys chat.finalized
  | .action _ (.addUser _) => True
  | .propose _ _ _ => True
  | .send index number block => chat.lastFinalizedBlock host = .ok number →
      ∀ hash leaves, hashBlock host block = .ok (hash, leaves) →
        (∀ own others, chat.stage = .unfinalized (some own) others →
          replicationFactor / 2 ≤ votes (others.set index hash index.isLt) hash →
          Disjoint (blockKeys block) (finalizedKeys (history chat.finalized)) ∧
          Disjoint (blockKeys block) (blockKeys chat.currentBlock)) ∧
        ∀ w, chat.stage = .recovering hash w →
          Disjoint (blockKeys block) (finalizedKeys (history chat.finalized)) ∧
          ∀ m ∈ unpackMessages chat.currentBlock, ∀ k, messageKey m = some k →
            k ∈ blockKeys block → host.blake3 m ∈ leaves

/-- No name is stored twice, and the local ones are behind their members. -/
structure Unique (chat : Chat) : Prop where
  nodup : (storedKeys chat).Nodup
  behind : ∀ k ∈ localKeys chat, ∃ last, chat.members k.1 = some last ∧ k.2 < last

lemma Unique.of_le {after : Chat} (h : Unique chat) (hstored : storedKeys after ≤ storedKeys chat)
    (hlocal : localKeys after ≤ localKeys chat) (hmembers : after.members = chat.members) :
    Unique after where
  nodup := Multiset.nodup_of_le hstored h.nodup
  behind k hk := by
    rw [hmembers]
    exact h.behind k (Multiset.mem_of_le hlocal hk)

/-- The stored names after a foreign block, split into the block, the kept
history and the open block. -/
lemma nodup_foreign {block : Bytes} {rest : Multiset Key} (hu : Unique chat)
    (hblock : (blockKeys block).Nodup) (hrest : rest ≤ blockKeys chat.currentBlock)
    (hhistory : Disjoint (blockKeys block) (finalizedKeys (history chat.finalized)))
    (hopen : Disjoint (blockKeys block) rest) :
    (blockKeys block + finalizedKeys (history chat.finalized) + rest).Nodup := by
  have hkept : (finalizedKeys (history chat.finalized) + rest).Nodup := by
    refine Multiset.nodup_of_le ?_ hu.nodup
    refine add_le_add (finalizedKeys_history_le _) (hrest.trans ?_)
    exact Multiset.le_add_left _ _
  rw [add_assoc]
  exact Multiset.nodup_add.mpr
    ⟨hblock, hkept, Multiset.disjoint_add_right.mpr ⟨hhistory, hopen⟩⟩

lemma unique_send {index : Slot} {number : ℕ} {block : Bytes}
    {out : Outcome (Except SendBlockError Unit)} (hu : Unique chat)
    (hs : SendShape host chat index number block out) (hblock : (blockKeys block).Nodup)
    (hok : KeepsUnique host chat (.send index number block)) : Unique out.chat := by
  cases hs with
  | rejected reason => exact hu
  | recorded hlast hstage hhash hfew =>
    rename_i own others hash leaves
    have hlocal : localKeys { chat with
        stage := .unfinalized (some own) (others.set index hash index.isLt) } = localKeys chat := by
      rw [localKeys, localKeys, hstage]
      rfl
    exact hu.of_le (congrArg (finalizedKeys chat.finalized + ·) hlocal).le hlocal.le rfl
  | replaced hlast hstage hhash hvotes =>
    rename_i own others hash leaves
    obtain ⟨hhistory, hopen⟩ := (hok hlast _ _ hhash).1 own others hstage hvotes
    have hlocal : localKeys ({ chat with stage := .fresh }.pushToFinalized ⟨hash, block⟩) =
        blockKeys chat.currentBlock := by
      change proposedKeys .fresh + blockKeys chat.currentBlock = _
      rw [proposedKeys_fresh, zero_add]
    refine ⟨?_, fun k hk => hu.behind k ?_⟩
    · have hnodup := nodup_foreign hu hblock le_rfl hhistory hopen
      rwa [storedKeys, hlocal, finalized_pushToFinalized, finalizedKeys_cons]
    · rw [hlocal] at hk
      exact Multiset.mem_of_le (Multiset.le_add_left _ _) hk
  | recovered hlast hstage hhash =>
    rename_i finalHash w leaves
    obtain ⟨hhistory, hsame⟩ := (hok hlast _ _ hhash).2 w hstage
    have hlocal : localKeys ({ chat with
        currentBlock := unknownTo host leaves chat.currentBlock }.pushToFinalized
          ⟨finalHash, block⟩) = blockKeys (unknownTo host leaves chat.currentBlock) := by
      rw [localKeys, stage_pushToFinalized]
      simp only [hstage, proposedKeys_recovering, zero_add]
      rfl
    have hopen : Disjoint (blockKeys block)
        (blockKeys (unknownTo host leaves chat.currentBlock)) := by
      refine Multiset.disjoint_left.mpr ?_
      intro k hk hrest
      obtain ⟨m, hm, hkey, hout⟩ := mem_blockKeys_unknownTo hrest
      exact hout (hsame m hm k hkey hk)
    refine ⟨?_, fun k hk => hu.behind k ?_⟩
    · have hnodup := nodup_foreign hu hblock (blockKeys_unknownTo_le _ _) hhistory hopen
      rwa [storedKeys, hlocal, finalized_pushToFinalized, finalizedKeys_cons]
    · rw [hlocal] at hk
      exact Multiset.mem_of_le ((blockKeys_unknownTo_le _ _).trans (Multiset.le_add_left _ _)) hk

/-- A push of a message whose name is new and behind its sender. -/
lemma unique_push {msg : Bytes} {k : Key} {out : Outcome (Except (Option Hash) Unit)}
    {last : Nonce} (hu : Unique chat) (hk : messageKey msg = some k) (hlen : msg.length < 65536)
    (hnew : k ∉ storedKeys chat) (hmember : chat.members k.1 = some last) (hlast : k.2 < last)
    (hs : PushShape host chat msg out) : Unique out.chat := by
  obtain ⟨hstored, hlocal⟩ := stored_push hk hlen hs
  have hmembers : out.chat.members = chat.members := by cases hs <;> rfl
  refine ⟨Multiset.nodup_of_le hstored (Multiset.nodup_cons.mpr ⟨hnew, hu.nodup⟩), fun k' hk' => ?_⟩
  rw [hmembers]
  obtain rfl | hold := Multiset.mem_cons.mp (Multiset.mem_of_le hlocal hk')
  · exact ⟨last, hmember, hlast⟩
  · exact hu.behind k' hold

/-- Nonces that grow leave every local name behind. -/
lemma Unique.members {members : Identity → Option Nonce} (hu : Unique chat)
    (hgrow : ∀ i last, chat.members i = some last → ∃ last', members i = some last' ∧ last ≤ last') :
    Unique { chat with members := members } := by
  refine ⟨hu.nodup, fun k hk => ?_⟩
  obtain ⟨last, hmember, hlt⟩ := hu.behind k hk
  obtain ⟨last', hmember', hle⟩ := hgrow k.1 last hmember
  exact ⟨last', hmember', UInt64.lt_of_lt_of_le hlt hle⟩

lemma advanceNonce_eq_some {current new nonce : Nonce} (h : advanceNonce current new = some nonce) :
    nonce = new ∧ current < nonce := by
  unfold advanceNonce at h
  split_ifs at h with hlt
  cases h
  exact ⟨rfl, hlt⟩

/-- The nonce stored with a message is the one before the nonce of its proof. -/
lemma pred_nonce {current nonce : Nonce} (h : current < nonce) :
    current ≤ nonce - 1 ∧ nonce - 1 < nonce := by
  have hone : (1 : Nonce) ≤ nonce := by
    rw [UInt64.le_iff_toNat_le]
    rw [UInt64.lt_iff_toNat_lt] at h
    simp only [UInt64.toNat_one]
    omega
  rw [UInt64.le_iff_toNat_le, UInt64.lt_iff_toNat_lt, UInt64.toNat_sub_of_le _ _ hone]
  rw [UInt64.lt_iff_toNat_lt] at h
  simp only [UInt64.toNat_one]
  omega

lemma unique_sendMessage {sender : Identity} {nonce : Nonce} {msg : Bytes}
    {out : Outcome ActionReply} (hu : Unique chat) (hmember : chat.members sender = some nonce)
    (hpred : nonce - 1 < nonce)
    (hnew : msg.length ≤ maxMessageSize → (sender, nonce - 1) ∉ storedKeys chat)
    (h : sendMessage host chat sender nonce msg = .ok out) : Unique out.chat := by
  unfold sendMessage at h
  split_ifs at h with hlarge
  · cases h
    exact hu
  · have hsize : msg.length ≤ maxMessageSize := by omega
    split at h
    · contradiction
    · rename_i pout hpush
      have hpushed : Unique pout.chat :=
        unique_push hu (messageKey_encodeMessage _ _ _) (length_encodeMessage_lt hsize) (hnew hsize)
          hmember hpred (pushMessage_shape hpush)
      split at h <;> cases h <;> exact hpushed

lemma unique_action {proof : ChatProof} {action : ChatAction} {out : Outcome ActionReply}
    (hu : Unique chat) (hok : KeepsUnique host chat (.action proof action))
    (h : performChatAction host chat proof action = .ok out) : Unique out.chat := by
  simp only [performChatAction] at h
  by_cases hverified : proof.verified = true
  · rw [hverified, Bool.not_true, if_neg Bool.false_ne_true] at h
    cases hlast : chat.members (host.blake3 proof.pk) with
    | none =>
      rw [hlast] at h
      cases h
      exact hu
    | some last =>
      simp only [hlast] at h
      split at h
      · cases h
        exact hu
      · rename_i nonce hnonce
        obtain ⟨rfl, hlt⟩ := advanceNonce_eq_some hnonce
        obtain ⟨hle, hpred⟩ := pred_nonce hlt
        have hadvanced : Unique { chat with
            members := Function.update chat.members (host.blake3 proof.pk) (some proof.nonce) } := by
          refine hu.members fun i a ha => ?_
          by_cases hi : i = host.blake3 proof.pk
          · subst hi
            rw [hlast, Option.some.injEq] at ha
            exact ⟨proof.nonce, Function.update_self _ _ _, ha ▸ UInt64.le_of_lt hlt⟩
          · exact ⟨a, by rw [Function.update_of_ne hi, ha], UInt64.le_refl _⟩
        cases action with
        | addUser id =>
          simp only at h
          split_ifs at h with hknown
          · cases h
            exact hadvanced
          · cases h
            refine hadvanced.members fun i a ha => ⟨a, ?_, UInt64.le_refl _⟩
            change Function.update chat.members _ _ i = some a at ha
            by_cases hi : i = id
            · subst hi
              exact absurd (by rw [ha]; rfl) hknown
            · rw [Function.update_of_ne hi, ha]
        | sendMessage msg =>
          refine unique_sendMessage hadvanced (Function.update_self _ _ _) hpred (fun hsize => ?_) h
          intro hmem
          obtain hfinal | hlocal := Multiset.mem_add.mp hmem
          · exact hok last hverified hlast hlt hsize hfinal
          · -- local nonces of the sender are below its last one
            obtain ⟨last', hlast', hbehind⟩ := hu.behind _ hlocal
            rw [hlast, Option.some.injEq] at hlast'
            exact absurd (hlast' ▸ hbehind) (UInt64.not_lt.mpr hle)
  · rw [Bool.not_eq_true] at hverified
    rw [hverified, Bool.not_false, if_pos rfl] at h
    cases h
    exact hu

theorem unique_step {next : Chat} {r : Request} (hu : Unique chat)
    (hblock : Distinct r) (hok : KeepsUnique host chat r) (hstep : Handles host chat r next) :
    Unique next := by
  cases hstep with
  | action h => exact unique_action hu hok h
  | propose h =>
    obtain ⟨hstored, hlocal, hmembers⟩ := stored_propose (proposeMsgBlock_shape h)
    exact hu.of_le hstored hlocal hmembers
  | send h => exact unique_send hu (sendBlock_shape h) hblock hok

/-- In every run whose received blocks do not repeat a name, and whose steps
avoid the overlaps named in `KeepsUnique`, no name occurs twice across the
finalized blocks, the proposed block and the open block. -/
theorem stored_once (host : Host) (id : Identity) (rs : List Request) (chat : Chat)
    (h : Run (guarded (fun chat r => Distinct r ∧ KeepsUnique host chat r) (Handles host))
      (new id) rs chat) : (storedKeys chat).Nodup := by
  have hu : Unique chat := by
    refine h.stateInvariant (P := Unique) ⟨?_, ?_⟩
      (fun _ _ _ hu he => unique_step hu he.1.1 he.1.2 he.2)
    · exact Multiset.nodup_zero
    · intro k hk
      exact absurd hk (Multiset.notMem_zero k)
  exact hu.nodup

/-- The `j`-th message of a user with an empty key, as the chat stores it. -/
def note (host : Host) (j : ℕ) : Bytes := encodeMessage (host.blake3 []) (UInt64.ofNat j) filler

/-- The request that makes a node store it. -/
def noteRequest (j : ℕ) : Request :=
  .action ⟨true, [], UInt64.ofNat j + 1⟩ (.sendMessage filler)

def notes (host : Host) (start n : ℕ) : List Bytes := (List.range' start n).map (note host)

lemma toNat_nonce {j : ℕ} (hj : j < 128) : (UInt64.ofNat j).toNat = j := by
  rw [UInt64.toNat_ofNat', Nat.mod_eq_of_lt (by omega)]

lemma length_note (host : Host) {j : ℕ} (hj : j < 128) : (note host j).length = 1057 := by
  have hsize := (host.blake3 []).size
  have hmod : j % 18446744073709551616 = j := Nat.mod_eq_of_lt (by omega)
  have hnonce : (base128Encode (UInt64.ofNat j)).length = 1 := by
    simp [base128Encode, base128Loop, hmod, Nat.div_eq_of_lt hj]
  simp only [note, encodeMessage, List.length_append, hsize, hnonce, filler, maxMessageSize,
    List.length_replicate]

lemma length_notes (host : Host) {start n : ℕ} (h : start + n ≤ 128) :
    ((notes host start n).flatMap frame).length = n * 1059 := by
  have hmap : (notes host start n).map (fun m => (frame m).length) = List.replicate n 1059 := by
    refine List.eq_replicate_iff.mpr ⟨by simp [notes], ?_⟩
    intro len hlen
    simp only [notes, List.map_map, List.mem_map, List.mem_range'_1] at hlen
    obtain ⟨j, hj, rfl⟩ := hlen
    simp only [Function.comp_apply, length_frame, length_note host (show j < 128 by omega)]
  rw [List.length_flatMap, hmap, List.sum_replicate, smul_eq_mul]

lemma unpackMessages_notes (host : Host) {start n : ℕ} (h : start + n ≤ 128) :
    unpackMessages ((notes host start n).flatMap frame) = (notes host start n).reverse := by
  refine unpackMessages_flatMap_frame _ fun m hm => ?_
  simp only [notes, List.mem_map, List.mem_range'_1] at hm
  obtain ⟨j, hj, rfl⟩ := hm
  rw [length_note host (by omega)]
  decide

lemma blockKeys_notes (host : Host) {start n : ℕ} (h : start + n ≤ 128) :
    blockKeys ((notes host start n).flatMap frame) =
      ((List.range' start n).map fun j => (host.blake3 [], UInt64.ofNat j) : List Key) := by
  have hkey : messageKey ∘ note host = fun j => some (host.blake3 [], UInt64.ofNat j) :=
    funext fun j => messageKey_encodeMessage _ _ _
  rw [blockKeys, unpackMessages_notes host h, List.filterMap_reverse, Multiset.coe_reverse, notes,
    List.filterMap_map, hkey, List.filterMap_eq_map']

lemma nodup_blockKeys_notes (host : Host) {start n : ℕ} (h : start + n ≤ 128) :
    (blockKeys ((notes host start n).flatMap frame)).Nodup := by
  rw [blockKeys_notes host h, Multiset.coe_nodup]
  refine List.Nodup.map_on (fun i hi j hj he => ?_) List.nodup_range'
  rw [List.mem_range'_1] at hi hj
  have hnat := congrArg UInt64.toNat (Prod.mk.inj he).2
  rwa [toNat_nonce (by omega), toNat_nonce (by omega)] at hnat

/-- A request with a fresh nonce pushes its message. -/
lemma handles_note {j : ℕ} {last : Nonce} {pout : Outcome (Except (Option Hash) Unit)}
    (hmember : chat.members (host.blake3 []) = some last) (hlast : last.toNat ≤ j) (hj : j < 128)
    (hpush : pushMessage host { chat with
      members := Function.update chat.members (host.blake3 []) (some (UInt64.ofNat j + 1)) }
      (note host j) = .ok pout) (hreply : pout.reply ≠ .error none) :
    Handles host chat (noteRequest j) pout.chat := by
  have hfresh : last < UInt64.ofNat j + 1 := by
    rw [UInt64.lt_iff_toNat_lt, UInt64.toNat_add, toNat_nonce hj, UInt64.toNat_one]
    omega
  have hpred : UInt64.ofNat j + 1 - 1 = UInt64.ofNat j := UInt64.add_sub_cancel _ _
  have hsize : ¬ filler.length > maxMessageSize := by rw [filler, List.length_replicate]; omega
  have haction : ∃ out, performChatAction host chat ⟨true, [], UInt64.ofNat j + 1⟩
      (.sendMessage filler) = .ok out ∧ out.chat = pout.chat := by
    simp only [performChatAction, Bool.not_true, Bool.false_eq_true, if_false, hmember,
      advanceNonce, gt_iff_lt, hfresh, if_true, sendMessage, hsize, hpred]
    rw [note] at hpush
    simp only [hpush]
    cases hr : pout.reply with
    | ok => exact ⟨_, rfl, rfl⟩
    | error e =>
      cases e with
      | none => exact absurd hr hreply
      | some hash => exact ⟨_, rfl, rfl⟩
  obtain ⟨out, hout, hchat⟩ := haction
  exact hchat ▸ .action hout

/-- A chat that has stored `n` notes and nothing else. -/
structure Noted (host : Host) (start n : ℕ) (chat : Chat) : Prop where
  block : chat.currentBlock = (notes host start n).flatMap frame
  stage : chat.stage = .fresh
  finalized : chat.finalized = []
  number : chat.blockNumber = 0
  member : ∃ last, chat.members (host.blake3 []) = some last ∧ last.toNat ≤ start + n

lemma run_notes (ok : Chat → Request → Prop)
    (hok : ∀ chat j, chat.finalized = [] → ok chat (noteRequest j)) (start n : ℕ) (hn : n ≤ 30)
    (hstart : start + n < 128) : ∃ chat,
    Run (guarded ok (Handles host)) (new (host.blake3 [])) ((List.range' start n).map noteRequest)
      chat ∧ Noted host start n chat := by
  induction n with
  | zero =>
    refine ⟨_, .start, rfl, rfl, rfl, rfl, 0, ?_, Nat.zero_le _⟩
    simp [new]
  | succ n ih =>
    obtain ⟨chat, hrun, hnoted⟩ := ih (by omega) (by omega)
    obtain ⟨last, hmember, hlast⟩ := hnoted.member
    have hlen := length_notes host (show start + n ≤ 128 by omega)
    have hfit : chat.currentBlock.length + (note host (start + n)).length + packetLenWidth ≤
        blockSize := by
      rw [hnoted.block, hlen, length_note host (by omega)]
      change n * 1059 + 1057 + 2 ≤ 32768
      omega
    have hstep := handles_note hmember hlast (by omega) (pushMessage_fits hfit) (by simp)
    have hnext := Run.next _ hrun ⟨hok _ _ hnoted.finalized, hstep⟩
    rw [List.range'_1_concat, List.map_append, List.map_singleton]
    refine ⟨_, hnext, ?_, hnoted.stage, hnoted.finalized, hnoted.number, _,
      Function.update_self _ _ _, ?_⟩
    · simp only [hnoted.block, notes, List.range'_1_concat, List.map_append, List.map_singleton,
        List.flatMap_append, List.flatMap_singleton]
    · rw [UInt64.toNat_add, toNat_nonce (by omega), UInt64.toNat_one]
      omega

lemma hashBlock_ne_zero {block : Bytes} {hash : Hash} {leaves : List Hash}
    (hzero : ∀ m, host.blake3 m ≠ Hash.zero) (h : hashBlock host block = .ok (hash, leaves)) :
    hash ≠ Hash.zero := by
  have hne := ne_nil_of_hashBlock h
  rw [← List.length_pos_iff, ← length_leafHashes host block, List.length_pos_iff] at hne
  obtain ⟨leaf, rest, hleaves⟩ := List.exists_cons_of_ne_nil hne
  rw [hashBlock_of_leaves hleaves, Except.ok.injEq, Prod.mk.injEq] at h
  rw [← h.1]
  obtain rfl | ⟨init, last, rfl⟩ := List.eq_nil_or_concat' rest
  · have hmem : leaf ∈ leafHashes host block := by rw [hleaves]; exact List.mem_cons_self
    obtain ⟨m, -, hm⟩ := (mem_leafHashes host block leaf).mp hmem
    exact hm ▸ hzero m
  · rw [List.foldl_append]
    exact hzero _

/-- The note that does not fit any more makes the node propose the others. -/
lemma run_notes_proposed (hzero : ∀ m, host.blake3 m ≠ Hash.zero) (start : ℕ)
    (hstart : start + 31 < 128) : ∃ chat hash leaves,
    Run (Handles host) (new (host.blake3 [])) ((List.range' start 31).map noteRequest) chat ∧
    hashBlock host ((notes host start 30).flatMap frame) = .ok (hash, leaves) ∧
    chat.stage = .unfinalized (some ⟨hash, (notes host start 30).flatMap frame⟩)
      (Vector.replicate replicationFactor Hash.zero) ∧
    chat.currentBlock = frame (note host (start + 30)) ∧ chat.finalized = [] ∧
    chat.blockNumber = 1 := by
  have hopen : ∃ chat, Run (guarded (fun _ _ => True) (Handles host)) (new (host.blake3 []))
      ((List.range' start 30).map noteRequest) chat ∧ Noted host start 30 chat :=
    run_notes _ (fun _ _ _ => trivial) start 30 le_rfl (by omega)
  obtain ⟨chat, hrun, hnoted⟩ := hopen
  obtain ⟨last, hmember, hlast⟩ := hnoted.member
  have hlen := length_notes host (show start + 30 ≤ 128 by omega)
  have hnote := length_note host (show start + 30 < 128 by omega)
  have hne : unpackMessages ((notes host start 30).flatMap frame) ≠ [] := by
    rw [unpackMessages_notes host (by omega)]
    simp [notes]
  obtain ⟨hash, hhash⟩ := hashBlock_ok host _ hne
  have hfew : votes (Vector.replicate replicationFactor Hash.zero) hash < replicationFactor / 2 := by
    have hne := (hashBlock_ne_zero hzero hhash).symm
    simp [votes, hne, replicationFactor]
  let noted : Chat := { chat with
    members := Function.update chat.members (host.blake3 []) (some (UInt64.ofNat (start + 30) + 1)) }
  have hblock : noted.currentBlock = (notes host start 30).flatMap frame := hnoted.block
  have hfull : blockSize <
      noted.currentBlock.length + (note host (start + 30)).length + packetLenWidth := by
    rw [hblock, hlen, hnote]
    decide
  have hpush := pushMessage_proposes hfull (by rw [hnote]; decide) hnoted.stage
    (hblock ▸ hhash) hfew
  have hnext := Run.next _ hrun.unguard (handles_note hmember hlast (by omega) hpush (by simp))
  rw [List.range'_1_concat, List.map_append, List.map_singleton]
  refine ⟨_, hash, _, hnext, hhash, ?_, rfl, hnoted.finalized, ?_⟩
  · simp only [hblock]
  · exact congrArg (· + 1) hnoted.number

/-- With an unused slot left, a vote that decides nothing is recorded. -/
lemma castVote_recorded {index : Slot} {k : ℕ} {hash : Hash} {own : Block}
    {others : Vector Hash replicationFactor} (hstage : chat.stage = .unfinalized (some own) others)
    (hfew : votes (others.set index hash index.isLt) hash ≤ replicationFactor / 2 - 1)
    (hroom : Hash.zero ∈ (others.set index hash index.isLt).toList) :
    castVote chat k index hash =
      .ok ⟨{ chat with stage := .unfinalized (some own) (others.set index hash index.isLt) },
        ⟨.ok (), none⟩, none⟩ := by
  have hnot : ¬ votes (others.set index hash index.isLt) hash >
      replicationFactor / 2 - (if (some own).map Block.hash = some hash then 1 else 0) := by
    split_ifs <;> omega
  simp only [castVote, hstage]
  rw [if_neg hnot, if_neg (fun h => h.1 hroom)]

lemma sendBlock_replaced {index : Slot} {number : ℕ} {block : Bytes} {own : Block}
    {others : Vector Hash replicationFactor} {hash : Hash} {leaves : List Hash}
    (hstage : chat.stage = .unfinalized (some own) others)
    (hlast : chat.lastFinalizedBlock host = .ok number)
    (hhash : hashBlock host block = .ok (hash, leaves))
    (hvotes : replicationFactor / 2 ≤ votes (others.set index hash index.isLt) hash) :
    sendBlock host chat index number block =
      .ok ⟨{ chat with stage := .fresh }.pushToFinalized ⟨hash, block⟩, .ok (),
        some (number, hash)⟩ := by
  have hnot : ¬ votes (others.set index hash index.isLt) hash < replicationFactor / 2 := by omega
  simp [sendBlock, hlast, hstage, hhash, hnot]

/-- Two nodes get the notes of one user; the second misses the first note. Its
block is accepted by the first node over the proposed one, and repeats the note
in the open block there. -/
lemma stored_twice (hzero : ∀ m, host.blake3 m ≠ Hash.zero) : ∃ sender chat hash,
    Run (Handles host) (new (host.blake3 [])) ((List.range' 1 31).map noteRequest) sender ∧
    sender.stage.unfinalizedBlock = some ((notes host 1 30).flatMap frame) ∧
    Run (Handles host) (new (host.blake3 [])) ((List.range' 0 31).map noteRequest ++
      [.propose 0 0 hash, .send 1 0 ((notes host 1 30).flatMap frame)]) chat ∧
    ¬ (storedKeys chat).Nodup := by
  obtain ⟨sender, hash, leaves, hsender, hhash, hstage, -⟩ := run_notes_proposed hzero 1 (by omega)
  obtain ⟨chat, own, -, hchat, -, hproposed, hcurrent, hfinalized, hnumber⟩ :=
    run_notes_proposed hzero 0 (by omega)
  have hne := hashBlock_ne_zero hzero hhash
  let slots := (Vector.replicate replicationFactor Hash.zero).set (0 : Slot) hash
  have hslots : slots.toList = [hash, Hash.zero, Hash.zero, Hash.zero] := rfl
  have hslots' : (slots.set (1 : Slot) hash).toList = [hash, hash, Hash.zero, Hash.zero] := rfl
  have hone : votes slots hash = 1 := by
    rw [votes, hslots]
    simp [hne.symm]
  have htwo : votes (slots.set (1 : Slot) hash) hash = 2 := by
    rw [votes, hslots']
    simp [hne.symm]
  have hlast : chat.lastFinalizedBlock host = .ok 0 := by
    rw [lastFinalizedBlock_proposed hproposed hnumber.ge, hnumber]
  let voted : Chat := { chat with
    stage := .unfinalized (some ⟨own, (notes host 0 30).flatMap frame⟩) slots }
  have hvote : proposeMsgBlock host chat 0 0 hash = .ok ⟨voted, ⟨.ok (), none⟩, none⟩ :=
    (proposeMsgBlock_near hlast (.inl rfl)).trans
      (castVote_recorded hproposed hone.le (by rw [hslots]; simp))
  have hlast' : voted.lastFinalizedBlock host = .ok 0 := by
    have hnumber' : voted.blockNumber = 1 := hnumber
    rw [lastFinalizedBlock_proposed rfl hnumber'.ge, hnumber']
  have hsend := sendBlock_replaced rfl hlast' hhash htwo.ge
  refine ⟨sender, _, hash, hsender, by rw [hstage]; rfl,
    hchat.append (.next _ (.next _ .start (.propose hvote)) (.send hsend)), fun hnodup => ?_⟩
  have hframe : blockKeys voted.currentBlock = {(host.blake3 [], UInt64.ofNat 30)} := by
    change blockKeys chat.currentBlock = _
    rw [hcurrent]
    refine blockKeys_frame (messageKey_encodeMessage _ _ _) ?_
    rw [length_note host (by omega)]
    decide
  have hdisjoint := (Multiset.nodup_add.mp hnodup).2.2
  refine Multiset.disjoint_left.mp hdisjoint
    (show (host.blake3 [], UInt64.ofNat 30) ∈ _ from ?_) ?_
  · rw [finalized_pushToFinalized, finalizedKeys_cons, Multiset.mem_add]
    left
    rw [blockKeys_notes host (by omega), Multiset.mem_coe, List.mem_map]
    exact ⟨30, by simp, rfl⟩
  · rw [localKeys, Multiset.mem_add]
    right
    change _ ∈ blockKeys voted.currentBlock
    rw [hframe]
    exact Multiset.mem_singleton_self _

/-- One message that was accepted is stored once. -/
theorem stored_once_note : ∃ chat,
    Run (guarded (fun chat r => Distinct r ∧ KeepsUnique (demoHost true) chat r)
      (Handles (demoHost true))) (new (filled 7)) [noteRequest 0, noteRequest 1] chat ∧
    blockKeys chat.currentBlock = {(filled 7, 0), (filled 7, 1)} ∧ (storedKeys chat).Nodup := by
  have hguard (chat : Chat) (j : ℕ) (hempty : chat.finalized = []) : Distinct (noteRequest j) ∧
      KeepsUnique (demoHost true) chat (noteRequest j) := by
    refine ⟨trivial, fun last _ _ _ _ => ?_⟩
    rw [hempty]
    exact Multiset.notMem_zero _
  obtain ⟨chat, hrun, hnoted⟩ := run_notes
    (fun chat r => Distinct r ∧ KeepsUnique (demoHost true) chat r) hguard 0 2 (by omega) (by omega)
  refine ⟨chat, hrun, ?_, stored_once _ _ _ _ hrun⟩
  rw [hnoted.block, blockKeys_notes _ (by omega)]
  rfl

/-- A node that has the notes 0 to 30 stores note 30 twice when it accepts the
block of a node that has the notes 1 to 31. -/
theorem stored_twice_after_foreign_block : ∃ sender chat hash,
    Run (Handles (demoHost true)) (new (filled 7)) ((List.range' 1 31).map noteRequest) sender ∧
    sender.stage.unfinalizedBlock = some ((notes (demoHost true) 1 30).flatMap frame) ∧
    (blockKeys ((notes (demoHost true) 1 30).flatMap frame)).Nodup ∧
    Run (Handles (demoHost true)) (new (filled 7)) ((List.range' 0 31).map noteRequest ++
      [.propose 0 0 hash, .send 1 0 ((notes (demoHost true) 1 30).flatMap frame)]) chat ∧
    ¬ (storedKeys chat).Nodup := by
  have hzero (m : Bytes) : (demoHost true).blake3 m ≠ Hash.zero := by
    unfold demoHost
    dsimp only
    split_ifs <;> decide
  obtain ⟨sender, chat, hash, hsender, hblock, hrun, htwice⟩ := stored_twice hzero
  exact ⟨sender, chat, hash, hsender, hblock, nodup_blockKeys_notes _ (by omega), hrun, htwice⟩

end OrionNetwork.ChatReplica
