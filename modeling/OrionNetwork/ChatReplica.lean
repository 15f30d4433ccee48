import OrionNetwork.BlockHash

/-!
# One replica of a chat

The state a node keeps for one chat and the handlers that change it. A request
of another replicator comes with its position among the other replicators,
which is the vote slot it may write. Block numbers are unbounded here except
where the source subtracts from one. A handler either panics or returns the new
chat together with its reply. The field `pushed` of an outcome is an observation
for the proofs: the number and the hash of the block given to
`push_to_finalized` during the call, if any.
-/
namespace OrionNetwork.ChatReplica
open Codec MessageBlock BlockHash

def replicationFactor : ℕ := 4
def maxMessageSize : ℕ := 1024
def blockSize : ℕ := 1024 * 32
def blockHistory : ℕ := 32

instance : NeZero replicationFactor := ⟨by decide⟩

abbrev Identity := Hash
abbrev Nonce := UInt64

/-- Position of a peer among the other replicators of the chat. -/
abbrev Slot := Fin replicationFactor

structure Block where
  hash : Hash
  data : Bytes
  deriving DecidableEq

inductive BlockStage where
  | unfinalized (proposed : Option Block) (others : Vector Hash replicationFactor)
  | recovering (finalHash : Hash) (weFinalized : Bool)
  deriving DecidableEq

namespace BlockStage

/-- Unused slots hold the zero hash. -/
def fresh : BlockStage := .unfinalized none (Vector.replicate replicationFactor Hash.zero)

def unfinalizedBlock : BlockStage → Option Bytes
  | unfinalized proposed _ => proposed.map Block.data
  | recovering _ _ => none

/-- The stages in which `block_number` is already past the open block. -/
def pending : BlockStage → ℕ
  | unfinalized (some _) _ => 1
  | unfinalized none _ => 0
  | recovering _ _ => 1

end BlockStage

structure Chat where
  members : Identity → Option Nonce
  finalized : List Block
  currentBlock : Bytes
  blockNumber : ℕ
  stage : BlockStage

/-- `Chat::new`: one member, whose last nonce is zero. -/
def new (id : Identity) : Chat where
  members := fun i => if i = id then some 0 else none
  finalized := []
  currentBlock := []
  blockNumber := 0
  stage := .fresh

/-- `u64` subtraction under the overflow mode of the build. -/
def subU64 (host : Host) (a b : ℕ) : Except Panic ℕ :=
  if b ≤ a then .ok (a - b)
  else if host.overflowChecks then .error .overflow
  else .ok (a + 2 ^ 64 - b)

/-- Number of slots holding `h`. -/
def votes (others : Vector Hash replicationFactor) (h : Hash) : ℕ :=
  (others.toList.filter (· == h)).length

namespace Chat

def lastFinalizedBlock (host : Host) (chat : Chat) : Except Panic ℕ :=
  subU64 host chat.blockNumber chat.stage.pending

/-- The newest block is at the front; the oldest falls off a full history. -/
def pushToFinalized (chat : Chat) (block : Block) : Chat :=
  { chat with finalized :=
      block :: (if chat.finalized.length = blockHistory then chat.finalized.dropLast
        else chat.finalized) }

def finalizeCurrentBlock (chat : Chat) (hash : Hash) : Chat :=
  { ({ chat with stage := .fresh }.pushToFinalized ⟨hash, chat.currentBlock⟩) with
    currentBlock := []
    blockNumber := chat.blockNumber + 1 }

end Chat

structure Outcome (ρ : Type) where
  chat : Chat
  reply : ρ
  pushed : Option (ℕ × Hash)

/-- Appends a framed message unless the capacity of the block is exceeded. -/
def tryPush (block msg : Bytes) : Option Bytes :=
  if block.length + msg.length + packetLenWidth ≤ blockSize then some (block ++ frame msg)
  else none

/-- The second attempt of `push_message`, on an emptied block. -/
def pushAgain (chat : Chat) (msg : Bytes) (hash : Hash) (pushed : Option (ℕ × Hash)) :
    Except Panic (Outcome (Except (Option Hash) Unit)) :=
  match tryPush chat.currentBlock msg with
  | some block => .ok ⟨{ chat with currentBlock := block }, .error (some hash), pushed⟩
  | none => .error (.expect "we checked size limits")

/-- The message is given by its encoding. `Err(Some(hash))` means that the own
block is full and its hash has to be proposed. -/
def pushMessage (host : Host) (chat : Chat) (msg : Bytes) :
    Except Panic (Outcome (Except (Option Hash) Unit)) :=
  match tryPush chat.currentBlock msg with
  | some block => .ok ⟨{ chat with currentBlock := block }, .ok (), none⟩
  | none =>
    match chat.stage with
    | .unfinalized (some _) _ => .ok ⟨chat, .error none, none⟩
    | .unfinalized none others =>
      match hashBlock host chat.currentBlock with
      | .error p => .error p
      | .ok (hash, _) =>
        if votes others hash ≥ replicationFactor / 2 then
          pushAgain (chat.finalizeCurrentBlock hash) msg hash (some (chat.blockNumber, hash))
        else
          pushAgain { chat with
              stage := .unfinalized (some ⟨hash, chat.currentBlock⟩) others
              currentBlock := []
              blockNumber := chat.blockNumber + 1 } msg hash none
    | .recovering _ true => .ok ⟨chat, .error none, none⟩
    | .recovering finalHash false =>
      match hashBlock host chat.currentBlock with
      | .error p => .error p
      | .ok (hash, _) =>
        if hash = finalHash then
          pushAgain (chat.finalizeCurrentBlock hash) msg hash (some (chat.blockNumber, hash))
        else
          pushAgain { chat with stage := .recovering finalHash true, currentBlock := [] } msg hash
            none

inductive ProposeMsgBlockError where
  | noReplicator
  | chatNotFound
  | noBlocks
  | notServer
  deriving DecidableEq, Repr

/-- What a vote is answered with, and the block sent back to the voter when it
is one block behind with another hash. -/
structure ProposeReply where
  result : Except ProposeMsgBlockError Unit
  sendBlock : Option (ℕ × Bytes)

/-- The part of `ProposeMsgBlock` that records a vote for the open block. -/
def castVote (chat : Chat) (ourFinalized : ℕ) (index : Slot) (phash : Hash) :
    Except Panic (Outcome ProposeReply) :=
  match chat.stage with
  | .recovering _ _ => .ok ⟨chat, ⟨.ok (), none⟩, none⟩
  | .unfinalized proposed others =>
    let weMatch := proposed.map Block.hash = some phash
    let others := others.set index phash index.isLt
    if votes others phash > replicationFactor / 2 - (if weMatch then 1 else 0) then
      match proposed with
      | some block =>
        if block.hash = phash then
          .ok ⟨{ chat.pushToFinalized block with stage := .fresh }, ⟨.ok (), none⟩,
            some (ourFinalized, block.hash)⟩
        else .ok ⟨{ chat with stage := .recovering phash true }, ⟨.ok (), none⟩, none⟩
      | none => .ok ⟨{ chat with stage := .recovering phash false }, ⟨.ok (), none⟩, none⟩
    else if Hash.zero ∉ others.toList ∧ proposed.isSome then
      .error (.todo "no majority, we need to initialize recovery")
    else .ok ⟨{ chat with stage := .unfinalized proposed others }, ⟨.ok (), none⟩, none⟩

/-- `ProposeMsgBlock` once the sender is known to be replicator `index`. -/
def proposeMsgBlock (host : Host) (chat : Chat) (index : Slot) (number : ℕ)
    (phash : Hash) : Except Panic (Outcome ProposeReply) :=
  match chat.lastFinalizedBlock host with
  | .error p => .error p
  | .ok ourFinalized =>
    if number < ourFinalized then
      if ourFinalized - number ≤ 1 then
        match chat.finalized with
        | [] => .ok ⟨chat, ⟨.error .noBlocks, none⟩, none⟩
        | block :: _ =>
          if block.hash = phash then .ok ⟨chat, ⟨.ok (), none⟩, none⟩
          else .ok ⟨chat, ⟨.ok (), some (number, block.data)⟩, none⟩
      else .error (.todo "sender needs more complex data recovery")
    else if number - ourFinalized ≤ 1 then castVote chat ourFinalized index phash
    else .error (.todo "we are behind, so I guess just wait for blocks")

inductive InvalidBlockReason where
  | majorityMismatch
  | outdated
  | notExpected
  deriving DecidableEq, Repr

inductive SendBlockError where
  | noReplicator
  | chatNotFound
  | invalidBlock (reason : InvalidBlockReason)
  deriving DecidableEq, Repr

/-- `SendBlock` once the sender is known to be replicator `index`. -/
def sendBlock (host : Host) (chat : Chat) (index : Slot) (number : ℕ) (block : Bytes) :
    Except Panic (Outcome (Except SendBlockError Unit)) :=
  match chat.lastFinalizedBlock host with
  | .error p => .error p
  | .ok lastFinalized =>
    if lastFinalized ≠ number then .ok ⟨chat, .error (.invalidBlock .outdated), none⟩
    else
      match chat.stage with
      | .unfinalized (some own) others =>
        match hashBlock host block with
        | .error p => .error p
        | .ok (hash, _) =>
          let others := others.set index hash index.isLt
          if votes others hash < replicationFactor / 2 then
            .ok ⟨{ chat with stage := .unfinalized (some own) others },
              .error (.invalidBlock .majorityMismatch), none⟩
          else
            .ok ⟨{ chat with stage := .fresh }.pushToFinalized ⟨hash, block⟩, .ok (),
              some (number, hash)⟩
      | .unfinalized none _ => .ok ⟨chat, .error (.invalidBlock .notExpected), none⟩
      | .recovering finalHash _ =>
        match hashBlock host block with
        | .error p => .error p
        | .ok (hash, leaves) =>
          if hash ≠ finalHash then
            .ok ⟨chat, .error (.invalidBlock .majorityMismatch), none⟩
          else
            let rest := retainMessagesInVec chat.currentBlock
              fun msg => !leaves.contains (host.blake3 msg)
            .ok ⟨{ chat with currentBlock := rest }.pushToFinalized ⟨hash, block⟩, .ok (),
              some (number, hash)⟩

inductive ChatAction where
  | addUser (id : Identity)
  | sendMessage (msg : Bytes)

inductive ChatActionError where
  | chatNotFound
  | invalidProof
  | notMember
  | alreadyMember
  | invalidAction (expected : Nonce)
  | messageTooLarge
  | messageBlockNotFinalized
  deriving DecidableEq

/-- The parts of a `Proof<ChatName>` that decide a chat action. Whether the
signature verifies is known from outside. -/
structure ChatProof where
  verified : Bool
  pk : Bytes
  nonce : Nonce

/-- `Some` of the new value when the nonce moves forward. -/
def advanceNonce (current new : Nonce) : Option Nonce :=
  if new > current then some new else none

/-- The codec of `Message`: a 32-byte array, an integer, and the rest. -/
def encodeMessage (identity : Identity) (nonce : Nonce) (content : Bytes) : Bytes :=
  identity.bytes ++ base128Encode nonce ++ content

/-- What an action is answered with, the block proposal sent to the other
replicators, and whether subscribers see a new message. -/
structure ActionReply where
  result : Except ChatActionError Unit
  proposal : Option (ℕ × Hash)
  broadcast : Bool

def rejected (chat : Chat) (err : ChatActionError) : Outcome ActionReply :=
  ⟨chat, ⟨.error err, none, false⟩, none⟩

/-- The `SendMessage` arm, after the nonce of the sender has been advanced. -/
def sendMessage (host : Host) (chat : Chat) (sender : Identity) (nonce : Nonce) (msg : Bytes) :
    Except Panic (Outcome ActionReply) :=
  if msg.length > maxMessageSize then .ok (rejected chat .messageTooLarge)
  else
    match pushMessage host chat (encodeMessage sender (nonce - 1) msg) with
    | .error p => .error p
    | .ok out =>
      match out.reply with
      | .error (some hash) =>
        .ok ⟨out.chat, ⟨.ok (), some (chat.blockNumber, hash), true⟩, out.pushed⟩
      | .error none => .ok (rejected out.chat .messageBlockNotFinalized)
      | .ok () => .ok ⟨out.chat, ⟨.ok (), none, true⟩, out.pushed⟩

/-- `PerformChatAction` on the chat the proof names. -/
def performChatAction (host : Host) (chat : Chat) (proof : ChatProof) (action : ChatAction) :
    Except Panic (Outcome ActionReply) :=
  if !proof.verified then .ok (rejected chat .invalidProof)
  else
    let sender := host.blake3 proof.pk
    match chat.members sender with
    | none => .ok (rejected chat .notMember)
    | some current =>
      match advanceNonce current proof.nonce with
      | none => .ok (rejected chat (.invalidAction current))
      | some nonce =>
        let chat := { chat with members := Function.update chat.members sender (some nonce) }
        match action with
        | .addUser id =>
          if (chat.members id).isSome then .ok (rejected chat .alreadyMember)
          else
            .ok ⟨{ chat with members := Function.update chat.members id (some 0) },
              ⟨.ok (), none, false⟩, none⟩
        | .sendMessage msg => sendMessage host chat sender nonce msg

end OrionNetwork.ChatReplica
