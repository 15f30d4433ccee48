import OrionNetwork.ChatReplica
import OrionNetwork.Runs

/-!
# What one event can do to a chat

Each handler is inverted once: its outcome is one of a few shapes, with the
guard that leads there. Every invariant of a chat is derived from these shapes
and from nothing else. A run then handles local pushes, votes and foreign blocks
in any order, and keeps the history the invariants speak about.
-/
namespace OrionNetwork.ChatReplica
open Codec MessageBlock BlockHash Runs

variable {host : Host} {chat : Chat}

inductive PushShape (host : Host) (chat : Chat) (msg : Bytes) :
    Outcome (Except (Option Hash) Unit) → Prop where
  | stored (hfit : chat.currentBlock.length + msg.length + packetLenWidth ≤ blockSize) :
      PushShape host chat msg
        ⟨{ chat with currentBlock := chat.currentBlock ++ frame msg }, .ok (), none⟩
  | blocked (hfull : blockSize < chat.currentBlock.length + msg.length + packetLenWidth)
      (hstage : (∃ own others, chat.stage = .unfinalized (some own) others) ∨
        ∃ h, chat.stage = .recovering h true) :
      PushShape host chat msg ⟨chat, .error none, none⟩
  | finalized (hfull : blockSize < chat.currentBlock.length + msg.length + packetLenWidth)
      (hroom : msg.length + packetLenWidth ≤ blockSize)
      {hash : Hash} {leaves : List Hash}
      (hhash : hashBlock host chat.currentBlock = .ok (hash, leaves))
      (hstage : (∃ others, chat.stage = .unfinalized none others ∧
          replicationFactor / 2 ≤ votes others hash) ∨ chat.stage = .recovering hash false) :
      PushShape host chat msg
        ⟨{ chat.finalizeCurrentBlock hash with currentBlock := frame msg },
          .error (some hash), some (chat.blockNumber, hash)⟩
  | proposed (hfull : blockSize < chat.currentBlock.length + msg.length + packetLenWidth)
      (hroom : msg.length + packetLenWidth ≤ blockSize)
      {hash : Hash} {leaves : List Hash} {others : Vector Hash replicationFactor}
      (hhash : hashBlock host chat.currentBlock = .ok (hash, leaves))
      (hstage : chat.stage = .unfinalized none others)
      (hfew : votes others hash < replicationFactor / 2) :
      PushShape host chat msg
        ⟨{ chat with
            stage := .unfinalized (some ⟨hash, chat.currentBlock⟩) others
            currentBlock := frame msg
            blockNumber := chat.blockNumber + 1 }, .error (some hash), none⟩
  | discarded (hfull : blockSize < chat.currentBlock.length + msg.length + packetLenWidth)
      (hroom : msg.length + packetLenWidth ≤ blockSize)
      {hash finalHash : Hash} {leaves : List Hash}
      (hhash : hashBlock host chat.currentBlock = .ok (hash, leaves))
      (hstage : chat.stage = .recovering finalHash false) (hne : hash ≠ finalHash) :
      PushShape host chat msg
        ⟨{ chat with stage := .recovering finalHash true, currentBlock := frame msg },
          .error (some hash), none⟩

lemma pushAgain_ok {chat : Chat} {msg : Bytes} {hash : Hash}
    {pushed : Option (ℕ × Hash)} {out : Outcome (Except (Option Hash) Unit)}
    (hempty : chat.currentBlock = []) (h : pushAgain chat msg hash pushed = .ok out) :
    out = ⟨{ chat with currentBlock := frame msg }, .error (some hash), pushed⟩ ∧
      msg.length + packetLenWidth ≤ blockSize := by
  simp only [pushAgain, tryPush, hempty, List.length_nil, List.nil_append, Nat.zero_add] at h
  split at h
  · rename_i block hb
    split_ifs at hb with hfit
    simp only [Option.some.injEq] at hb
    subst hb
    exact ⟨by simpa using h.symm, hfit⟩
  · contradiction

theorem pushMessage_shape {msg : Bytes} {out : Outcome (Except (Option Hash) Unit)}
    (h : pushMessage host chat msg = .ok out) : PushShape host chat msg out := by
  simp only [pushMessage] at h
  by_cases hfit : chat.currentBlock.length + msg.length + packetLenWidth ≤ blockSize
  · simp only [tryPush, if_pos hfit, Except.ok.injEq] at h
    subst h
    exact .stored hfit
  · have hfull : blockSize < chat.currentBlock.length + msg.length + packetLenWidth := by omega
    simp only [tryPush, if_neg hfit] at h
    split at h
    · rename_i own others hstage
      cases h
      exact .blocked hfull (.inl ⟨own, others, hstage⟩)
    · rename_i others hstage
      split at h
      · contradiction
      · rename_i hash leaves hhash
        split_ifs at h with hv
        · obtain ⟨rfl, hroom⟩ := pushAgain_ok rfl h
          exact .finalized hfull hroom hhash (.inl ⟨others, hstage, hv⟩)
        · obtain ⟨rfl, hroom⟩ := pushAgain_ok rfl h
          exact .proposed hfull hroom hhash hstage (by omega)
    · rename_i fh hstage
      cases h
      exact .blocked hfull (.inr ⟨fh, hstage⟩)
    · rename_i fh hstage
      split at h
      · contradiction
      · rename_i hash leaves hhash
        split_ifs at h with hv
        · obtain ⟨rfl, hroom⟩ := pushAgain_ok rfl h
          exact .finalized hfull hroom hhash (.inr (hv ▸ hstage))
        · obtain ⟨rfl, hroom⟩ := pushAgain_ok rfl h
          exact .discarded hfull hroom hhash hstage hv

/-- Of a vote only the chat and the observation matter here; the replies that
leave the chat alone are not told apart. -/
inductive ProposeShape (host : Host) (chat : Chat) (index : Slot) (number : ℕ)
    (hash : Hash) : Chat → Option (ℕ × Hash) → Prop where
  | ignored : ProposeShape host chat index number hash chat none
  | recorded {k : ℕ} {proposed : Option Block} {others : Vector Hash replicationFactor}
      (hlast : chat.lastFinalizedBlock host = .ok k) (hnumber : number = k ∨ number = k + 1)
      (hstage : chat.stage = .unfinalized proposed others) :
      ProposeShape host chat index number hash
        { chat with stage := .unfinalized proposed (others.set index hash index.isLt) } none
  | finalized {k : ℕ} {own : Block} {others : Vector Hash replicationFactor}
      (hlast : chat.lastFinalizedBlock host = .ok k) (hnumber : number = k ∨ number = k + 1)
      (hstage : chat.stage = .unfinalized (some own) others) (hown : own.hash = hash)
      (hvotes : replicationFactor / 2 ≤ votes (others.set index hash index.isLt) hash) :
      ProposeShape host chat index number hash
        { chat.pushToFinalized own with stage := .fresh } (some (k, hash))
  | outvoted {k : ℕ} {own : Block} {others : Vector Hash replicationFactor}
      (hlast : chat.lastFinalizedBlock host = .ok k) (hnumber : number = k ∨ number = k + 1)
      (hstage : chat.stage = .unfinalized (some own) others) (hown : own.hash ≠ hash)
      (hvotes : replicationFactor / 2 < votes (others.set index hash index.isLt) hash) :
      ProposeShape host chat index number hash { chat with stage := .recovering hash true } none
  | overtaken {k : ℕ} {others : Vector Hash replicationFactor}
      (hlast : chat.lastFinalizedBlock host = .ok k) (hnumber : number = k ∨ number = k + 1)
      (hstage : chat.stage = .unfinalized none others)
      (hvotes : replicationFactor / 2 < votes (others.set index hash index.isLt) hash) :
      ProposeShape host chat index number hash { chat with stage := .recovering hash false } none

theorem castVote_shape {index : Slot} {number k : ℕ} {hash : Hash}
    {out : Outcome ProposeReply} (hlast : chat.lastFinalizedBlock host = .ok k)
    (hnumber : number = k ∨ number = k + 1) (h : castVote chat k index hash = .ok out) :
    ProposeShape host chat index number hash out.chat out.pushed := by
  simp only [castVote] at h
  split at h
  · cases h
    exact .ignored
  · rename_i proposed others hstage
    cases proposed with
    | none =>
      simp only [Option.map_none, reduceCtorEq, if_false, Nat.sub_zero, Option.isSome_none,
        Bool.false_eq_true, and_false] at h
      split_ifs at h with hv
      · cases h
        exact .overtaken hlast hnumber hstage hv
      · cases h
        exact .recorded hlast hnumber hstage
    | some own =>
      simp only [Option.map_some, Option.some.injEq, Option.isSome_some, and_true] at h
      by_cases hown : own.hash = hash
      · simp only [hown, if_true] at h
        split_ifs at h with hv
        · cases h
          exact .finalized hlast hnumber hstage hown (by omega)
        · cases h
          exact .recorded hlast hnumber hstage
      · simp only [hown, if_false, Nat.sub_zero] at h
        split_ifs at h with hv
        · cases h
          exact .outvoted hlast hnumber hstage hown hv
        · cases h
          exact .recorded hlast hnumber hstage

theorem proposeMsgBlock_shape {index : Slot} {number : ℕ} {hash : Hash}
    {out : Outcome ProposeReply} (h : proposeMsgBlock host chat index number hash = .ok out) :
    ProposeShape host chat index number hash out.chat out.pushed := by
  simp only [proposeMsgBlock] at h
  split at h
  · contradiction
  · rename_i k hlast
    split_ifs at h with hless hnear hahead
    · split at h
      · cases h
        exact .ignored
      · split_ifs at h
        · cases h
          exact .ignored
        · cases h
          exact .ignored
    · exact castVote_shape hlast (by omega) h

/-- The messages of the current block that a foreign block does not contain. -/
def unknownTo (host : Host) (leaves : List Hash) (block : Bytes) : Bytes :=
  retainMessagesInVec block fun msg => !leaves.contains (host.blake3 msg)

inductive SendShape (host : Host) (chat : Chat) (index : Slot) (number : ℕ)
    (block : Bytes) : Outcome (Except SendBlockError Unit) → Prop where
  | rejected (reason : InvalidBlockReason) :
      SendShape host chat index number block ⟨chat, .error (.invalidBlock reason), none⟩
  | recorded {own : Block} {others : Vector Hash replicationFactor} {hash : Hash}
      {leaves : List Hash} (hlast : chat.lastFinalizedBlock host = .ok number)
      (hstage : chat.stage = .unfinalized (some own) others)
      (hhash : hashBlock host block = .ok (hash, leaves))
      (hfew : votes (others.set index hash index.isLt) hash < replicationFactor / 2) :
      SendShape host chat index number block
        ⟨{ chat with stage := .unfinalized (some own) (others.set index hash index.isLt) },
          .error (.invalidBlock .majorityMismatch), none⟩
  | replaced {own : Block} {others : Vector Hash replicationFactor} {hash : Hash}
      {leaves : List Hash} (hlast : chat.lastFinalizedBlock host = .ok number)
      (hstage : chat.stage = .unfinalized (some own) others)
      (hhash : hashBlock host block = .ok (hash, leaves))
      (hvotes : replicationFactor / 2 ≤ votes (others.set index hash index.isLt) hash) :
      SendShape host chat index number block
        ⟨{ chat with stage := .fresh }.pushToFinalized ⟨hash, block⟩, .ok (), some (number, hash)⟩
  | recovered {finalHash : Hash} {weFinalized : Bool} {leaves : List Hash}
      (hlast : chat.lastFinalizedBlock host = .ok number)
      (hstage : chat.stage = .recovering finalHash weFinalized)
      (hhash : hashBlock host block = .ok (finalHash, leaves)) :
      SendShape host chat index number block
        ⟨{ chat with currentBlock := unknownTo host leaves chat.currentBlock }.pushToFinalized
          ⟨finalHash, block⟩, .ok (), some (number, finalHash)⟩

theorem sendBlock_shape {index : Slot} {number : ℕ} {block : Bytes}
    {out : Outcome (Except SendBlockError Unit)}
    (h : sendBlock host chat index number block = .ok out) :
    SendShape host chat index number block out := by
  simp only [sendBlock] at h
  split at h
  · contradiction
  · rename_i k hlast
    split_ifs at h with hk
    · cases h
      exact .rejected _
    · rw [not_not] at hk
      subst hk
      split at h
      · rename_i own others hstage
        split at h
        · contradiction
        · rename_i hash leaves hhash
          split_ifs at h with hv
          · cases h
            exact .recorded hlast hstage hhash hv
          · cases h
            exact .replaced hlast hstage hhash (by omega)
      · cases h
        exact .rejected _
      · rename_i fh w hstage
        split at h
        · contradiction
        · rename_i hash leaves hhash
          split_ifs at h with hne
          · cases h
            exact .rejected _
          · rw [not_not] at hne
            subst hne
            cases h
            exact .recovered hlast hstage hhash

/-- What reaches a chat: a local message, a vote, a foreign block. -/
inductive Event where
  | push (msg : Bytes)
  | propose (index : Slot) (number : ℕ) (hash : Hash)
  | send (index : Slot) (number : ℕ) (block : Bytes)

/-- A vote: `none` is the node itself, which votes by proposing its own block. -/
abbrev Ballot := Option Slot × ℕ × Hash

/-- A replica with the history that the results speak about, newest first:
every block ever given to `push_to_finalized`, every entry into recovery, and
every vote cast. -/
structure Node where
  chat : Chat
  pushed : List (ℕ × Hash)
  recovered : List (ℕ × Hash)
  ballots : List Ballot

namespace Node

def init (id : Identity) : Node := ⟨new id, [], [], []⟩

/-- The entry into recovery made by a change of the chat, with the number of
the block being recovered. -/
def entered (host : Host) (before after : Chat) : List (ℕ × Hash) :=
  match before.stage, after.stage, before.lastFinalizedBlock host with
  | .unfinalized _ _, .recovering hash _, .ok k => [(k, hash)]
  | _, _, _ => []

def after {ρ : Type} (node : Node) (host : Host) (out : Outcome ρ) (ballots : List Ballot) : Node where
  chat := out.chat
  pushed := out.pushed.toList ++ node.pushed
  recovered := entered host node.chat out.chat ++ node.recovered
  ballots := ballots ++ node.ballots

end Node

/-- The own vote made by a push: its hash goes out with the number the block
had before the push. -/
def ownBallot (chat : Chat) (reply : Except (Option Hash) Unit) : List Ballot :=
  match reply with
  | .error (some hash) => [(none, chat.blockNumber, hash)]
  | _ => []

/-- Sending a block votes for its hash. -/
def blockBallot (host : Host) (index : Slot) (number : ℕ) (block : Bytes) :
    List Ballot :=
  match hashBlock host block with
  | .ok (hash, _) => [(some index, number, hash)]
  | .error _ => []

/-- One handled event. A panicking handler has no step. -/
inductive Step (host : Host) (node : Node) : Event → Node → Prop where
  | push {msg : Bytes} {out : Outcome (Except (Option Hash) Unit)}
      (h : pushMessage host node.chat msg = .ok out) :
      Step host node (.push msg) (node.after host out (ownBallot node.chat out.reply))
  | propose {index : Slot} {number : ℕ} {hash : Hash} {out : Outcome ProposeReply}
      (h : proposeMsgBlock host node.chat index number hash = .ok out) :
      Step host node (.propose index number hash)
        (node.after host out [(some index, number, hash)])
  | send {index : Slot} {number : ℕ} {block : Bytes}
      {out : Outcome (Except SendBlockError Unit)}
      (h : sendBlock host node.chat index number block = .ok out) :
      Step host node (.send index number block)
        (node.after host out (blockBallot host index number block))

end OrionNetwork.ChatReplica
