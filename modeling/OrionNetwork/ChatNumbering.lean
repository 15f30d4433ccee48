import OrionNetwork.ChatSteps

/-!
# Numbering of finalized blocks

`last_finalized_block` is not stored: it is `block_number`, less one in the
stages where the own block is already past it. The subtraction is made in every
recovering stage, but `block_number` moves past the open block only when the
node has filled it. A node that learns a majority hash earlier is therefore one
block off, and a recovering node that accepts a foreign block stays in recovery.
Away from these two steps the number is the count of finalized blocks.
-/
namespace OrionNetwork.ChatReplica
open Codec MessageBlock BlockHash Runs

variable {host : Host} {chat : Chat}

@[simp] theorem stage_pushToFinalized (chat : Chat) (block : Block) :
    (chat.pushToFinalized block).stage = chat.stage := rfl

@[simp] theorem blockNumber_pushToFinalized (chat : Chat) (block : Block) :
    (chat.pushToFinalized block).blockNumber = chat.blockNumber := rfl

@[simp] theorem pending_fresh : BlockStage.fresh.pending = 0 := rfl

lemma subU64_of_le {a b : ℕ} (h : b ≤ a) : subU64 host a b = .ok (a - b) := by
  simp [subU64, h]

/-- Without an own block in flight the number of the open block is stored. -/
lemma lastFinalizedBlock_open {others : Vector Hash replicationFactor}
    (h : chat.stage = .unfinalized none others) :
    chat.lastFinalizedBlock host = .ok chat.blockNumber := by
  rw [Chat.lastFinalizedBlock, h, BlockStage.pending, subU64_of_le (Nat.zero_le _), Nat.sub_zero]

lemma lastFinalizedBlock_proposed {own : Block} {others : Vector Hash replicationFactor}
    (h : chat.stage = .unfinalized (some own) others) (hb : 1 ≤ chat.blockNumber) :
    chat.lastFinalizedBlock host = .ok (chat.blockNumber - 1) := by
  rw [Chat.lastFinalizedBlock, h, BlockStage.pending, subU64_of_le hb]

lemma lastFinalizedBlock_recovering {hash : Hash} {w : Bool}
    (h : chat.stage = .recovering hash w) (hb : 1 ≤ chat.blockNumber) :
    chat.lastFinalizedBlock host = .ok (chat.blockNumber - 1) := by
  rw [Chat.lastFinalizedBlock, h, BlockStage.pending, subU64_of_le hb]

/-- The stage of a chat decides how its number is read. -/
lemma lastFinalizedBlock_congr {chat' : Chat} (hstage : chat'.stage.pending = chat.stage.pending)
    (hnumber : chat'.blockNumber = chat.blockNumber) :
    chat'.lastFinalizedBlock host = chat.lastFinalizedBlock host := by
  rw [Chat.lastFinalizedBlock, Chat.lastFinalizedBlock, hstage, hnumber]

/-- The number neither underflows nor differs from the count of finalized
blocks. -/
def Sound (host : Host) (node : Node) : Prop :=
  node.chat.stage.pending ≤ node.chat.blockNumber ∧
    node.chat.lastFinalizedBlock host = .ok node.pushed.length

/-- The two steps that lose the number are left out: a vote that completes a
majority before the own block is filled, and a foreign block that a recovering
node accepts. -/
def KeepsNumber (host : Host) (node : Node) : Event → Prop
  | .push _ => True
  | .propose index number hash => ∀ others, node.chat.stage = .unfinalized none others →
      number = node.chat.blockNumber ∨ number = node.chat.blockNumber + 1 →
      votes (others.set index hash index.isLt) hash ≤ replicationFactor / 2
  | .send _ number block => ∀ finalHash w leaves, node.chat.stage = .recovering finalHash w →
      node.chat.lastFinalizedBlock host = .ok number →
      hashBlock host block ≠ .ok (finalHash, leaves)

/-- `block_number` against the count of finalized blocks, stage by stage. -/
def NumberedAt (chat : Chat) (count : ℕ) : Prop :=
  match chat.stage with
  | .unfinalized none _ => chat.blockNumber = count
  | .unfinalized (some _) _ => chat.blockNumber = count + 1
  | .recovering _ w => w = true ∧ chat.blockNumber = count + 1

lemma NumberedAt.sound {node : Node} (h : NumberedAt node.chat node.pushed.length) :
    Sound host node := by
  unfold NumberedAt at h
  split at h
  · rename_i others hstage
    refine ⟨by rw [hstage]; exact Nat.zero_le _, ?_⟩
    rw [lastFinalizedBlock_open hstage, h]
  · rename_i own others hstage
    refine ⟨by rw [hstage]; change 1 ≤ _; omega, ?_⟩
    rw [lastFinalizedBlock_proposed hstage (by omega), h, Nat.add_sub_cancel]
  · rename_i hash w hstage
    refine ⟨by rw [hstage]; change 1 ≤ _; omega, ?_⟩
    rw [lastFinalizedBlock_recovering hstage (by omega), h.2, Nat.add_sub_cancel]

lemma NumberedAt.open {count : ℕ} {others : Vector Hash replicationFactor}
    (h : NumberedAt chat count) (hs : chat.stage = .unfinalized none others) :
    chat.blockNumber = count := by
  simpa only [NumberedAt, hs] using h

lemma NumberedAt.proposed {count : ℕ} {own : Block} {others : Vector Hash replicationFactor}
    (h : NumberedAt chat count) (hs : chat.stage = .unfinalized (some own) others) :
    chat.blockNumber = count + 1 := by
  simpa only [NumberedAt, hs] using h

lemma NumberedAt.recovering {count : ℕ} {hash : Hash} {w : Bool}
    (h : NumberedAt chat count) (hs : chat.stage = .recovering hash w) :
    w = true ∧ chat.blockNumber = count + 1 := by
  simpa only [NumberedAt, hs] using h

lemma numbered_push {msg : Bytes} {out : Outcome (Except (Option Hash) Unit)} {count : ℕ}
    (hn : NumberedAt chat count) (hs : PushShape host chat msg out) :
    NumberedAt out.chat (out.pushed.toList.length + count) := by
  cases hs with
  | stored => simpa [NumberedAt] using hn
  | blocked => simpa using hn
  | finalized hfull hroom hhash hstage =>
    obtain ⟨others, hopen, -⟩ | hrec := hstage
    · have hb := hn.open hopen
      simp only [NumberedAt, Chat.finalizeCurrentBlock, stage_pushToFinalized, BlockStage.fresh,
        Option.toList_some, List.length_singleton]
      omega
    · -- a run without early majorities never recovers before its own block
      have hw := (hn.recovering hrec).1
      contradiction
  | proposed hfull hroom hhash hstage hfew =>
    have hb := hn.open hstage
    simp [NumberedAt, hb]
  | discarded hfull hroom hhash hstage hne =>
    have hw := (hn.recovering hstage).1
    contradiction

lemma numbered_propose {index : Slot} {number count : ℕ} {hash : Hash} {after : Chat}
    {pushed : Option (ℕ × Hash)} (hn : NumberedAt chat count)
    (hs : ProposeShape host chat index number hash after pushed)
    (hok : ∀ others, chat.stage = .unfinalized none others →
      number = chat.blockNumber ∨ number = chat.blockNumber + 1 →
      votes (others.set index hash index.isLt) hash ≤ replicationFactor / 2) :
    NumberedAt after (pushed.toList.length + count) := by
  cases hs with
  | ignored => simpa using hn
  | recorded hlast hnumber hstage =>
    rename_i proposed others
    cases proposed <;> simpa [NumberedAt, hstage] using hn
  | finalized hlast hnumber hstage hown hvotes =>
    have hb := hn.proposed hstage
    simp only [NumberedAt, BlockStage.fresh, blockNumber_pushToFinalized, Option.toList_some,
      List.length_singleton]
    omega
  | outvoted hlast hnumber hstage hown hvotes =>
    have hb := hn.proposed hstage
    simp [NumberedAt, hb]
  | overtaken hlast hnumber hstage hvotes =>
    rw [lastFinalizedBlock_open hstage, Except.ok.injEq] at hlast
    have hfew := hok _ hstage (by omega)
    omega

lemma numbered_send {index : Slot} {number count : ℕ} {block : Bytes}
    {out : Outcome (Except SendBlockError Unit)} (hn : NumberedAt chat count)
    (hs : SendShape host chat index number block out)
    (hok : ∀ finalHash w leaves, chat.stage = .recovering finalHash w →
      chat.lastFinalizedBlock host = .ok number → hashBlock host block ≠ .ok (finalHash, leaves)) :
    NumberedAt out.chat (out.pushed.toList.length + count) := by
  cases hs with
  | rejected reason => simpa using hn
  | recorded hlast hstage hhash hfew =>
    have hb := hn.proposed hstage
    simp [NumberedAt, hb]
  | replaced hlast hstage hhash hvotes =>
    have hb := hn.proposed hstage
    simp only [NumberedAt, stage_pushToFinalized, blockNumber_pushToFinalized, BlockStage.fresh,
      Option.toList_some, List.length_singleton]
    omega
  | recovered hlast hstage hhash => exact absurd hhash (hok _ _ _ hstage hlast)

/-- Every event that keeps the number keeps the relation between the stored
number and the count. -/
theorem numbered_step {node next : Node} {e : Event}
    (hn : NumberedAt node.chat node.pushed.length) (hok : KeepsNumber host node e)
    (hstep : Step host node e next) : NumberedAt next.chat next.pushed.length := by
  cases hstep with
  | push h =>
    simpa only [Node.after, List.length_append] using numbered_push hn (pushMessage_shape h)
  | propose h =>
    simpa only [Node.after, List.length_append] using
      numbered_propose hn (proposeMsgBlock_shape h) hok
  | send h =>
    simpa only [Node.after, List.length_append] using numbered_send hn (sendBlock_shape h) hok

theorem numbered_run {id : Identity} {es : List Event} {node : Node}
    (h : Run (guarded (KeepsNumber host) (Step host)) (Node.init id) es node) :
    NumberedAt node.chat node.pushed.length :=
  h.stateInvariant (P := fun node => NumberedAt node.chat node.pushed.length)
    (by simp [Node.init, new, NumberedAt, BlockStage.fresh])
    (fun _ _ _ hn he => numbered_step hn he.1 he.2)

/-- A vote for the open block or the next one is counted. -/
lemma proposeMsgBlock_near {index : Slot} {number k : ℕ} {hash : Hash}
    (hlast : chat.lastFinalizedBlock host = .ok k) (hnumber : number = k ∨ number = k + 1) :
    proposeMsgBlock host chat index number hash = castVote chat k index hash := by
  simp only [proposeMsgBlock, hlast]
  rw [if_neg (by omega), if_pos (by omega)]

lemma castVote_overtaken {index : Slot} {k : ℕ} {hash : Hash}
    {others : Vector Hash replicationFactor} (hstage : chat.stage = .unfinalized none others)
    (hvotes : replicationFactor / 2 < votes (others.set index hash index.isLt) hash) :
    castVote chat k index hash =
      .ok ⟨{ chat with stage := .recovering hash false }, ⟨.ok (), none⟩, none⟩ := by
  simp [castVote, hstage, hvotes]

lemma sendBlock_recovered {index : Slot} {number : ℕ} {block : Bytes} {finalHash : Hash}
    {w : Bool} {leaves : List Hash} (hstage : chat.stage = .recovering finalHash w)
    (hlast : chat.lastFinalizedBlock host = .ok number)
    (hhash : hashBlock host block = .ok (finalHash, leaves)) :
    sendBlock host chat index number block =
      .ok ⟨{ chat with currentBlock := unknownTo host leaves chat.currentBlock }.pushToFinalized
        ⟨finalHash, block⟩, .ok (), some (number, finalHash)⟩ := by
  simp [sendBlock, hstage, hlast, hhash, unknownTo]

/-- A step that does not keep the number leaves a number that is not the count. -/
lemma keepsNumber_of_sound {node next : Node} {e : Event}
    (hn : NumberedAt node.chat node.pushed.length) (hstep : Step host node e next)
    (hsound : Sound host next) : KeepsNumber host node e := by
  obtain ⟨hpending, hcount⟩ := hsound
  cases hstep with
  | push h => trivial
  | propose h =>
    intro others hstage hnumber
    by_contra hmany
    have hb := hn.open hstage
    have hlast : node.chat.lastFinalizedBlock host = .ok node.chat.blockNumber :=
      lastFinalizedBlock_open hstage
    rw [proposeMsgBlock_near hlast hnumber, castVote_overtaken hstage (by omega)] at h
    cases h
    have hone : 1 ≤ node.chat.blockNumber := hpending
    rename_i hash
    have hl : Chat.lastFinalizedBlock host { node.chat with stage := .recovering hash false } =
        .ok (node.chat.blockNumber - 1) := lastFinalizedBlock_recovering rfl hone
    simp only [Node.after, hl, Except.ok.injEq, Option.toList_none, List.nil_append] at hcount
    omega
  | send h =>
    intro finalHash w leaves hstage hlast hhash
    obtain ⟨-, hb⟩ := hn.recovering hstage
    rw [sendBlock_recovered hstage hlast hhash] at h
    cases h
    rename_i index number block
    have hl : Chat.lastFinalizedBlock host ({ node.chat with
        currentBlock := unknownTo host leaves node.chat.currentBlock }.pushToFinalized
        ⟨finalHash, block⟩) = .ok (node.chat.blockNumber - 1) :=
      lastFinalizedBlock_recovering hstage (by change 1 ≤ node.chat.blockNumber; omega)
    simp only [Node.after, hl, Except.ok.injEq, Option.toList_some, List.singleton_append,
      List.length_cons] at hcount
    omega

/-- In every run that avoids an early majority and a foreign block accepted in
recovery, `last_finalized_block` does not underflow and is the number of blocks
finalized so far, and so it never decreases. From the states of such a run, the
next step keeps this if and only if it avoids them too. -/
theorem lastFinalizedBlock_counts (host : Host) (id : Identity) (es : List Event) (node : Node)
    (h : Run (guarded (KeepsNumber host) (Step host)) (Node.init id) es node) :
    Sound host node ∧ ∀ e next, Step host node e next →
      (KeepsNumber host node e ↔ Sound host next) ∧
      (KeepsNumber host node e → ∃ k k', node.chat.lastFinalizedBlock host = .ok k ∧
        next.chat.lastFinalizedBlock host = .ok k' ∧ k ≤ k') := by
  have hn := numbered_run h
  have hs : Sound host node := hn.sound
  refine ⟨hs, fun e next hstep => ?_⟩
  have hnext (hok : KeepsNumber host node e) : Sound host next :=
    (numbered_step hn hok hstep).sound
  refine ⟨⟨hnext, keepsNumber_of_sound hn hstep⟩, fun hok => ?_⟩
  refine ⟨_, _, hs.2, (hnext hok).2, ?_⟩
  cases hstep <;> simp [Node.after]

/-- The hash that repeats one byte. -/
def filled (b : UInt8) : Hash := ⟨List.replicate 32 b, by simp⟩

/-- A host that tells apart the message `[1]` and nothing else. -/
def demoHost (overflowChecks : Bool) : Host :=
  ⟨fun m => if m = [1] then filled 1 else filled 7, overflowChecks⟩

/-- A message and two votes that disagree keep the number at zero. -/
theorem lastFinalizedBlock_counts_votes : ∃ node,
    Run (guarded (KeepsNumber (demoHost true)) (Step (demoHost true))) (Node.init Hash.zero)
      [.push [1], .propose 0 0 (filled 1), .propose 1 0 (filled 2)] node ∧
    Sound (demoHost true) node := by
  obtain ⟨node, hrun⟩ : ∃ node,
      Run (guarded (KeepsNumber (demoHost true)) (Step (demoHost true))) (Node.init Hash.zero)
        [.push [1], .propose 0 0 (filled 1), .propose 1 0 (filled 2)] node := by
    refine ⟨_, .next _ (.next _ (.next _ .start ⟨trivial, .push rfl⟩) ⟨?_, .propose rfl⟩)
      ⟨?_, .propose rfl⟩⟩
    · intro others hstage _
      cases hstage
      decide
    · intro others hstage _
      cases hstage
      decide
  exact ⟨_, hrun, (lastFinalizedBlock_counts _ _ _ _ hrun).1⟩

/-- Three votes for block 0 reach a new chat before its own block is filled:
the number underflows with overflow checks, and is not zero without them. -/
theorem lastFinalizedBlock_early_majority :
    (∃ node, Run (Step (demoHost true)) (Node.init Hash.zero)
      [.propose 0 0 (filled 1), .propose 1 0 (filled 1), .propose 2 0 (filled 1)] node ∧
      node.pushed = [] ∧ node.chat.lastFinalizedBlock (demoHost true) = .error .overflow) ∧
    ∃ node, Run (Step (demoHost false)) (Node.init Hash.zero)
      [.propose 0 0 (filled 1), .propose 1 0 (filled 1), .propose 2 0 (filled 1)] node ∧
      node.pushed = [] ∧ node.chat.lastFinalizedBlock (demoHost false) = .ok (2 ^ 64 - 1) := by
  constructor
  · exact ⟨_, .next _ (.next _ (.next _ .start (.propose rfl)) (.propose rfl)) (.propose rfl),
      rfl, rfl⟩
  · exact ⟨_, .next _ (.next _ (.next _ .start (.propose rfl)) (.propose rfl)) (.propose rfl),
      rfl, rfl⟩

end OrionNetwork.ChatReplica
