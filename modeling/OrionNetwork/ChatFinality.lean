import OrionNetwork.ChatNumbering

/-!
# One block per number

A finalized number is behind the node: `SendBlock` compares its number with
`last_finalized_block` first, and every path that finalizes a block moves past
its number by returning to the initial stage. The one path that does not is the
foreign block accepted in recovery, which leaves `Recovering` in place, so the
next copy of the block is accepted as well.
-/
namespace OrionNetwork.ChatReplica
open Codec MessageBlock BlockHash Runs

variable {host : Host} {chat : Chat}

/-- Left out is a block sent for the number under recovery that hashes to the
recovered hash, or that cannot be read at all. -/
def FinalizesOnce (host : Host) (chat : Chat) : Event → Prop
  | .push _ => True
  | .propose _ _ _ => True
  | .send _ number block => ∀ finalHash w, chat.stage = .recovering finalHash w →
      chat.lastFinalizedBlock host = .ok number →
      ∃ hash leaves, hashBlock host block = .ok (hash, leaves) ∧ hash ≠ finalHash

/-- The number a chat finalizes next, at the earliest. -/
def nextNumber (chat : Chat) : ℕ :=
  match chat.stage with
  | .unfinalized (some _) _ => chat.blockNumber - 1
  | .unfinalized none _ => chat.blockNumber
  | .recovering _ _ => chat.blockNumber

/-- Every finalized number lies behind the next one and occurs once. -/
structure Behind (chat : Chat) (numbers : List ℕ) : Prop where
  nodup : numbers.Nodup
  lt : ∀ k ∈ numbers, k < nextNumber chat
  counted : ∀ own others, chat.stage = .unfinalized (some own) others → 1 ≤ chat.blockNumber

namespace Behind

variable {numbers : List ℕ}

/-- A change that finalizes nothing and does not lower the next number. -/
lemma keep {after : Chat} (h : Behind chat numbers) (hle : nextNumber chat ≤ nextNumber after)
    (hcounted : ∀ own others, after.stage = .unfinalized (some own) others → 1 ≤ after.blockNumber) :
    Behind after numbers where
  nodup := h.nodup
  lt k hk := lt_of_lt_of_le (h.lt k hk) hle
  counted := hcounted

/-- The next number may be finalized when the chat then opens the block after it. -/
lemma finalize {after : Chat} {k : ℕ} {others : Vector Hash replicationFactor}
    (h : Behind chat numbers) (hk : k = nextNumber chat)
    (hstage : after.stage = .unfinalized none others) (hb : after.blockNumber = k + 1) :
    Behind after (k :: numbers) := by
  have hnext : nextNumber after = k + 1 := by rw [nextNumber, hstage]; exact hb
  refine ⟨?_, ?_, ?_⟩
  · refine List.nodup_cons.mpr ⟨fun hmem => ?_, h.nodup⟩
    have hlt := h.lt k hmem
    omega
  · intro j hj
    rw [hnext]
    obtain rfl | hj := List.mem_cons.mp hj
    · exact Nat.lt_succ_self _
    · have hlt := h.lt j hj
      omega
  · intro own others' hs
    rw [hstage] at hs
    cases hs

lemma last_proposed {own : Block} {others : Vector Hash replicationFactor} {k : ℕ}
    (h : Behind chat numbers) (hstage : chat.stage = .unfinalized (some own) others)
    (hlast : chat.lastFinalizedBlock host = .ok k) :
    k = nextNumber chat ∧ chat.blockNumber = k + 1 := by
  have hb := h.counted own others hstage
  rw [lastFinalizedBlock_proposed hstage hb, Except.ok.injEq] at hlast
  simp only [nextNumber, hstage]
  omega

end Behind

lemma behind_push {msg : Bytes} {out : Outcome (Except (Option Hash) Unit)} {numbers : List ℕ}
    (hb : Behind chat numbers) (hs : PushShape host chat msg out) :
    Behind out.chat (out.pushed.toList.map Prod.fst ++ numbers) := by
  cases hs with
  | stored => exact hb.keep le_rfl hb.counted
  | blocked => exact hb
  | finalized hfull hroom hhash hstage =>
    refine hb.finalize ?_ rfl rfl
    obtain ⟨others, hopen, -⟩ | hrec := hstage
    · rw [nextNumber, hopen]
    · rw [nextNumber, hrec]
  | proposed hfull hroom hhash hstage hfew =>
    refine hb.keep ?_ (fun _ _ _ => Nat.le_add_left _ _)
    rw [nextNumber, hstage]
    exact le_rfl
  | discarded hfull hroom hhash hstage hne =>
    refine hb.keep ?_ (fun _ _ hs => by contradiction)
    rw [nextNumber, hstage]
    exact le_rfl

lemma behind_propose {index : Slot} {number : ℕ} {hash : Hash} {after : Chat}
    {pushed : Option (ℕ × Hash)} {numbers : List ℕ} (hb : Behind chat numbers)
    (hs : ProposeShape host chat index number hash after pushed) :
    Behind after (pushed.toList.map Prod.fst ++ numbers) := by
  cases hs with
  | ignored => exact hb
  | recorded hlast hnumber hstage =>
    rename_i k proposed others
    cases proposed with
    | none => exact hb.keep (by simp [nextNumber, hstage]) (fun _ _ hs => by cases hs)
    | some own =>
      have hone := hb.counted own others hstage
      exact hb.keep (by simp [nextNumber, hstage]) (fun _ _ _ => hone)
  | finalized hlast hnumber hstage hown hvotes =>
    obtain ⟨hk, hsucc⟩ := hb.last_proposed hstage hlast
    exact hb.finalize hk rfl hsucc
  | outvoted hlast hnumber hstage hown hvotes =>
    exact hb.keep (by simp [nextNumber, hstage]) (fun _ _ hs => by cases hs)
  | overtaken hlast hnumber hstage hvotes =>
    exact hb.keep (by simp [nextNumber, hstage]) (fun _ _ hs => by cases hs)

lemma behind_send {index : Slot} {number : ℕ} {block : Bytes}
    {out : Outcome (Except SendBlockError Unit)} {numbers : List ℕ} (hb : Behind chat numbers)
    (hs : SendShape host chat index number block out)
    (hok : FinalizesOnce host chat (.send index number block)) :
    Behind out.chat (out.pushed.toList.map Prod.fst ++ numbers) := by
  cases hs with
  | rejected reason => exact hb
  | recorded hlast hstage hhash hfew =>
    rename_i own others hash leaves
    have hone := hb.counted own others hstage
    exact hb.keep (by simp [nextNumber, hstage]) (fun _ _ _ => hone)
  | replaced hlast hstage hhash hvotes =>
    obtain ⟨hk, hsucc⟩ := hb.last_proposed hstage hlast
    exact hb.finalize hk rfl hsucc
  | recovered hlast hstage hhash =>
    obtain ⟨hash, leaves, hother, hne⟩ := hok _ _ hstage hlast
    rw [hhash, Except.ok.injEq, Prod.mk.injEq] at hother
    exact absurd hother.1.symm hne

theorem behind_step {node next : Node} {e : Event}
    (hb : Behind node.chat (node.pushed.map Prod.fst)) (hok : FinalizesOnce host node.chat e)
    (hstep : Step host node e next) : Behind next.chat (next.pushed.map Prod.fst) := by
  cases hstep with
  | push h =>
    simpa only [Node.after, List.map_append] using behind_push hb (pushMessage_shape h)
  | propose h =>
    simpa only [Node.after, List.map_append] using behind_propose hb (proposeMsgBlock_shape h)
  | send h =>
    simpa only [Node.after, List.map_append] using behind_send hb (sendBlock_shape h) hok

/-- The steps admitted by `FinalizesOnce`. -/
abbrev OnceStep (host : Host) : Node → Event → Node → Prop :=
  guarded (fun node e => FinalizesOnce host node.chat e) (Step host)

theorem behind_run {id : Identity} {es : List Event} {node : Node}
    (h : Run (OnceStep host) (Node.init id) es node) :
    Behind node.chat (node.pushed.map Prod.fst) :=
  h.stateInvariant (P := fun node => Behind node.chat (node.pushed.map Prod.fst))
    ⟨List.nodup_nil, by simp [Node.init], by simp [Node.init, new, BlockStage.fresh]⟩
    (fun _ _ _ hb he => behind_step hb he.1 he.2)

/-- Refused, with the chat as it was. -/
def Refused (host : Host) (chat : Chat) (index : Slot) (number : ℕ) (block : Bytes) : Prop :=
  ∃ reason, sendBlock host chat index number block =
    .ok ⟨chat, .error (.invalidBlock reason), none⟩

lemma refused_outdated {index : Slot} {number k : ℕ} {block : Bytes}
    (hlast : chat.lastFinalizedBlock host = .ok k) (hne : k ≠ number) :
    Refused host chat index number block :=
  ⟨.outdated, by simp [sendBlock, hlast, hne]⟩

/-- A block for a number that is already finalized is refused, unless the chat
is recovering and the block is the one it waits for. -/
lemma refused_iff {index : Slot} {number : ℕ} {block : Bytes} {numbers : List ℕ}
    (hb : Behind chat numbers) (hmem : number ∈ numbers) :
    FinalizesOnce host chat (.send index number block) ↔ Refused host chat index number block := by
  have hlt := hb.lt number hmem
  cases hstage : chat.stage with
  | unfinalized proposed others =>
    have hrefused : Refused host chat index number block := by
      cases proposed with
      | none =>
        simp only [nextNumber, hstage] at hlt
        exact refused_outdated (lastFinalizedBlock_open hstage) (by omega)
      | some own =>
        have hone := hb.counted own others hstage
        simp only [nextNumber, hstage] at hlt
        exact refused_outdated (lastFinalizedBlock_proposed hstage hone) (by omega)
    refine ⟨fun _ => hrefused, fun _ finalHash w hs => ?_⟩
    rw [hstage] at hs
    contradiction
  | recovering finalHash w =>
    simp only [nextNumber, hstage] at hlt
    have hlast : chat.lastFinalizedBlock host = .ok (chat.blockNumber - 1) :=
      lastFinalizedBlock_recovering hstage (by omega)
    constructor
    · intro hok
      by_cases hk : chat.blockNumber - 1 = number
      · obtain ⟨hash, leaves, hhash, hne⟩ := hok _ _ hstage (hk ▸ hlast)
        exact ⟨.majorityMismatch, by simp [sendBlock, hlast, hk, hstage, hhash, hne]⟩
      · exact refused_outdated hlast hk
    · rintro ⟨reason, hrefused⟩ fh w' hs hl
      rw [hstage] at hs
      cases hs
      rw [hlast, Except.ok.injEq] at hl
      simp only [sendBlock, hlast, hl, ne_eq, not_true_eq_false, if_false, hstage] at hrefused
      split at hrefused
      · contradiction
      · rename_i hash leaves hhash
        refine ⟨hash, leaves, hhash, fun he => ?_⟩
        simp [he] at hrefused

/-- The stage a chat is in between finalizations. -/
def InUnfinalized (chat : Chat) : Prop :=
  ∃ proposed others, chat.stage = .unfinalized proposed others

lemma push_inUnfinalized {msg : Bytes} {out : Outcome (Except (Option Hash) Unit)}
    {p : ℕ × Hash} (hs : PushShape host chat msg out) (hp : out.pushed = some p) :
    InUnfinalized out.chat := by
  cases hs with
  | finalized => exact ⟨_, _, rfl⟩
  | stored | blocked | proposed | discarded => contradiction

lemma propose_inUnfinalized {index : Slot} {number : ℕ} {hash : Hash} {after : Chat}
    {p : ℕ × Hash} (hs : ProposeShape host chat index number hash after (some p)) :
    InUnfinalized after := by
  cases hs
  exact ⟨_, _, rfl⟩

/-- Of the two ways to accept a foreign block, the one in recovery stays there. -/
lemma send_inUnfinalized_iff {index : Slot} {number : ℕ} {block : Bytes}
    {out : Outcome (Except SendBlockError Unit)} {p : ℕ × Hash}
    (hs : SendShape host chat index number block out) (hp : out.pushed = some p) :
    FinalizesOnce host chat (.send index number block) ↔ InUnfinalized out.chat := by
  cases hs with
  | rejected | recorded => contradiction
  | replaced hlast hstage hhash hvotes =>
    refine ⟨fun _ => ⟨_, _, rfl⟩, fun _ finalHash w hrec => ?_⟩
    rw [hstage] at hrec
    contradiction
  | recovered hlast hstage hhash =>
    constructor
    · intro hok
      obtain ⟨hash, leaves, hother, hne⟩ := hok _ _ hstage hlast
      rw [hhash, Except.ok.injEq, Prod.mk.injEq] at hother
      exact absurd hother.1.symm hne
    · rintro ⟨proposed, others, hs⟩
      rw [stage_pushToFinalized] at hs
      exact absurd (hstage.symm.trans hs) (by simp)

lemma exists_of_grown {pushed : Option (ℕ × Hash)} {l : List (ℕ × Hash)}
    (h : pushed.toList ++ l ≠ l) : ∃ p, pushed = some p := by
  cases pushed with
  | none => exact absurd rfl h
  | some p => exact ⟨p, rfl⟩

lemma inUnfinalized_iff {node next : Node} {e : Event} (hstep : Step host node e next)
    (hgrow : next.pushed ≠ node.pushed) :
    FinalizesOnce host node.chat e ↔ InUnfinalized next.chat := by
  cases hstep with
  | push h =>
    obtain ⟨p, hp⟩ := exists_of_grown hgrow
    exact iff_of_true trivial (push_inUnfinalized (pushMessage_shape h) hp)
  | propose h =>
    obtain ⟨p, hp⟩ := exists_of_grown hgrow
    exact iff_of_true trivial (propose_inUnfinalized (hp ▸ proposeMsgBlock_shape h))
  | send h =>
    obtain ⟨p, hp⟩ := exists_of_grown hgrow
    exact send_inUnfinalized_iff (sendBlock_shape h) hp

/-- In every run without a block accepted in recovery there are as many
finalized blocks as finalized numbers. From the states of such a run, a step
that finalizes a block ends in the unfinalized stage, and a block sent for a
finalized number is refused without a trace, each if and only if the step meets
the condition itself. -/
theorem finalized_once_per_number (host : Host) (id : Identity) (es : List Event) (node : Node)
    (h : Run (OnceStep host) (Node.init id) es node) :
    node.pushed.length = (node.pushed.map Prod.fst).toFinset.card ∧
    (∀ e next, Step host node e next → next.pushed ≠ node.pushed →
      (FinalizesOnce host node.chat e ↔ InUnfinalized next.chat)) ∧
    ∀ index k block, k ∈ node.pushed.map Prod.fst →
      (FinalizesOnce host node.chat (.send index k block) ↔
        Refused host node.chat index k block) := by
  have hb := behind_run h
  refine ⟨?_, fun e next hstep hgrow => inUnfinalized_iff hstep hgrow,
    fun index k block hk => refused_iff hb hk⟩
  rw [List.toFinset_card_of_nodup hb.nodup, List.length_map]

lemma pushMessage_fits {msg : Bytes}
    (hfit : chat.currentBlock.length + msg.length + packetLenWidth ≤ blockSize) :
    pushMessage host chat msg =
      .ok ⟨{ chat with currentBlock := chat.currentBlock ++ frame msg }, .ok (), none⟩ := by
  simp [pushMessage, tryPush, hfit]

lemma pushMessage_proposes {msg : Bytes} {hash : Hash} {leaves : List Hash}
    {others : Vector Hash replicationFactor}
    (hfull : blockSize < chat.currentBlock.length + msg.length + packetLenWidth)
    (hfit : msg.length + packetLenWidth ≤ blockSize)
    (hstage : chat.stage = .unfinalized none others)
    (hhash : hashBlock host chat.currentBlock = .ok (hash, leaves))
    (hfew : votes others hash < replicationFactor / 2) :
    pushMessage host chat msg =
      .ok ⟨{ chat with
        stage := .unfinalized (some ⟨hash, chat.currentBlock⟩) others
        currentBlock := frame msg
        blockNumber := chat.blockNumber + 1 }, .error (some hash), none⟩ := by
  have hnot : ¬ chat.currentBlock.length + msg.length + packetLenWidth ≤ blockSize := by omega
  have hmany : ¬ votes others hash ≥ replicationFactor / 2 := by omega
  simp [pushMessage, pushAgain, tryPush, hnot, hstage, hhash, hmany, hfit]

/-- A new chat whose current block holds the given messages. -/
def Node.holding (id : Identity) (msgs : List Bytes) : Node :=
  ⟨{ new id with currentBlock := msgs.flatMap frame }, [], [], []⟩

/-- Messages that fit are appended one after the other. -/
lemma run_holding (ok : Node → Event → Prop) (hok : ∀ node msg, ok node (.push msg))
    (id : Identity) (msgs : List Bytes) (hfit : (msgs.flatMap frame).length ≤ blockSize) :
    Run (guarded ok (Step host)) (Node.init id) (msgs.map .push) (Node.holding id msgs) := by
  induction msgs using List.reverseRecOn with
  | nil => exact .start
  | append_singleton msgs msg ih =>
    rw [List.flatMap_append, List.flatMap_singleton, List.length_append, length_frame] at hfit
    have hpush : pushMessage host (Node.holding id msgs).chat msg =
        .ok ⟨{ new id with currentBlock := msgs.flatMap frame ++ frame msg }, .ok (), none⟩ :=
      pushMessage_fits (by simpa only [Node.holding, packetLenWidth, Nat.add_assoc] using hfit)
    have hnext : Run (guarded ok (Step host)) (Node.init id) (msgs.map .push ++ [.push msg]) _ :=
      .next _ (ih (by omega)) ⟨hok _ _, .push hpush⟩
    rw [List.map_append, List.map_singleton]
    convert hnext using 1
    simp [Node.holding, Node.after, Node.entered, ownBallot, new, BlockStage.fresh]

/-- A message of the largest size. -/
def filler : Bytes := List.replicate maxMessageSize 0

/-- As many of them as a block holds. -/
def fillers : List Bytes := List.replicate 31 filler

def proposedChat (id : Identity) (own : Block) : Chat :=
  { new id with
    stage := .unfinalized (some own) (Vector.replicate replicationFactor Hash.zero)
    currentBlock := frame filler
    blockNumber := 1 }

lemma length_fillers : (fillers.flatMap frame).length = 31806 := by
  rw [List.length_flatMap, fillers, List.map_replicate, List.sum_replicate, length_frame, filler,
    List.length_replicate, smul_eq_mul, maxMessageSize]

lemma unpackMessages_fillers : unpackMessages (fillers.flatMap frame) = fillers := by
  rw [unpackMessages_flatMap_frame, fillers, List.reverse_replicate]
  intro m hm
  rw [List.eq_of_mem_replicate hm, filler, List.length_replicate]
  decide

lemma blake3_demoHost (checks : Bool) {m : Bytes} (h : m.length ≠ 1) :
    (demoHost checks).blake3 m = filled 7 := by
  have hne : m ≠ [1] := by
    rintro rfl
    exact h rfl
  simp [demoHost, hne]

lemma leafHashes_fillers (checks : Bool) :
    leafHashes (demoHost checks) (fillers.flatMap frame) = List.replicate 31 (filled 7) := by
  have hleaf : (demoHost checks).blake3 filler = filled 7 :=
    blake3_demoHost checks (by rw [filler, List.length_replicate]; decide)
  have hperm := leafHashes_perm (demoHost checks) (fillers.flatMap frame)
  rw [unpackMessages_fillers, fillers, List.map_replicate, hleaf] at hperm
  exact List.perm_replicate.mp hperm

lemma hashBlock_fillers (checks : Bool) :
    hashBlock (demoHost checks) (fillers.flatMap frame) =
      .ok (filled 7, filled 7 :: List.replicate 30 (filled 7)) := by
  have hcombine (l : Hash) : combine (demoHost checks) (filled 7) l = filled 7 :=
    blake3_demoHost checks (by rw [List.length_append, l.size, (filled 7).size]; decide)
  have hleaves := leafHashes_fillers checks
  rw [List.replicate_succ] at hleaves
  rw [hashBlock_of_leaves hleaves, List.foldl_fixed' hcombine]

lemma push_fillers (checks : Bool) (id : Identity) :
    pushMessage (demoHost checks) (Node.holding id fillers).chat filler =
      .ok ⟨proposedChat id ⟨filled 7, fillers.flatMap frame⟩, .error (some (filled 7)), none⟩ := by
  have hfiller : filler.length = 1024 := List.length_replicate
  refine pushMessage_proposes ?_ ?_ rfl
    (hashBlock_fillers checks) (by decide)
  · change blockSize < (fillers.flatMap frame).length + _ + _
    rw [length_fillers, hfiller]
    decide
  · rw [hfiller]
    decide

/-- A filled block is proposed when the next message does not fit. -/
lemma run_proposed (ok : Node → Event → Prop) (hok : ∀ node msg, ok node (.push msg))
    (checks : Bool) (id : Identity) :
    Run (guarded ok (Step (demoHost checks))) (Node.init id) ((fillers ++ [filler]).map .push)
      ⟨proposedChat id ⟨filled 7, fillers.flatMap frame⟩, [], [], [(none, 0, filled 7)]⟩ := by
  rw [List.map_append, List.map_singleton]
  exact .next _ (run_holding ok hok id fillers (by rw [length_fillers]; decide))
    ⟨hok _ _, .push (push_fillers checks id)⟩

/-- A filled block that two other replicators vote for is finalized, and a
block sent for its number afterwards is refused. -/
theorem finalized_once_per_number_votes : ∃ node,
    Run (OnceStep (demoHost true)) (Node.init Hash.zero)
      ((fillers ++ [filler]).map .push ++
        [.propose 0 0 (filled 7), .propose 1 0 (filled 7)]) node ∧
    node.pushed = [(0, filled 7)] ∧ Refused (demoHost true) node.chat 2 0 (frame [1]) := by
  obtain ⟨node, hrun, hpushed, hstage⟩ : ∃ node, Run (OnceStep (demoHost true))
      (Node.init Hash.zero) ((fillers ++ [filler]).map .push ++
        [.propose 0 0 (filled 7), .propose 1 0 (filled 7)]) node ∧
      node.pushed = [(0, filled 7)] ∧ node.chat.stage = .fresh := by
    have hfill := run_proposed (fun node e => FinalizesOnce (demoHost true) node.chat e)
      (fun _ _ => trivial) true Hash.zero
    generalize fillers.flatMap frame = own at hfill
    exact ⟨_, hfill.append (.next _ (.next _ .start ⟨trivial, .propose rfl⟩)
      ⟨trivial, .propose rfl⟩), rfl, rfl⟩
  refine ⟨node, hrun, hpushed, ?_⟩
  refine ((finalized_once_per_number _ _ _ _ hrun).2.2 2 0 _ (by rw [hpushed]; decide)).mp ?_
  intro finalHash w hrec
  rw [hstage] at hrec
  cases hrec

/-- The own block of a node is outvoted, and two replicators answer with the
block of the majority: the node finalizes number 0 twice and is still
recovering. -/
theorem finalized_twice_in_recovery : ∃ node,
    Run (Step (demoHost true)) (Node.init Hash.zero)
      ((fillers ++ [filler]).map .push ++
        [.propose 0 0 (filled 1), .propose 1 0 (filled 1), .propose 2 0 (filled 1),
          .send 0 0 (frame [1]), .send 1 0 (frame [1])]) node ∧
    node.pushed = [(0, filled 1), (0, filled 1)] ∧
    node.chat.finalized.length = 2 ∧ ¬ InUnfinalized node.chat := by
  have hfill := (run_proposed (fun _ _ => True) (fun _ _ => trivial) true Hash.zero).unguard
  generalize fillers.flatMap frame = own at hfill
  have hsend : hashBlock (demoHost true) (frame [1]) = .ok (filled 1, [filled 1]) :=
    hashBlock_singleton rfl (by decide)
  refine ⟨_, hfill.append (.next _ (.next _ (.next _ (.next _ (.next _ .start (.propose rfl))
    (.propose rfl)) (.propose rfl)) (.send (sendBlock_recovered rfl rfl hsend)))
    (.send (sendBlock_recovered rfl rfl hsend))), rfl, rfl, ?_⟩
  rintro ⟨proposed, others, hstage⟩
  cases hstage

end OrionNetwork.ChatReplica
