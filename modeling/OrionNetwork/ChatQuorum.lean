import OrionNetwork.ChatNumbering

/-!
# Quorums behind finalized blocks

A node finalizes a hash, or starts recovering it, when enough vote slots hold
it. That means a quorum of voters as long as every slot that holds the hash was
written by a vote for that hash and for the number being decided. The invariant
says so slot by slot. It is lost in four places: an unused slot holds the zero
hash, votes for the next number go into the same slots, a foreign block needs
only half of the replicators, and a node that recovers before its own block is
full attributes the block to the number before.
-/
namespace OrionNetwork.ChatReplica
open Codec MessageBlock BlockHash Runs

variable {host : Host} {chat : Chat}

/-- More than half of all replicators, the node included, voted for the hash at
that number. -/
def Quorum (ballots : List Ballot) (number : ℕ) (hash : Hash) : Prop :=
  ∃ voters : Finset (Option Slot), replicationFactor / 2 + 1 ≤ voters.card ∧
    ∀ v ∈ voters, (v, number, hash) ∈ ballots

/-- Everything finalized and everything recovered has a quorum. -/
def QuorumSafe (node : Node) : Prop :=
  ∀ p ∈ node.pushed ++ node.recovered, Quorum node.ballots p.1 p.2

lemma Quorum.mono {ballots ballots' : List Ballot} {number : ℕ} {hash : Hash}
    (h : Quorum ballots number hash) (hsub : ballots ⊆ ballots') :
    Quorum ballots' number hash := by
  obtain ⟨voters, hcard, hall⟩ := h
  exact ⟨voters, hcard, fun v hv => hsub (hall v hv)⟩

/-- The slots that hold a hash. -/
def slotsOf (others : Vector Hash replicationFactor) (hash : Hash) : Finset Slot :=
  Finset.univ.filter fun i => others.get i = hash

lemma votes_eq_card (others : Vector Hash replicationFactor) (hash : Hash) :
    votes others hash = (slotsOf others hash).card := by
  have hlist : others.toList = (List.finRange replicationFactor).map others.get := by
    refine List.ext_getElem (by simp) fun i h₁ h₂ => ?_
    rw [List.getElem_map, List.getElem_finRange]
    rfl
  have hcount : votes others hash = others.toList.countP fun x => decide (x = hash) :=
    List.countP_eq_length_filter.symm
  rw [hcount, hlist, List.countP_map, List.countP_eq_length_filter, slotsOf, Fin.univ_def]
  simp [Finset.card, Finset.filter, Function.comp_def]

/-- Each used slot stands for a vote at the given number. -/
def SlotsBacked (ballots : List Ballot) (number : ℕ) (others : Vector Hash replicationFactor) :
    Prop :=
  ∀ i : Slot, others.get i = Hash.zero ∨ (some i, number, others.get i) ∈ ballots

namespace SlotsBacked

variable {ballots ballots' : List Ballot} {number : ℕ} {hash : Hash}
  {others : Vector Hash replicationFactor}

lemma fresh (ballots : List Ballot) (number : ℕ) :
    SlotsBacked ballots number (Vector.replicate replicationFactor Hash.zero) := by
  intro i
  left
  change (Vector.replicate replicationFactor Hash.zero)[i] = Hash.zero
  simp

lemma mono (h : SlotsBacked ballots number others) (hsub : ballots ⊆ ballots') :
    SlotsBacked ballots' number others :=
  fun i => (h i).imp_right fun hi => hsub hi

/-- Writing a slot is backed by the vote that writes it. -/
lemma set (h : SlotsBacked ballots number others) (hsub : ballots ⊆ ballots') {index : Slot}
    (hvote : (some index, number, hash) ∈ ballots') :
    SlotsBacked ballots' number (others.set index hash index.isLt) := by
  intro i
  by_cases hi : i = index
  · subst hi
    have hget : (others.set i hash i.isLt).get i = hash := by
      change (others.set i hash i.isLt)[i] = hash
      simp
    rw [hget]
    exact .inr hvote
  · have hne : index.val ≠ i.val := fun he => hi (Fin.ext he.symm)
    have hget : (others.set index hash index.isLt).get i = others.get i := by
      change (others.set index hash index.isLt)[i] = others[i]
      simp [hne]
    rw [hget]
    exact h.mono hsub i

/-- A slot that holds a hash other than the zero hash was written by its vote. -/
lemma voted (h : SlotsBacked ballots number others) (hne : hash ≠ Hash.zero) {v : Option Slot}
    (hv : v ∈ (slotsOf others hash).map Function.Embedding.some) : (v, number, hash) ∈ ballots := by
  obtain ⟨i, hi, rfl⟩ := Finset.mem_map.mp hv
  have hhash : others.get i = hash := (Finset.mem_filter.mp hi).2
  have hback := h i
  rw [hhash] at hback
  exact hback.resolve_left hne

/-- Voters of a hash other than the zero hash are distinct and real. -/
lemma quorum (h : SlotsBacked ballots number others) (hne : hash ≠ Hash.zero)
    (hvotes : replicationFactor / 2 < votes others hash) : Quorum ballots number hash := by
  refine ⟨(slotsOf others hash).map Function.Embedding.some, ?_, fun v hv => ?_⟩
  · rw [Finset.card_map, ← votes_eq_card]
    exact hvotes
  · exact h.voted hne hv

/-- With the node's own vote one slot less is enough. -/
lemma quorum_own (h : SlotsBacked ballots number others) (hne : hash ≠ Hash.zero)
    (hown : (none, number, hash) ∈ ballots) (hvotes : replicationFactor / 2 ≤ votes others hash) :
    Quorum ballots number hash := by
  refine ⟨insert none ((slotsOf others hash).map Function.Embedding.some), ?_, fun v hv => ?_⟩
  · rw [Finset.card_insert_of_notMem (by simp), Finset.card_map, ← votes_eq_card]
    exact Nat.succ_le_succ hvotes
  · obtain rfl | hv := Finset.mem_insert.mp hv
    · exact hown
    · exact h.voted hne hv

end SlotsBacked

/-- Steps that decide on a quorum only. A push does not finalize the zero hash
over unused slots and does not drop an own block during recovery. A vote is not
for the next number, and the zero hash does not win with it. A foreign block
that wins does not hash to zero and has, with the own block or without it, more
than half of the replicators behind it, and none is accepted in a recovery that
began before the own block was full. -/
def KeepsQuorum (host : Host) (chat : Chat) : Event → Prop
  | .push msg => blockSize < chat.currentBlock.length + msg.length + packetLenWidth →
      ∀ hash leaves, hashBlock host chat.currentBlock = .ok (hash, leaves) →
        (∀ others, chat.stage = .unfinalized none others →
          replicationFactor / 2 ≤ votes others hash → hash ≠ Hash.zero) ∧
        ∀ finalHash, chat.stage = .recovering finalHash false → hash = finalHash
  | .propose index number hash => ∀ proposed others k,
      chat.stage = .unfinalized proposed others → chat.lastFinalizedBlock host = .ok k →
        number ≠ k + 1 ∧
        (hash = Hash.zero → votes (others.set index hash index.isLt) hash ≤
          replicationFactor / 2 - (if proposed.map Block.hash = some hash then 1 else 0))
  | .send index number block => chat.lastFinalizedBlock host = .ok number →
      ∀ hash leaves, hashBlock host block = .ok (hash, leaves) →
        (∀ own others, chat.stage = .unfinalized (some own) others →
          replicationFactor / 2 ≤ votes (others.set index hash index.isLt) hash →
          hash ≠ Hash.zero ∧
            (own.hash = hash ∨
              replicationFactor / 2 < votes (others.set index hash index.isLt) hash)) ∧
        ∀ finalHash, chat.stage = .recovering finalHash false → hash ≠ finalHash

/-- What the ballots say about the stage. -/
def Backed (host : Host) (chat : Chat) (ballots : List Ballot) : Prop :=
  match chat.stage with
  | .unfinalized proposed others => ∃ k, chat.lastFinalizedBlock host = .ok k ∧
      SlotsBacked ballots k others ∧ ∀ own, proposed = some own → (none, k, own.hash) ∈ ballots
  | .recovering hash true => ∃ k, chat.lastFinalizedBlock host = .ok k ∧ Quorum ballots k hash
  | .recovering hash false => Quorum ballots chat.blockNumber hash

namespace Backed

variable {ballots ballots' : List Ballot}

lemma unfinalized {proposed : Option Block} {others : Vector Hash replicationFactor} {k : ℕ}
    (h : Backed host chat ballots) (hstage : chat.stage = .unfinalized proposed others)
    (hlast : chat.lastFinalizedBlock host = .ok k) :
    SlotsBacked ballots k others ∧ ∀ own, proposed = some own → (none, k, own.hash) ∈ ballots := by
  simp only [Backed, hstage, hlast, Except.ok.injEq, exists_eq_left'] at h
  exact h

lemma recovering {hash : Hash} {k : ℕ} (h : Backed host chat ballots)
    (hstage : chat.stage = .recovering hash true)
    (hlast : chat.lastFinalizedBlock host = .ok k) : Quorum ballots k hash := by
  simp only [Backed, hstage, hlast, Except.ok.injEq, exists_eq_left'] at h
  exact h

lemma early {hash : Hash} (h : Backed host chat ballots)
    (hstage : chat.stage = .recovering hash false) : Quorum ballots chat.blockNumber hash := by
  simpa only [Backed, hstage] using h

lemma mono (h : Backed host chat ballots) (hsub : ballots ⊆ ballots') :
    Backed host chat ballots' := by
  unfold Backed at h ⊢
  split at h
  · obtain ⟨k, hlast, hslots, hown⟩ := h
    exact ⟨k, hlast, hslots.mono hsub, fun own ho => hsub (hown own ho)⟩
  · obtain ⟨k, hlast, hq⟩ := h
    exact ⟨k, hlast, hq.mono hsub⟩
  · exact h.mono hsub

lemma of_fresh (hstage : chat.stage = .fresh) (ballots : List Ballot) :
    Backed host chat ballots := by
  have hopen : chat.stage = .unfinalized none (Vector.replicate replicationFactor Hash.zero) :=
    hstage
  unfold Backed
  rw [hopen]
  exact ⟨_, lastFinalizedBlock_open hopen, .fresh _ _, by simp⟩

lemma of_recovering {hash : Hash} {k : ℕ} (hstage : chat.stage = .recovering hash true)
    (hlast : chat.lastFinalizedBlock host = .ok k) (hq : Quorum ballots k hash) :
    Backed host chat ballots := by
  unfold Backed
  rw [hstage]
  exact ⟨k, hlast, hq⟩

end Backed

/-- A push keeps the backing, and what it finalizes has a quorum. -/
lemma quorum_push {msg : Bytes} {out : Outcome (Except (Option Hash) Unit)}
    {ballots : List Ballot} (hb : Backed host chat ballots)
    (hs : PushShape host chat msg out) (hok : KeepsQuorum host chat (.push msg)) :
    Backed host out.chat (ownBallot chat out.reply ++ ballots) ∧
      ∀ p ∈ out.pushed.toList, Quorum (ownBallot chat out.reply ++ ballots) p.1 p.2 := by
  cases hs with
  | stored => exact ⟨hb, by simp⟩
  | blocked => exact ⟨hb, by simp⟩
  | finalized hfull hroom hhash hstage =>
    rename_i hash leaves
    refine ⟨.of_fresh rfl _, fun p hp => ?_⟩
    rw [Option.toList_some, List.mem_singleton] at hp
    subst hp
    obtain ⟨others, hopen, hvotes⟩ | hrec := hstage
    · have hne := (hok hfull hash leaves hhash).1 others hopen hvotes
      obtain ⟨hslots, -⟩ := hb.unfinalized hopen (lastFinalizedBlock_open hopen)
      exact (hslots.mono (List.subset_append_right _ _)).quorum_own hne (by simp [ownBallot]) hvotes
    · exact (hb.early hrec).mono (List.subset_append_right _ _)
  | proposed hfull hroom hhash hstage hfew =>
    rename_i hash leaves others
    obtain ⟨hslots, -⟩ := hb.unfinalized hstage (lastFinalizedBlock_open hstage)
    refine ⟨⟨chat.blockNumber, ?_, hslots.mono (List.subset_append_right _ _), ?_⟩, by simp⟩
    · exact lastFinalizedBlock_proposed rfl (Nat.le_add_left _ _)
    · intro own hown
      cases hown
      simp [ownBallot]
  | discarded hfull hroom hhash hstage hne =>
    exact absurd ((hok hfull _ _ hhash).2 _ hstage) hne

lemma quorum_propose {index : Slot} {number : ℕ} {hash : Hash} {after : Chat}
    {pushed : Option (ℕ × Hash)} {ballots : List Ballot} (hb : Backed host chat ballots)
    (hs : ProposeShape host chat index number hash after pushed)
    (hok : KeepsQuorum host chat (.propose index number hash)) :
    Backed host after ((some index, number, hash) :: ballots) ∧
      ∀ p ∈ pushed.toList ++ Node.entered host chat after,
        Quorum ((some index, number, hash) :: ballots) p.1 p.2 := by
  have hsub : ballots ⊆ (some index, number, hash) :: ballots := List.subset_cons_self _ _
  have hvote : (some index, number, hash) ∈ (some index, number, hash) :: ballots :=
    List.mem_cons_self
  cases hs with
  | ignored =>
    refine ⟨hb.mono hsub, ?_⟩
    simp only [Option.toList_none, List.nil_append, Node.entered]
    cases hstage : chat.stage <;> simp
  | recorded hlast hnumber hstage =>
    rename_i k proposed others
    obtain rfl : number = k := hnumber.resolve_right (hok _ _ _ hstage hlast).1
    obtain ⟨hslots, hown⟩ := hb.unfinalized hstage hlast
    refine ⟨⟨number, ?_, hslots.set hsub hvote, fun own ho => hsub (hown own ho)⟩, ?_⟩
    · rw [← hlast]
      refine lastFinalizedBlock_congr ?_ rfl
      rw [hstage]
      cases proposed <;> rfl
    · simp [Node.entered, hstage]
  | finalized hlast hnumber hstage hown hvotes =>
    rename_i k own others
    obtain ⟨hnext, hzero⟩ := hok _ _ _ hstage hlast
    obtain rfl : number = k := hnumber.resolve_right hnext
    obtain ⟨hslots, hvoted⟩ := hb.unfinalized hstage hlast
    refine ⟨.of_fresh rfl _, fun p hp => ?_⟩
    have hp : p = (number, hash) := by
      simpa [Node.entered, hstage, BlockStage.fresh] using hp
    subst hp
    have hne : hash ≠ Hash.zero := by
      intro hz
      have hfew := hzero hz
      rw [Option.map_some, hown, if_pos rfl] at hfew
      change votes _ _ ≤ 1 at hfew
      change 2 ≤ votes _ _ at hvotes
      omega
    exact (hslots.set hsub hvote).quorum_own hne (hsub (hown ▸ hvoted own rfl)) hvotes
  | outvoted hlast hnumber hstage hown hvotes =>
    rename_i k own others
    obtain ⟨hnext, hzero⟩ := hok _ _ _ hstage hlast
    obtain rfl : number = k := hnumber.resolve_right hnext
    obtain ⟨hslots, -⟩ := hb.unfinalized hstage hlast
    have hne : hash ≠ Hash.zero := by
      intro hz
      have hfew := hzero hz
      rw [Option.map_some, if_neg (by simpa using hown)] at hfew
      omega
    have hq := (hslots.set hsub hvote).quorum hne hvotes
    refine ⟨⟨number, ?_, hq⟩, fun p hp => ?_⟩
    · rw [← hlast]
      refine lastFinalizedBlock_congr ?_ rfl
      rw [hstage]
      rfl
    · have hp : p = (number, hash) := by
        simpa [Node.entered, hstage, hlast] using hp
      subst hp
      exact hq
  | overtaken hlast hnumber hstage hvotes =>
    rename_i k others
    obtain ⟨hnext, hzero⟩ := hok _ _ _ hstage hlast
    obtain rfl : number = k := hnumber.resolve_right hnext
    obtain ⟨hslots, -⟩ := hb.unfinalized hstage hlast
    have hne : hash ≠ Hash.zero := by
      intro hz
      have hfew := hzero hz
      rw [Option.map_none, if_neg (by simp)] at hfew
      omega
    have hq := (hslots.set hsub hvote).quorum hne hvotes
    have hnumber : chat.blockNumber = number := by
      rw [lastFinalizedBlock_open hstage, Except.ok.injEq] at hlast
      exact hlast
    refine ⟨hnumber ▸ hq, fun p hp => ?_⟩
    have hp : p = (number, hash) := by
      simpa [Node.entered, hstage, hlast] using hp
    subst hp
    exact hq

lemma quorum_send {index : Slot} {number : ℕ} {block : Bytes}
    {out : Outcome (Except SendBlockError Unit)} {ballots : List Ballot}
    (hb : Backed host chat ballots) (hs : SendShape host chat index number block out)
    (hok : KeepsQuorum host chat (.send index number block)) :
    Backed host out.chat (blockBallot host index number block ++ ballots) ∧
      ∀ p ∈ out.pushed.toList ++ Node.entered host chat out.chat,
        Quorum (blockBallot host index number block ++ ballots) p.1 p.2 := by
  have hsub : ballots ⊆ blockBallot host index number block ++ ballots :=
    List.subset_append_right _ _
  cases hs with
  | rejected reason =>
    refine ⟨hb.mono hsub, ?_⟩
    simp only [Option.toList_none, List.nil_append, Node.entered]
    cases hstage : chat.stage <;> simp
  | recorded hlast hstage hhash hfew =>
    rename_i own others hash leaves
    obtain ⟨hslots, hown⟩ := hb.unfinalized hstage hlast
    have hvote : (some index, number, hash) ∈ blockBallot host index number block ++ ballots := by
      simp [blockBallot, hhash]
    refine ⟨⟨number, ?_, hslots.set hsub hvote, fun own ho => hsub (hown own ho)⟩, ?_⟩
    · rw [← hlast]
      refine lastFinalizedBlock_congr ?_ rfl
      rw [hstage]
      rfl
    · simp [Node.entered, hstage]
  | replaced hlast hstage hhash hvotes =>
    rename_i own others hash leaves
    obtain ⟨hne, hmany⟩ := (hok hlast _ _ hhash).1 own others hstage hvotes
    obtain ⟨hslots, hown⟩ := hb.unfinalized hstage hlast
    have hvote : (some index, number, hash) ∈ blockBallot host index number block ++ ballots := by
      simp [blockBallot, hhash]
    refine ⟨.of_fresh rfl _, fun p hp => ?_⟩
    have hp : p = (number, hash) := by
      simpa [Node.entered, hstage, BlockStage.fresh] using hp
    subst hp
    obtain hsame | hmore := hmany
    · exact (hslots.set hsub hvote).quorum_own hne (hsub (hsame ▸ hown own rfl)) hvotes
    · exact (hslots.set hsub hvote).quorum hne hmore
  | recovered hlast hstage hhash =>
    rename_i finalHash w leaves
    cases w with
    | false => exact absurd rfl ((hok hlast _ _ hhash).2 finalHash hstage)
    | true =>
      have hq := (hb.recovering hstage hlast).mono hsub
      refine ⟨?_, fun p hp => ?_⟩
      · exact .of_recovering hstage ((lastFinalizedBlock_congr rfl rfl).trans hlast) hq
      · have hp : p = (number, finalHash) := by
          simpa [Node.entered, hstage] using hp
        subst hp
        exact hq

/-- A push never starts a recovery. -/
lemma entered_push {msg : Bytes} {out : Outcome (Except (Option Hash) Unit)}
    (hs : PushShape host chat msg out) : Node.entered host chat out.chat = [] := by
  unfold Node.entered
  cases hs with
  | stored | blocked => cases hstage : chat.stage <;> simp
  | finalized => cases chat.stage <;> rfl
  | proposed => cases chat.stage <;> rfl
  | discarded hfull hroom hhash hstage hne => simp [hstage]

/-- The two halves of the invariant. -/
def QuorumInvariant (host : Host) (node : Node) : Prop :=
  Backed host node.chat node.ballots ∧ QuorumSafe node

lemma quorumSafe_after {ρ : Type} {node : Node} {out : Outcome ρ} {ballots : List Ballot}
    (hsafe : QuorumSafe node)
    (hnew : ∀ p ∈ out.pushed.toList ++ Node.entered host node.chat out.chat,
      Quorum (ballots ++ node.ballots) p.1 p.2) :
    QuorumSafe (node.after host out ballots) := by
  intro p hp
  simp only [Node.after, List.mem_append] at hp hnew
  obtain (hp | hp) | (hp | hp) := hp
  · exact hnew p (.inl hp)
  · exact (hsafe p (List.mem_append_left _ hp)).mono (List.subset_append_right _ _)
  · exact hnew p (.inr hp)
  · exact (hsafe p (List.mem_append_right _ hp)).mono (List.subset_append_right _ _)

theorem quorum_step {node next : Node} {e : Event} (hinv : QuorumInvariant host node)
    (hok : KeepsQuorum host node.chat e) (hstep : Step host node e next) :
    QuorumInvariant host next := by
  obtain ⟨hb, hsafe⟩ := hinv
  cases hstep with
  | push h =>
    obtain ⟨hbacked, hnew⟩ := quorum_push hb (pushMessage_shape h) hok
    refine ⟨hbacked, quorumSafe_after hsafe ?_⟩
    rwa [entered_push (pushMessage_shape h), List.append_nil]
  | propose h =>
    obtain ⟨hbacked, hnew⟩ := quorum_propose hb (proposeMsgBlock_shape h) hok
    exact ⟨hbacked, quorumSafe_after hsafe hnew⟩
  | send h =>
    obtain ⟨hbacked, hnew⟩ := quorum_send hb (sendBlock_shape h) hok
    exact ⟨hbacked, quorumSafe_after hsafe hnew⟩

/-- In every run whose steps decide on a quorum only, every block ever
finalized, and every hash ever recovered, had more than half of the replicators
vote for it at its number. -/
theorem quorum_of_finalized (host : Host) (id : Identity) (es : List Event) (node : Node)
    (h : Run (guarded (fun node e => KeepsQuorum host node.chat e) (Step host))
      (Node.init id) es node) : QuorumSafe node := by
  have hinv : QuorumInvariant host node := by
    refine h.stateInvariant (P := QuorumInvariant host) ⟨.of_fresh rfl _, ?_⟩
      (fun _ _ _ hi he => quorum_step hi he.1 he.2)
    intro p hp
    contradiction
  exact hinv.2

/-- Three replicators vote for the same hash at number 0. -/
theorem quorum_of_finalized_votes : ∃ node,
    Run (guarded (fun node e => KeepsQuorum (demoHost true) node.chat e) (Step (demoHost true)))
      (Node.init Hash.zero)
      [.propose 0 0 (filled 1), .propose 1 0 (filled 1), .propose 2 0 (filled 1)] node ∧
    node.recovered = [(0, filled 1)] ∧ QuorumSafe node := by
  have hguard (chat : Chat) (index : Slot) (hstage : ∃ others,
      chat.stage = .unfinalized none others) (hnumber : chat.blockNumber = 0) :
      KeepsQuorum (demoHost true) chat (.propose index 0 (filled 1)) := by
    intro proposed others k hs hlast
    obtain ⟨others', hopen⟩ := hstage
    rw [lastFinalizedBlock_open hopen, hnumber, Except.ok.injEq] at hlast
    exact ⟨by omega, fun hz => absurd hz (by decide)⟩
  obtain ⟨node, hrun, hrec⟩ : ∃ node,
      Run (guarded (fun node e => KeepsQuorum (demoHost true) node.chat e) (Step (demoHost true)))
        (Node.init Hash.zero)
        [.propose 0 0 (filled 1), .propose 1 0 (filled 1), .propose 2 0 (filled 1)] node ∧
      node.recovered = [(0, filled 1)] :=
    ⟨_, .next _ (.next _ (.next _ .start ⟨hguard _ _ ⟨_, rfl⟩ rfl, .propose rfl⟩)
      ⟨hguard _ _ ⟨_, rfl⟩ rfl, .propose rfl⟩) ⟨hguard _ _ ⟨_, rfl⟩ rfl, .propose rfl⟩, rfl⟩
  exact ⟨node, hrun, hrec, quorum_of_finalized _ _ _ _ hrun⟩

/-- One vote for the zero hash meets three unused slots, and the node recovers
a hash that one replicator voted for. -/
theorem recovers_zero_hash_of_one_vote : ∃ node,
    Run (Step (demoHost true)) (Node.init Hash.zero) [.propose 0 0 Hash.zero] node ∧
    node.chat.stage = .recovering Hash.zero false ∧ node.recovered = [(0, Hash.zero)] ∧
    ¬ Quorum node.ballots 0 Hash.zero := by
  refine ⟨_, .single (.propose rfl), rfl, rfl, ?_⟩
  rintro ⟨voters, hcard, hall⟩
  have hsub : voters ⊆ {some 0} := by
    intro v hv
    have hmem := hall v hv
    simp only [Node.after, Node.init, List.append_nil, List.mem_singleton, Prod.mk.injEq] at hmem
    exact Finset.mem_singleton.mpr hmem.1
  have hle := Finset.card_le_card hsub
  rw [Finset.card_singleton] at hle
  change 3 ≤ voters.card at hcard
  omega

end OrionNetwork.ChatReplica
