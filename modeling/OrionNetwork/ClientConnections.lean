import OrionNetwork.ClientIsolation
import OrionNetwork.ReplicaSets
import OrionNetwork.Replicated
import Mathlib.Data.Multiset.Basic

/-!
# Streams that a client opens

A client that starts has one stream, to a replicator of its profile. For the chats of its vault it
opens streams to other replicators: the peers are taken by the number of chats that they replicate,
and each gets the chats that no peer before has got. Hash maps and sets give what they hold in any
order.
-/
namespace OrionNetwork.ClientConnections
open ClientNode Codec Collections Replicated Runs
open ChatReplica (Identity)

variable {Peer C : Type} [DecidableEq Peer] [DecidableEq C]

section Planning

/-- A chat goes into the set of a peer that replicates it, or to the stream that is open. -/
def place (profilePeer : Peer) (s : LinearMap Peer (List C) × List C) (offer : Peer × C) :
    LinearMap Peer (List C) × List C :=
  let (topology, topics) := s
  let (peer, chat) := offer
  if peer = profilePeer then (topology, topics ++ [chat])
  else
    let chats := (topology.get peer).getD []
    (topology.insert peer (if chat ∈ chats then chats else chats ++ [chat]), topics)

def offers (replicators : C → List Peer) (chats : List C) : List (Peer × C) :=
  chats.flatMap fun chat => (replicators chat).map fun peer => (peer, chat)

/-- The chats of each other peer, and those of the stream that is open. -/
def topologyOf (replicators : C → List Peer) (profilePeer : Peer) (chats : List C) :
    LinearMap Peer (List C) × List C :=
  (offers replicators chats).foldl (place profilePeer) ([], [])

/-- The loop that goes on while chats are missing. Without a peer to pop it panics. -/
def connect (count : ℕ) : List (Peer × List C) → List C → Option (List (Peer × List C))
  | [], seen => if seen.length < count then none else some []
  | (peer, chats) :: topology, seen =>
    if seen.length < count then
      let chats := chats.filter (· ∉ seen)
      let later := connect count topology (seen ++ chats)
      if chats.isEmpty then later else later.map ((peer, chats) :: ·)
    else some []

/-- The peers are sorted by their chats and popped from the back. -/
def toConnect (count : ℕ) (topology : List (Peer × List C)) : Option (List (Peer × List C)) :=
  connect count (topology.mergeSort fun a b => a.2.length ≤ b.2.length).reverse []

/-- The same pairs in another order, with their sets in another order. -/
def Shuffled (topology topology' : List (Peer × List C)) : Prop :=
  (topology.map fun e => (e.1, (e.2 : Multiset C))).Perm
    (topology'.map fun e => (e.1, (e.2 : Multiset C)))

/-- The sets hold what is offered. -/
structure Topology (offered : Peer → C → Prop) (topology : List (Peer × List C)) : Prop where
  peers : (topology.map Prod.fst).Nodup
  sets : ∀ e ∈ topology, e.2.Nodup
  listed : ∀ peer chat, (∃ chats, (peer, chats) ∈ topology ∧ chat ∈ chats) ↔ offered peer chat

variable {profilePeer : Peer} {offered : Peer → C → Prop} {topology topology' : List (Peer × List C)}
  {chats : List C} {replicators : C → List Peer}

omit [DecidableEq Peer] [DecidableEq C] in
theorem Shuffled.exists_set (h : Shuffled topology topology') {peer : Peer} {set : List C}
    (hset : (peer, set) ∈ topology) : ∃ set', (peer, set') ∈ topology' ∧ set.Perm set' := by
  have hmem : (peer, (set : Multiset C)) ∈ topology'.map fun e => (e.1, (e.2 : Multiset C)) :=
    h.mem_iff.mp (List.mem_map.mpr ⟨_, hset, rfl⟩)
  obtain ⟨e, he, hpair⟩ := List.mem_map.mp hmem
  obtain ⟨hpeer, hsame⟩ := Prod.mk.inj hpair
  refine ⟨e.2, ?_, (Multiset.coe_eq_coe.mp hsame).symm⟩
  rw [← hpeer]
  exact he

omit [DecidableEq Peer] [DecidableEq C] in
theorem Topology.shuffle (h : Topology offered topology) (hshuffled : Shuffled topology topology') :
    Topology offered topology' := by
  have hback : Shuffled topology' topology := List.Perm.symm hshuffled
  refine ⟨?_, fun e he => ?_, fun peer chat => ?_⟩
  · have hpeers := hshuffled.map Prod.fst
    rw [List.map_map, List.map_map] at hpeers
    exact hpeers.nodup_iff.mp h.peers
  · obtain ⟨set, hset, hperm⟩ := hback.exists_set he
    exact hperm.nodup_iff.mpr (h.sets _ hset)
  · rw [← h.listed]
    constructor
    · rintro ⟨set', hset', hchat⟩
      obtain ⟨set, hset, hperm⟩ := hback.exists_set hset'
      exact ⟨set, hset, hperm.mem_iff.mp hchat⟩
    · rintro ⟨set, hset, hchat⟩
      obtain ⟨set', hset', hperm⟩ := hshuffled.exists_set hset
      exact ⟨set', hset', hperm.mem_iff.mp hchat⟩

omit [DecidableEq C] in
theorem mem_insert_iff {m : LinearMap Peer (List C)} (h : m.keys.Nodup) {key other : Peer}
    {value set : List C} : (other, set) ∈ m.insert key value ↔
      other = key ∧ set = value ∨ other ≠ key ∧ (other, set) ∈ m := by
  induction m with
  | nil => simp [LinearMap.insert]
  | cons e m ih =>
    obtain ⟨hout, hrest⟩ := List.nodup_cons.mp h
    unfold LinearMap.insert
    by_cases hkey : e.1 = key
    · rw [if_pos hkey, List.mem_cons, List.mem_cons]
      constructor
      · rintro (hpair | hmem)
        · exact .inl ⟨(Prod.mk.inj hpair).1.trans hkey, (Prod.mk.inj hpair).2⟩
        · refine .inr ⟨?_, .inr hmem⟩
          rintro rfl
          exact hout (hkey ▸ List.mem_map_of_mem hmem)
      · rintro (⟨rfl, rfl⟩ | ⟨hne, hpair | hmem⟩)
        · exact .inl (Prod.ext hkey.symm rfl)
        · exact absurd ((congrArg Prod.fst hpair).trans hkey) hne
        · exact .inr hmem
    · rw [if_neg hkey, List.mem_cons, List.mem_cons, ih hrest]
      constructor
      · rintro (hpair | hsame | ⟨hne, hmem⟩)
        · refine .inr ⟨?_, .inl hpair⟩
          rw [show other = e.1 from congrArg Prod.fst hpair]
          exact hkey
        · exact .inl hsame
        · exact .inr ⟨hne, .inr hmem⟩
      · rintro (hsame | ⟨hne, hpair | hmem⟩)
        · exact .inr (.inl hsame)
        · exact .inl hpair
        · exact .inr (.inr ⟨hne, hmem⟩)

/-- What `place` has done with the first offers. -/
structure Placed (profilePeer : Peer) (done : List (Peer × C))
    (s : LinearMap Peer (List C) × List C) : Prop where
  topology : Topology (fun peer chat => (peer, chat) ∈ done ∧ peer ≠ profilePeer) s.1
  topics : s.2 = (done.filter fun offer => offer.1 = profilePeer).map Prod.snd

theorem Placed.place {done : List (Peer × C)} {s : LinearMap Peer (List C) × List C}
    (h : Placed profilePeer done s) (offer : Peer × C) :
    Placed profilePeer (done ++ [offer]) (place profilePeer s offer) := by
  obtain ⟨topology, topics⟩ := s
  obtain ⟨peer, chat⟩ := offer
  obtain ⟨⟨hpeers, hsets, hlisted⟩, htopics⟩ := h
  dsimp only at hpeers hsets hlisted htopics
  unfold ClientConnections.place
  by_cases hpeer : peer = profilePeer
  · dsimp only
    rw [if_pos hpeer]
    refine ⟨⟨hpeers, hsets, fun other kept => ?_⟩, ?_⟩
    · rw [hlisted, List.mem_append, List.mem_singleton]
      constructor
      · rintro ⟨hdone, hother⟩
        exact ⟨.inl hdone, hother⟩
      · rintro ⟨hdone | hpair, hother⟩
        · exact ⟨hdone, hother⟩
        · exact absurd ((Prod.mk.inj hpair).1.trans hpeer) hother
    · rw [List.filter_append, List.map_append, ← htopics]
      simp [hpeer]
  · dsimp only
    rw [if_neg hpeer]
    obtain ⟨set, hset⟩ : ∃ set, set = (topology.get peer).getD [] := ⟨_, rfl⟩
    rw [← hset]
    have hkept : set.Nodup ∧ ∀ c, c ∈ set ↔ (peer, c) ∈ done := by
      rw [hset]
      cases hget : topology.get peer with
      | none =>
        refine ⟨List.nodup_nil, fun c => ⟨fun hc => absurd hc List.not_mem_nil, fun hc => ?_⟩⟩
        obtain ⟨chats, hchats, -⟩ := (hlisted peer c).mpr ⟨hc, hpeer⟩
        exact absurd (List.mem_map_of_mem hchats) (LinearMap.get_eq_none_iff.mp hget)
      | some chats =>
        have hchats := LinearMap.mem_of_get hget
        refine ⟨hsets _ hchats, fun c => ⟨fun hc => ((hlisted peer c).mp ⟨chats, hchats, hc⟩).1,
          fun hc => ?_⟩⟩
        obtain ⟨chats', hchats', hc⟩ := (hlisted peer c).mpr ⟨hc, hpeer⟩
        have hsame := (LinearMap.get_eq_some_iff hpeers).mpr hchats'
        rw [hget] at hsame
        cases hsame
        exact hc
    obtain ⟨new, hnew⟩ : ∃ new, new = if chat ∈ set then set else set ++ [chat] := ⟨_, rfl⟩
    have hadded : new.Nodup ∧ ∀ c, c ∈ new ↔ (peer, c) ∈ done ∨ c = chat := by
      rw [hnew]
      split_ifs with hchat
      · refine ⟨hkept.1, fun c => ⟨fun hc => .inl ((hkept.2 c).mp hc), ?_⟩⟩
        rintro (hc | rfl)
        · exact (hkept.2 c).mpr hc
        · exact hchat
      · refine ⟨List.nodup_append.mpr ⟨hkept.1, List.nodup_singleton chat, ?_⟩, fun c => ?_⟩
        · rintro c hc d hd rfl
          exact hchat (List.mem_singleton.mp hd ▸ hc)
        · rw [List.mem_append, List.mem_singleton, hkept.2]
    rw [← hnew]
    refine ⟨⟨LinearMap.nodup_keys_insert hpeers peer new, fun e he => ?_, fun other c => ?_⟩, ?_⟩
    · rcases LinearMap.mem_of_mem_insert he with rfl | he
      · exact hadded.1
      · exact hsets e he
    · rw [List.mem_append, List.mem_singleton]
      constructor
      · rintro ⟨chats, hchats, hc⟩
        rcases (mem_insert_iff hpeers).mp hchats with ⟨rfl, rfl⟩ | ⟨hne, hchats⟩
        · refine ⟨((hadded.2 c).mp hc).imp_right ?_, hpeer⟩
          rintro rfl
          rfl
        · obtain ⟨hdone, hother⟩ := (hlisted other c).mp ⟨chats, hchats, hc⟩
          exact ⟨.inl hdone, hother⟩
      · rintro ⟨hdone | hpair, hother⟩
        · by_cases hsame : other = peer
          · refine ⟨new, (mem_insert_iff hpeers).mpr (.inl ⟨hsame, rfl⟩), (hadded.2 c).mpr (.inl ?_)⟩
            rwa [← hsame]
          · obtain ⟨chats, hchats, hc⟩ := (hlisted other c).mpr ⟨hdone, hother⟩
            exact ⟨chats, (mem_insert_iff hpeers).mpr (.inr ⟨hsame, hchats⟩), hc⟩
        · cases hpair
          exact ⟨new, (mem_insert_iff hpeers).mpr (.inl ⟨rfl, rfl⟩), (hadded.2 _).mpr (.inr rfl)⟩
    · rw [List.filter_append, List.map_append, htopics]
      simp [hpeer]

theorem placed_topologyOf (replicators : C → List Peer) (profilePeer : Peer) (chats : List C) :
    Placed profilePeer (offers replicators chats) (topologyOf replicators profilePeer chats) := by
  have hplaced (done later : List (Peer × C)) (s : LinearMap Peer (List C) × List C)
      (h : Placed profilePeer done s) :
      Placed profilePeer (done ++ later) (later.foldl (place profilePeer) s) := by
    induction later generalizing done s with
    | nil =>
      rw [List.append_nil]
      exact h
    | cons offer later ih =>
      have hnext := ih _ _ (h.place offer)
      rwa [List.append_assoc] at hnext
  have hempty : Placed profilePeer ([] : List (Peer × C)) ([], []) := by
    refine ⟨⟨List.nodup_nil, fun e he => absurd he List.not_mem_nil, fun peer chat => ?_⟩, rfl⟩
    constructor
    · rintro ⟨chats, hchats, -⟩
      exact absurd hchats List.not_mem_nil
    · rintro ⟨hdone, -⟩
      exact absurd hdone List.not_mem_nil
  exact hplaced [] _ _ hempty

/-- All chats of the sets. -/
def listed (topology : List (Peer × List C)) : List C := topology.flatMap Prod.snd

/-- The peers of `connected` are some of the topology, in its order, each with some of its chats and
at least one. No chat is seen twice, and enough are seen. -/
structure Connects (count : ℕ) (topology : List (Peer × List C)) (seen : List C)
    (connected : List (Peer × List C)) : Prop where
  peers : (connected.map Prod.fst).Sublist (topology.map Prod.fst)
  some : ∀ e ∈ connected, e.2 ≠ [] ∧ ∃ chats, (e.1, chats) ∈ topology ∧ e.2 ⊆ chats
  once : (seen ++ listed connected).Nodup
  enough : count ≤ (seen ++ listed connected).length

omit [DecidableEq Peer] in
/-- The loop ends unless the topology has too few chats. -/
theorem connect_spec {count : ℕ} {seen : List C} (hsets : ∀ e ∈ topology, e.2.Nodup)
    (hseen : seen.Nodup) :
    (∃ connected, connect count topology seen = some connected ∧
      Connects count topology seen connected) ∨
    connect count topology seen = none ∧ (seen ++ listed topology).toFinset.card < count := by
  induction topology generalizing seen with
  | nil =>
    unfold connect
    have hcard : (seen ++ listed ([] : List (Peer × List C))).toFinset.card = seen.length := by
      unfold listed
      rw [List.flatMap_nil, List.append_nil, List.toFinset_card_of_nodup hseen]
    rw [hcard]
    by_cases hless : seen.length < count
    · rw [if_pos hless]
      exact .inr ⟨rfl, hless⟩
    · rw [if_neg hless]
      refine .inl ⟨[], rfl, List.Sublist.refl _, fun e he => absurd he List.not_mem_nil, ?_, ?_⟩
      · exact (List.append_nil seen).symm ▸ hseen
      · change count ≤ (seen ++ []).length
        rw [List.append_nil]
        omega
  | cons first topology ih =>
    obtain ⟨peer, chats⟩ := first
    unfold connect
    by_cases hless : seen.length < count
    · rw [if_pos hless]
      dsimp only
      obtain ⟨fresh, hfresh⟩ : ∃ fresh, fresh = chats.filter (· ∉ seen) := ⟨_, rfl⟩
      rw [← hfresh]
      have hnodup : (seen ++ fresh).Nodup := by
        rw [hfresh]
        refine List.nodup_append.mpr ⟨hseen, (hsets _ List.mem_cons_self).filter _, ?_⟩
        rintro c hc d hd rfl
        exact absurd hc (by simpa using (List.mem_filter.mp hd).2)
      rcases ih (fun e he => hsets e (List.mem_cons_of_mem _ he)) hnodup with
        ⟨connected, hconnect, hpeers, hsome, honce, henough⟩ | ⟨hnone, hcard⟩
      · rw [hconnect]
        have hfound (e : Peer × List C) (he : e ∈ connected) : e.2 ≠ [] ∧
            ∃ set, (e.1, set) ∈ (peer, chats) :: topology ∧ e.2 ⊆ set := by
          obtain ⟨hne, set, hset, hsub⟩ := hsome e he
          exact ⟨hne, set, List.mem_cons_of_mem _ hset, hsub⟩
        by_cases hempty : fresh.isEmpty
        · rw [if_pos hempty]
          rw [List.isEmpty_iff.mp hempty, List.append_nil] at honce henough
          exact .inl ⟨connected, rfl, hpeers.cons peer, hfound, honce, henough⟩
        · rw [if_neg hempty, Option.map_some]
          rw [List.append_assoc] at honce henough
          refine .inl ⟨(peer, fresh) :: connected, rfl, hpeers.cons_cons peer, fun e he => ?_, honce,
            henough⟩
          rcases List.mem_cons.mp he with rfl | he
          · refine ⟨fun hnil => hempty (List.isEmpty_iff.mpr hnil), chats, List.mem_cons_self, ?_⟩
            dsimp only
            rw [hfresh]
            exact fun c hc => List.mem_of_mem_filter hc
          · exact hfound e he
      · refine .inr ⟨?_, lt_of_le_of_lt (Finset.card_le_card fun c hc => ?_) hcard⟩
        · rw [hnone, Option.map_none, ite_self]
        · unfold listed at hc ⊢
          rw [List.mem_toFinset, List.flatMap_cons] at hc
          rw [List.mem_toFinset, List.append_assoc, List.mem_append, List.mem_append, hfresh,
            List.mem_filter]
          rcases List.mem_append.mp hc with hc | hc
          · exact .inl hc
          · rcases List.mem_append.mp hc with hc | hc
            · by_cases hold : c ∈ seen
              · exact .inl hold
              · exact .inr (.inl ⟨hc, by simpa using hold⟩)
            · exact .inr (.inr hc)
    · rw [if_neg hless]
      refine .inl ⟨[], rfl, List.nil_sublist _, fun e he => absurd he List.not_mem_nil, ?_, ?_⟩
      · exact (List.append_nil seen).symm ▸ hseen
      · change count ≤ (seen ++ []).length
        rw [List.append_nil]
        omega

/-- Another peer than that of the profile replicates each chat, and no chat is there twice. -/
def Connectable (replicators : C → List Peer) (profilePeer : Peer) (chats : List C) : Prop :=
  chats.Nodup ∧ ∀ chat ∈ chats, ∃ peer ∈ replicators chat, peer ≠ profilePeer

omit [DecidableEq Peer] [DecidableEq C] in
theorem mem_offers {peer : Peer} {chat : C} :
    (peer, chat) ∈ offers replicators chats ↔ chat ∈ chats ∧ peer ∈ replicators chat := by
  unfold offers
  simp only [List.mem_flatMap, List.mem_map, Prod.mk.injEq]
  constructor
  · rintro ⟨c, hc, p, hp, rfl, rfl⟩
    exact ⟨hc, hp⟩
  · rintro ⟨hc, hp⟩
    exact ⟨chat, hc, peer, hp, rfl, rfl⟩

/-- In whatever order the topology comes, the connections are found exactly if each chat has a
replicator other than the peer of the profile (and the vault has no chat twice). Then each chat is in
the set of one connection, the peer of which replicates it, no two connections are to one peer and
none is to that of the profile, and the stream of the profile has the chats that its peer
replicates. -/
theorem toConnect_spec (replicators : C → List Peer) (profilePeer : Peer) (chats : List C)
    (hshuffled : Shuffled (topologyOf replicators profilePeer chats).1 topology) :
    ((∃ connected, toConnect chats.length topology = some connected) ↔
      Connectable replicators profilePeer chats) ∧
    (∀ connected, toConnect chats.length topology = some connected →
      (listed connected).Perm chats ∧ (connected.map Prod.fst).Nodup ∧
      ∀ e ∈ connected, e.1 ≠ profilePeer ∧ e.2 ≠ [] ∧ ∀ chat ∈ e.2, e.1 ∈ replicators chat) ∧
    ∀ chat, chat ∈ (topologyOf replicators profilePeer chats).2 ↔
      chat ∈ chats ∧ profilePeer ∈ replicators chat := by
  have hplaced := placed_topologyOf replicators profilePeer chats
  obtain ⟨popped, hpopped⟩ : ∃ popped, popped =
    (topology.mergeSort fun a b => a.2.length ≤ b.2.length).reverse := ⟨_, rfl⟩
  have hsorted : topology.Perm popped := by
    rw [hpopped]
    exact (List.mergeSort_perm _ _).symm.trans (List.reverse_perm _).symm
  have htopology := hplaced.topology.shuffle (List.Perm.trans hshuffled (hsorted.map _))
  have hlisted (chat : C) : chat ∈ listed popped ↔
      chat ∈ chats ∧ ∃ peer ∈ replicators chat, peer ≠ profilePeer := by
    unfold listed
    rw [List.mem_flatMap]
    constructor
    · rintro ⟨e, he, hchat⟩
      obtain ⟨hoffer, hne⟩ := (htopology.listed e.1 chat).mp ⟨e.2, he, hchat⟩
      exact ⟨(mem_offers.mp hoffer).1, e.1, (mem_offers.mp hoffer).2, hne⟩
    · rintro ⟨hchat, peer, hpeer, hne⟩
      obtain ⟨set, hset, hin⟩ :=
        (htopology.listed peer chat).mpr ⟨mem_offers.mpr ⟨hchat, hpeer⟩, hne⟩
      exact ⟨_, hset, hin⟩
  have hconnect : (∃ connected, connect chats.length popped [] = some connected ∧
      Connects chats.length popped [] connected) ∨
      connect chats.length popped [] = none ∧
        ([] ++ listed popped).toFinset.card < chats.length :=
    connect_spec htopology.sets List.nodup_nil
  have hfound (connected : List (Peer × List C))
      (h : Connects chats.length popped [] connected) : (listed connected).Perm chats := by
    have hsub : listed connected ⊆ chats := by
      intro chat hchat
      obtain ⟨e, he, hin⟩ := List.mem_flatMap.mp hchat
      obtain ⟨-, set, hset, hsome⟩ := h.some e he
      exact ((hlisted chat).mp (List.mem_flatMap.mpr ⟨_, hset, hsome hin⟩)).1
    exact (List.subperm_of_subset h.once hsub).perm_of_length_le h.enough
  unfold toConnect
  rw [← hpopped]
  refine ⟨⟨?_, fun hconnectable => ?_⟩, fun connected hconnected => ?_, fun chat => ?_⟩
  · rintro ⟨connected, hconnected⟩
    rcases hconnect with ⟨connected', hconnect, hconnects⟩ | ⟨hnone, -⟩
    · have hperm := hfound connected' hconnects
      refine ⟨hperm.nodup_iff.mp hconnects.once, fun chat hchat => ?_⟩
      obtain ⟨e, he, hin⟩ := List.mem_flatMap.mp (hperm.mem_iff.mpr hchat)
      obtain ⟨-, set, hset, hsome⟩ := hconnects.some e he
      exact ((hlisted chat).mp (List.mem_flatMap.mpr ⟨_, hset, hsome hin⟩)).2
    · rw [hnone] at hconnected
      cases hconnected
  · rcases hconnect with ⟨connected, hconnect, -⟩ | ⟨-, hcard⟩
    · exact ⟨connected, hconnect⟩
    · have hall : chats.toFinset ⊆ ([] ++ listed popped).toFinset := by
        intro chat hchat
        rw [List.mem_toFinset] at hchat ⊢
        exact (hlisted chat).mpr ⟨hchat, hconnectable.2 chat hchat⟩
      have hle := Finset.card_le_card hall
      rw [List.toFinset_card_of_nodup hconnectable.1] at hle
      omega
  · rcases hconnect with ⟨connected', hconnect, hconnects⟩ | ⟨hnone, -⟩
    · rw [hconnect] at hconnected
      cases hconnected
      refine ⟨hfound connected hconnects, hconnects.peers.nodup htopology.peers, fun e he => ?_⟩
      obtain ⟨hne, set, hset, hsome⟩ := hconnects.some e he
      have hoffer (chat : C) (hchat : chat ∈ e.2) :=
        (htopology.listed e.1 chat).mp ⟨set, hset, hsome hchat⟩
      obtain ⟨chat, hchat⟩ := List.exists_mem_of_ne_nil _ hne
      exact ⟨(hoffer chat hchat).2, hne, fun chat hchat => (mem_offers.mp (hoffer chat hchat).1).2⟩
    · rw [hnone] at hconnected
      cases hconnected
  · rw [hplaced.topics, List.mem_map]
    constructor
    · rintro ⟨⟨peer, c⟩, hoffer, rfl⟩
      obtain ⟨hoffer, hpeer⟩ := List.mem_filter.mp hoffer
      have hsame : peer = profilePeer := by simpa using hpeer
      rw [← hsame]
      exact mem_offers.mp hoffer
    · intro hchat
      refine ⟨(profilePeer, chat), List.mem_filter.mpr ⟨mem_offers.mpr hchat, ?_⟩, rfl⟩
      exact decide_eq_true rfl

def sampleReplicators (chat : ℕ) : List ℕ := if chat = 5 then [1, 2] else [2, 3]

theorem toConnect_spec_two :
    (∃ connected, toConnect 2 (topologyOf sampleReplicators 1 [5, 6]).1 = some connected) ∧
      5 ∈ (topologyOf sampleReplicators 1 [5, 6]).2 := by
  have hspec := toConnect_spec sampleReplicators 1 [5, 6] (List.Perm.refl _)
  exact ⟨hspec.1.mpr ⟨by decide, by decide⟩, (hspec.2.2 5).mpr (by decide)⟩

end Planning

section Routing

variable {Topic S : Type} [DecidableEq Topic] {writeBytes : S → Bytes → Option S}
  {closest : Topic → List Peer} {n n' : Node Topic Peer S} {written : Written}

def ends (s : Subscription Topic Peer S) : PathId × Peer := (s.id, s.peerId)

/-- The stream goes to a peer that is close to the topic. -/
def Reaches (closest : Topic → List Peer) (n : Node Topic Peer S) (id : PathId) (topic : Topic) :
    Prop :=
  ∃ peer ∈ closest topic, (id, peer) ∈ n.subscriptions.map ends

/-- Streams have topics that their peers are close to, and one path is searched for one topic. -/
structure Routed (closest : Topic → List Peer) (n : Node Topic Peer S) : Prop where
  streams : ∀ s ∈ n.subscriptions, ∀ topic ∈ s.topics, s.peerId ∈ closest topic
  searches : ∀ e ∈ n.pendingTopicSearch, ∃ topic, ∀ command ∈ e.2,
    RequestInit.topic command = .ok topic

def Lists (n : Node Topic Peer S) (topic : Topic) : Prop :=
  ∃ s ∈ n.subscriptions, topic ∈ s.topics

/-- What a command has done to a node. -/
structure Handled (closest : Topic → List Peer) (n n' : Node Topic Peer S)
    (command : RequestInit Topic) (written : Written) : Prop where
  routed : Routed closest n'
  ends : n'.subscriptions.map ends = n.subscriptions.map ends
  keeps : ∀ topic, Lists n topic → Lists n' topic
  reaches : ∀ p ∈ written, ∀ topic, command.topic = .ok topic → Reaches closest n p.1 topic

omit [DecidableEq Peer] [DecidableEq Topic] in
theorem mem_or_mem_updateFirst {q : Subscription Topic Peer S → Bool}
    {f : Subscription Topic Peer S → Subscription Topic Peer S} {s : Subscription Topic Peer S}
    {l : List (Subscription Topic Peer S)} (h : s ∈ l) :
    s ∈ updateFirst q f l ∨ f s ∈ updateFirst q f l := by
  induction l with
  | nil => exact absurd h List.not_mem_nil
  | cons first l ih =>
    unfold updateFirst
    split_ifs
    · rcases List.mem_cons.mp h with rfl | h
      · exact .inr List.mem_cons_self
      · exact .inl (List.mem_cons_of_mem _ h)
    · rcases List.mem_cons.mp h with rfl | h
      · exact .inl List.mem_cons_self
      · exact (ih h).imp (List.mem_cons_of_mem _) (List.mem_cons_of_mem _)

omit [DecidableEq Peer] [DecidableEq Topic] in
theorem Routed.updated (h : Routed closest n) {q : Subscription Topic Peer S → Bool}
    {f : Subscription Topic Peer S → Subscription Topic Peer S}
    (hsub : n'.subscriptions = updateFirst q f n.subscriptions)
    (hsearch : n'.pendingTopicSearch = n.pendingTopicSearch) (hends : ∀ s, ends (f s) = ends s)
    (hf : ∀ s, n.subscriptions.find? q = some s → ∀ topic ∈ (f s).topics,
      topic ∈ s.topics ∨ s.peerId ∈ closest topic) (hkeeps : ∀ s, s.topics ⊆ (f s).topics) :
    Routed closest n' ∧ n'.subscriptions.map ends = n.subscriptions.map ends ∧
      ∀ topic, Lists n topic → Lists n' topic := by
  refine ⟨⟨fun s hs topic htopic => ?_, hsearch ▸ h.searches⟩, ?_, ?_⟩
  · rw [hsub] at hs
    rcases mem_updateFirst hs with hs | ⟨old, hfind, rfl⟩
    · exact h.streams s hs topic htopic
    · have hpeer : (f old).peerId = old.peerId := congrArg Prod.snd (hends old)
      rw [hpeer]
      rcases hf old hfind topic htopic with hold | hclose
      · exact h.streams old (List.mem_of_find?_eq_some hfind) topic hold
      · exact hclose
  · rw [hsub]
    exact map_updateFirst hends q n.subscriptions
  · rintro topic ⟨s, hs, htopic⟩
    unfold Lists
    rw [hsub]
    rcases mem_or_mem_updateFirst hs with hs' | hs'
    · exact ⟨s, hs', htopic⟩
    · exact ⟨f s, hs', hkeeps s htopic⟩

omit [DecidableEq Peer] [DecidableEq Topic] in
theorem Routed.unsubscribed (h : Routed closest n) (cid : Rpc.CallId) :
    Routed closest (n.unsubscribe cid) ∧
      (n.unsubscribe cid).subscriptions.map ClientConnections.ends = n.subscriptions.map ends ∧
      ∀ topic, Lists n topic → Lists (n.unsubscribe cid) topic :=
  h.updated rfl rfl (fun _ => rfl) (fun _ _ _ hin => .inl hin) fun s => List.Subset.refl s.topics

omit [DecidableEq Peer] [DecidableEq Topic] in
theorem Reaches.of_ends {id : PathId} {topic : Topic}
    (hends : n'.subscriptions.map ends = n.subscriptions.map ends)
    (h : Reaches closest n id topic) : Reaches closest n' id topic := by
  obtain ⟨peer, hclose, hmem⟩ := h
  exact ⟨peer, hclose, hends ▸ hmem⟩

omit [DecidableEq Peer] [DecidableEq Topic] in
/-- A stream that lists the topic reaches a peer that is close to it. -/
theorem Routed.reaches (h : Routed closest n) {s : Subscription Topic Peer S} {topic : Topic}
    (hs : s ∈ n.subscriptions) (htopic : topic ∈ s.topics) : Reaches closest n s.id topic :=
  ⟨s.peerId, h.streams s hs topic htopic, List.mem_map_of_mem hs⟩

omit [DecidableEq Peer] in
theorem handledRequest {search : Node Topic Peer S → RequestInit Topic →
      Except Fault (Node Topic Peer S × Written)} {id : Rpc.CallId} {topic : Option Topic}
    {payload : Bytes} {channel : Channel} (h : Routed closest n)
    (hsearch : ∀ {n' written}, search n (.request id topic payload channel) = .ok (n', written) →
      Handled closest n n' (.request id topic payload channel) written)
    (hrequest : n.handleRequest writeBytes search id topic payload channel = .ok (n', written)) :
    Handled closest n n' (.request id topic payload channel) written := by
  unfold Node.handleRequest at hrequest
  dsimp only at hrequest
  split at hrequest
  · exact hsearch hrequest
  next sub hfind =>
  split_ifs at hrequest
  split at hrequest
  · cases hrequest
  obtain ⟨hnode, rfl⟩ := Prod.mk.inj (Except.ok.inj hrequest)
  have hsearches : n'.pendingTopicSearch = n.pendingTopicSearch := by rw [← hnode]
  obtain ⟨hrouted, hends, hkeeps⟩ := h.updated (congrArg Node.subscriptions hnode.symm) hsearches
    (fun _ => rfl) (fun s _ key hkey => .inl hkey) fun s => List.Subset.refl s.topics
  refine ⟨hrouted, hends, hkeeps, fun p hp key hkey => ?_⟩
  · cases List.mem_singleton.mp hp
    cases topic with
    | none => cases hkey
    | some topic =>
      obtain rfl : topic = key := Except.ok.inj hkey
      have htakes : topic ∈ sub.topics := by simpa using List.find?_some hfind
      exact h.reaches (List.mem_of_find?_eq_some hfind) htakes

omit [DecidableEq Peer] in
theorem handledSubscription {search : Node Topic Peer S → RequestInit Topic →
      Except Fault (Node Topic Peer S × Written)} {id : Rpc.CallId} {topic : Topic}
    {payload : Bytes} {channel : Channel} (h : Routed closest n)
    (hsearch : ∀ {n' written}, search n (.subscription id topic payload channel) =
      .ok (n', written) → Handled closest n n' (.subscription id topic payload channel) written)
    (hrequest : n.handleSubscriptionRequest writeBytes search id topic payload channel =
      .ok (n', written)) :
    Handled closest n n' (.subscription id topic payload channel) written := by
  unfold Node.handleSubscriptionRequest at hrequest
  dsimp only at hrequest
  split at hrequest
  · exact hsearch hrequest
  next sub hfind =>
  split_ifs at hrequest
  split at hrequest
  · cases hrequest
  obtain ⟨hnode, rfl⟩ := Prod.mk.inj (Except.ok.inj hrequest)
  have hsearches : n'.pendingTopicSearch = n.pendingTopicSearch := by rw [← hnode]
  obtain ⟨hrouted, hends, hkeeps⟩ := h.updated (congrArg Node.subscriptions hnode.symm) hsearches
    (fun _ => rfl) (fun s _ key hkey => .inl hkey) fun s => List.Subset.refl s.topics
  refine ⟨hrouted, hends, hkeeps, fun p hp key hkey => ?_⟩
  · cases List.mem_singleton.mp hp
    obtain rfl : topic = key := Except.ok.inj hkey
    have htakes : topic ∈ sub.topics := by simpa using List.find?_some hfind
    exact h.reaches (List.mem_of_find?_eq_some hfind) htakes

/-- A search writes nothing itself. The stream that it finds goes to a peer close to the topic. -/
theorem handledSearch {handle : Node Topic Peer S → RequestInit Topic →
      Except Fault (Node Topic Peer S × Written)} {command : RequestInit Topic}
    (hhandle : ∀ n, Routed closest n → ∀ {n' written}, handle n command = .ok (n', written) →
      Handled closest n n' command written) (h : Routed closest n)
    (hsearch : n.handleTopicSearch closest handle command = .ok (n', written)) :
    Handled closest n n' command written := by
  unfold Node.handleTopicSearch at hsearch
  split at hsearch
  · cases hsearch
  next searchKey htopic =>
  dsimp only at hsearch
  split at hsearch
  · next e hfind =>
    cases hsearch
    refine ⟨⟨h.streams, fun e' he' => ?_⟩, rfl, fun _ hin => hin,
      fun p hp => absurd hp List.not_mem_nil⟩
    rcases mem_updateFirst he' with he' | ⟨old, hold, rfl⟩
    · exact h.searches e' he'
    · obtain ⟨topic, hsame⟩ := h.searches old (List.mem_of_find?_eq_some hold)
      -- the commands that wait have the topic of the new one
      have hany := List.find?_some hold
      obtain ⟨first, hfirst, hfor⟩ := List.any_eq_true.mp hany
      have hkey : topic = searchKey := by
        unfold RequestInit.isFor at hfor
        rw [hsame first hfirst] at hfor
        simpa using hfor
      refine ⟨topic, fun other hother => ?_⟩
      rcases List.mem_append.mp hother with hother | hother
      · exact hsame other hother
      · cases List.mem_singleton.mp hother
        rw [hkey]
        exact htopic
  split at hsearch
  · next sub hfind =>
    have hclose : ∀ s, n.subscriptions.find? (fun s => decide (s.peerId ∈ closest searchKey)) =
        some s → s.peerId ∈ closest searchKey := fun s hs => by simpa using List.find?_some hs
    have hadded (s : Subscription Topic Peer S)
        (hs : n.subscriptions.find? (fun s => decide (s.peerId ∈ closest searchKey)) = some s)
        (topic : Topic) (hin : topic ∈ s.topics ++ [searchKey]) :
        topic ∈ s.topics ∨ s.peerId ∈ closest topic := by
      rcases List.mem_append.mp hin with hin | hin
      · exact .inl hin
      · cases List.mem_singleton.mp hin
        exact .inr (hclose s hs)
    obtain ⟨added, haddedNode⟩ : ∃ added : Node Topic Peer S, added = { n with
      subscriptions := updateFirst (fun s => decide (s.peerId ∈ closest searchKey))
        (fun s => { s with topics := s.topics ++ [searchKey] }) n.subscriptions } := ⟨_, rfl⟩
    rw [← haddedNode] at hsearch
    obtain ⟨hupdated, hends, hkeeps⟩ := h.updated (congrArg Node.subscriptions haddedNode)
      (by rw [haddedNode]) (fun _ => rfl) hadded
      fun s => List.subset_append_left s.topics _
    have hhandled := hhandle _ hupdated hsearch
    refine ⟨hhandled.routed, hhandled.ends.trans hends,
      fun topic hin => hhandled.keeps topic (hkeeps topic hin), fun p hp topic hkey => ?_⟩
    exact (hhandled.reaches p hp topic hkey).of_ends hends.symm
  split_ifs at hsearch
  · cases hsearch
    exact ⟨h, rfl, fun _ hin => hin, fun p hp => absurd hp List.not_mem_nil⟩
  · cases hsearch
    refine ⟨⟨h.streams, fun e he => ?_⟩, rfl, fun _ hin => hin,
      fun p hp => absurd hp List.not_mem_nil⟩
    rcases LinearMap.mem_of_mem_insert he with rfl | he
    · refine ⟨searchKey, fun other hother => ?_⟩
      cases List.mem_singleton.mp hother
      exact htopic
    · exact h.searches e he

theorem handled {k : ℕ} {command : RequestInit Topic} (h : Routed closest n)
    (hcommand : n.handleCommand writeBytes closest k command = .ok (n', written)) :
    Handled closest n n' command written := by
  induction k generalizing n command n' written with
  | zero => cases hcommand
  | succ k ih =>
    cases command with
    | request id topic payload channel =>
      exact handledRequest h (handledSearch (fun n hn {n' written} => ih hn) h) hcommand
    | subscription id topic payload channel =>
      exact handledSubscription h (handledSearch (fun n hn {n' written} => ih hn) h) hcommand
    | closeSubscription id =>
      cases hcommand
      obtain ⟨hrouted, hends, hkeeps⟩ := h.unsubscribed id
      exact ⟨hrouted, hends, hkeeps, fun p hp => absurd hp List.not_mem_nil⟩

/-- What `Node::new` returns: the stream of the profile, and one for each connection with the path
that it was opened on. -/
def newNode (identity : Identity) (profileId : PathId) (profilePeer : Peer) (profileStream : S)
    (topics : List C) (opened : List (PathId × (Peer × List C) × S)) (nextPath : PathId) :
    Node (PossibleTopic C) Peer S where
  subscriptions :=
    ⟨profileId, profilePeer, .profile identity :: topics.map .chat, [], profileStream⟩ ::
      opened.map fun e => ⟨e.1, e.2.1.1, e.2.1.2.map .chat, [], e.2.2⟩
  pendingRequests := []
  pendingTopicSearch := []
  nextPath := nextPath

variable {closest : PossibleTopic C → List Peer} {identity : Identity} {profileId nextPath : PathId}
  {profilePeer : Peer} {profileStream : S} {chats topics : List C}
  {connected topology : List (Peer × List C)} {opened : List (PathId × (Peer × List C) × S)}
  {w₀ w : World (PossibleTopic C) Peer S} {acts : List (Act (PossibleTopic C) Peer S)}

/-- The topics that a client has when it starts. -/
def Known (identity : Identity) (chats : List C) : PossibleTopic C → Prop
  | .profile other => other = identity
  | .chat chat => chat ∈ chats

/-- A client with one chat, which the peer of its profile replicates with another one. -/
def sampleNode : Node (PossibleTopic ℕ) ℕ Unit := newNode default 0 1 () [5] [(1, (2, [5]), ())] 2

end Routing

end OrionNetwork.ClientConnections
