import OrionNetwork.StakeMirror
import OrionNetwork.Proofs

/-!
# Sizes of replica sets

The replicators of a topic are the closest routes, one more than the replication
factor because the node itself is counted among them. Arrays for the others have
room for the replication factor. A node that is not among the closest finds one
peer too many. Handlers that are executed ask first whether the topic is theirs;
votes, blocks and handlers that go on after a while do not, and the routes change
with every stake.
-/
namespace OrionNetwork.ReplicaSets
open Codec BlockHash ChatReplica Collections Proofs Dht StakeMirror Runs

variable {host : Host} {keys : Keys} {us : PeerId}

/-- `is_valid_topic` stops at the first route that is this node. -/
def isValidTopic (host : Host) (keys : Keys) (us : PeerId) (table : RoutingTable Multiaddr)
    (topic : Bytes) : Option Bool :=
  ((table.closest host topic).take (replicationFactor + 1)).anyM
    fun route => (route.peerId keys).map (· == us)

def otherReplicatorsFor (host : Host) (keys : Keys) (us : PeerId)
    (table : RoutingTable Multiaddr) (topic : Bytes) : Option (List PeerId) :=
  (replicatorsFor host keys table topic).map fun peers => peers.filter (· ≠ us)

/-- How a handler stops. `other` is a panic that has nothing to do with the arrays. -/
inductive Fault where
  | index
  | capacity
  | other
  deriving DecidableEq

/-- What the wrapped handler came to. -/
inductive Inner where
  | answered
  | failed
  | suspended
  deriving DecidableEq

/-- The routes, the chats, and the topics of the handlers in `Repl::Resolving`. -/
structure Server where
  table : RoutingTable Multiaddr
  chats : ChatName → Option Chat
  resolving : List Bytes

/-- Chats after a handler, and requests that can be made, are known from outside. -/
inductive Act where
  | stake (event : NodeStaker.Event)
  | proposeMsgBlock (origin : PeerId) (name : ChatName) (number : ℕ) (hash : Hash)
  | sendBlock (origin : PeerId) (name : ChatName) (number : ℕ) (block : Bytes)
  | replExecute (topic : Bytes) (inner : Inner) (chats : ChatName → Option Chat)
      (made : PeerId → Bool)
  | replResume (index : ℕ) (inner : Inner) (chats : ChatName → Option Chat) (made : PeerId → Bool)
  | retryExecute (topic : Bytes) (stored : Bool) (chats : ChatName → Option Chat)
      (made : PeerId → Bool)

/-- The vote gets as far as `others[index]`. -/
def voteIndexes (host : Host) (chat : Chat) (number : ℕ) : Bool :=
  match chat.lastFinalizedBlock host, chat.stage with
  | .ok k, .unfinalized _ _ => k ≤ number ∧ number ≤ k + 1
  | _, _ => false

/-- The block gets as far as `others[index]`. -/
def blockIndexes (host : Host) (chat : Chat) (number : ℕ) (block : Bytes) : Bool :=
  match chat.lastFinalizedBlock host, chat.stage, hashBlock host block with
  | .ok k, .unfinalized (some _) _, .ok _ => k = number
  | _, _, _ => false

/-- The slot of a position, which is not looked at when there is none. -/
def slotOf (index : ℕ) : Slot := if h : index < replicationFactor then ⟨index, h⟩ else 0

/-- Calls are collected into a `ReplVec`. -/
def collect (made : PeerId → Bool) (peers : List PeerId) : Except Fault (List PeerId) :=
  if (peers.filter made).length ≤ replicationFactor then .ok (peers.filter made)
  else .error .capacity

def storeChat (s : Server) (name : ChatName) (chat : Chat) : Server :=
  { s with chats := Function.update s.chats name (some chat) }

/-- The handler of a vote or a block, from the position of its sender on. -/
def indexed {ρ : Type} (s : Server) (name : ChatName) (index : ℕ) (indexes : Chat → Bool)
    (handle : Chat → Slot → Except Panic (Outcome ρ)) : Except Fault Server :=
  match s.chats name with
  | none => .ok s
  | some chat =>
    if indexes chat ∧ replicationFactor ≤ index then .error .index
    else
      match handle chat (slotOf index) with
      | .error _ => .error .other
      | .ok out => .ok (storeChat s name out.chat)

/-- The position of a sender among the other replicators, or that it has none. -/
def fromReplicator (host : Host) (keys : Keys) (us : PeerId) (s : Server) (name : ChatName)
    (origin : PeerId) (go : ℕ → Except Fault Server) : Except Fault Server :=
  match otherReplicatorsFor host keys us s.table (asBytes name.val) with
  | none => .error .other
  | some peers =>
    match peers.idxOf? origin with
    | none => .ok s
    | some index => go index

/-- `new_replicating`, or the requests of `Retry`. -/
def collected (host : Host) (keys : Keys) (us : PeerId) (s : Server) (topic : Bytes)
    (made : PeerId → Bool) : Except Fault Server :=
  match otherReplicatorsFor host keys us s.table topic with
  | none => .error .other
  | some peers =>
    match collect made peers with
    | .error fault => .error fault
    | .ok _ => .ok s

def step (host : Host) (keys : Keys) (us : PeerId) (s : Server) : Act → Except Fault Server
  | .stake event => .ok { s with table := handleStakeEvent keys s.table event }
  | .proposeMsgBlock origin name number hash =>
    fromReplicator host keys us s name origin fun index =>
      indexed s name index (fun chat => voteIndexes host chat number)
        fun chat slot => proposeMsgBlock host chat slot number hash
  | .sendBlock origin name number block =>
    fromReplicator host keys us s name origin fun index =>
      indexed s name index (fun chat => blockIndexes host chat number block)
        fun chat slot => sendBlock host chat slot number block
  | .replExecute topic inner chats made =>
    match isValidTopic host keys us s.table topic with
    | none => .error .other
    | some false => .ok s
    | some true =>
      match inner with
      | .answered => collected host keys us { s with chats := chats } topic made
      | .failed => .ok { s with chats := chats }
      | .suspended => .ok { s with chats := chats, resolving := topic :: s.resolving }
  | .replResume index inner chats made =>
    match s.resolving[index]? with
    | none => .ok s
    | some topic =>
      match inner with
      | .answered => collected host keys us
          { s with chats := chats, resolving := s.resolving.eraseIdx index } topic made
      | .failed => .ok { s with chats := chats, resolving := s.resolving.eraseIdx index }
      | .suspended => .ok { s with chats := chats }
  | .retryExecute topic stored chats made =>
    match isValidTopic host keys us s.table topic with
    | none => .error .other
    | some false => .ok s
    | some true =>
      if stored then .ok { s with chats := chats }
      else collected host keys us s topic made

def Step (host : Host) (keys : Keys) (us : PeerId) (s : Server) (act : Act) (s' : Server) : Prop :=
  step host keys us s act = .ok s'

/-- The topic of a vote or a block whose sender has a place among the others. -/
def indexedTopic (host : Host) (keys : Keys) (us : PeerId) (s : Server) (name : ChatName)
    (origin : PeerId) (indexes : Chat → Bool) : Option Bytes :=
  match otherReplicatorsFor host keys us s.table (asBytes name.val), s.chats name with
  | some peers, some chat =>
    if origin ∈ peers ∧ indexes chat then some (asBytes name.val) else none
  | _, _ => none

/-- The topic whose other replicators an act has to find room for. -/
def takes (host : Host) (keys : Keys) (us : PeerId) (s : Server) : Act → Option Bytes
  | .stake _ => none
  | .proposeMsgBlock origin name number _ =>
    indexedTopic host keys us s name origin fun chat => voteIndexes host chat number
  | .sendBlock origin name number block =>
    indexedTopic host keys us s name origin fun chat => blockIndexes host chat number block
  | .replExecute topic inner _ _ =>
    if inner = .answered ∧ isValidTopic host keys us s.table topic = some true then some topic
    else none
  | .replResume index inner _ _ => if inner = .answered then s.resolving[index]? else none
  | .retryExecute topic stored _ _ =>
    if stored = false ∧ isValidTopic host keys us s.table topic = some true then some topic
    else none

/-- No more peers are taken than there is room for. -/
def Fits (host : Host) (keys : Keys) (us : PeerId) (s : Server) (act : Act) : Prop :=
  ∀ topic peers, takes host keys us s act = some topic →
    otherReplicatorsFor host keys us s.table topic = some peers →
    peers.length ≤ replicationFactor

/-- The node is among the closest to the topic at that moment, or there are not
enough routes to do without it. -/
def Covered (host : Host) (keys : Keys) (us : PeerId) (s : Server) (act : Act) : Prop :=
  ∀ topic peers, takes host keys us s act = some topic →
    replicatorsFor host keys s.table topic = some peers →
    us ∈ peers ∨ s.table.routes.length ≤ replicationFactor

section Counting

/-- As many as there are, and one more than the replication factor at most. -/
theorem length_replicators {table : RoutingTable Multiaddr} (hsorted : Sorted table) {topic : Bytes}
    {peers : List PeerId} (h : replicatorsFor host keys table topic = some peers) :
    peers.length = min (replicationFactor + 1) table.routes.length := by
  obtain ⟨hall, htake, -⟩ :=
    closestLow_enumerates table hsorted (U256.ofHash (host.blake3 topic))
  have hlength := (hall table.routes.length le_rfl).1.length_eq
  rw [length_of_mapM h]
  unfold RoutingTable.closest
  rw [htake, List.length_take, hlength]

/-- Leaving out the node itself makes room exactly if it is there. -/
theorem length_others_le_iff {peers : List PeerId} (h : peers.length ≤ replicationFactor + 1) :
    (peers.filter (· ≠ us)).length ≤ replicationFactor ↔
      us ∈ peers ∨ peers.length ≤ replicationFactor := by
  by_cases hus : us ∈ peers
  · have hlt : (peers.filter (· ≠ us)).length < peers.length := by
      apply List.length_filter_lt_length_iff_exists.mpr
      exact ⟨us, hus, by simp⟩
    exact ⟨fun _ => .inl hus, fun _ => by omega⟩
  · have hsame : peers.filter (· ≠ us) = peers := by
      apply List.filter_eq_self.mpr
      intro peer hpeer
      rw [decide_eq_true_eq]
      rintro rfl
      exact hus hpeer
    rw [hsame]
    exact ⟨.inr, fun h => h.resolve_left hus⟩

theorem fits_iff_covered {s : Server} (hsorted : Sorted s.table) (act : Act) :
    Fits host keys us s act ↔ Covered host keys us s act := by
  have hexact : ∀ topic peers, replicatorsFor host keys s.table topic = some peers →
      ((peers.filter (· ≠ us)).length ≤ replicationFactor ↔
        us ∈ peers ∨ s.table.routes.length ≤ replicationFactor) := by
    intro topic peers hpeers
    have hlength := length_replicators hsorted hpeers
    rw [length_others_le_iff (by omega)]
    have hfew : peers.length ≤ replicationFactor ↔ s.table.routes.length ≤ replicationFactor := by
      omega
    rw [hfew]
  constructor
  · intro hfits topic peers htakes hpeers
    refine (hexact topic peers hpeers).mp (hfits topic _ htakes ?_)
    rw [otherReplicatorsFor, hpeers, Option.map_some]
  · intro hcovered topic others htakes hothers
    obtain ⟨peers, hpeers, rfl⟩ := Option.map_eq_some_iff.mp hothers
    exact (hexact topic peers hpeers).mpr (hcovered topic peers htakes hpeers)

end Counting

section Steps

variable {s s' : Server} {act : Act}

/-- A topic that is valid has this node among its replicators. -/
theorem mem_of_isValidTopic {table : RoutingTable Multiaddr} {topic : Bytes} {peers : List PeerId}
    (hvalid : isValidTopic host keys us table topic = some true)
    (hpeers : replicatorsFor host keys table topic = some peers) : us ∈ peers := by
  unfold isValidTopic at hvalid
  unfold replicatorsFor at hpeers
  generalize (table.closest host topic).take (replicationFactor + 1) = routes at hvalid hpeers
  induction routes generalizing peers with
  | nil => cases hvalid
  | cons route routes ih =>
    rw [List.mapM_cons] at hpeers
    obtain ⟨peer, hpeer, hpeers⟩ := Option.bind_eq_some_iff.mp hpeers
    obtain ⟨others, hothers, hpeers⟩ := Option.bind_eq_some_iff.mp hpeers
    cases hpeers
    simp only [List.anyM, hpeer, Option.map_some, Option.bind_eq_bind, Option.bind_some] at hvalid
    by_cases hus : peer = us
    · rw [hus]
      exact List.mem_cons_self
    · rw [beq_eq_false_iff_ne.mpr hus] at hvalid
      exact List.mem_cons_of_mem _ (ih hvalid hothers)

/-- A handler that is executed has just asked for the topic. -/
theorem covered_execute (s : Server) (topic : Bytes) (chats : ChatName → Option Chat)
    (made : PeerId → Bool) :
    (∀ inner, Covered host keys us s (.replExecute topic inner chats made)) ∧
    ∀ stored, Covered host keys us s (.retryExecute topic stored chats made) := by
  constructor
  · intro inner topic' peers htakes hpeers
    simp only [takes] at htakes
    split_ifs at htakes with hvalid
    cases htakes
    exact .inl (mem_of_isValidTopic hvalid.2 hpeers)
  · intro stored topic' peers htakes hpeers
    simp only [takes] at htakes
    split_ifs at htakes with hvalid
    cases htakes
    exact .inl (mem_of_isValidTopic hvalid.2 hpeers)

/-- Faults of the arrays. -/
def Overflows : Except Fault Server → Prop
  | .error .index => True
  | .error .capacity => True
  | _ => False

theorem not_overflows_collected {topic : Bytes} {made : PeerId → Bool}
    (h : ∀ peers, otherReplicatorsFor host keys us s.table topic = some peers →
      peers.length ≤ replicationFactor) :
    ¬ Overflows (collected host keys us s topic made) := by
  unfold collected
  cases hpeers : otherReplicatorsFor host keys us s.table topic with
  | none => exact id
  | some peers =>
    have hroom : (peers.filter made).length ≤ replicationFactor :=
      (List.length_filter_le _ _).trans (h peers hpeers)
    simp only [collect, if_pos hroom]
    exact id

theorem not_overflows_indexed {ρ : Type} {name : ChatName} {origin : PeerId}
    {indexes : Chat → Bool} {handle : Chat → Slot → Except Panic (Outcome ρ)}
    (h : ∀ topic peers, indexedTopic host keys us s name origin indexes = some topic →
      otherReplicatorsFor host keys us s.table topic = some peers →
      peers.length ≤ replicationFactor) :
    ¬ Overflows (fromReplicator host keys us s name origin fun index =>
      indexed s name index indexes handle) := by
  unfold fromReplicator
  cases hpeers : otherReplicatorsFor host keys us s.table (asBytes name.val) with
  | none => exact id
  | some peers =>
    simp only
    cases hindex : peers.idxOf? origin with
    | none => exact id
    | some index =>
      simp only [indexed]
      cases hchat : s.chats name with
      | none => exact id
      | some chat =>
        obtain ⟨hlt, horigin, -⟩ := List.idxOf?_eq_some_iff.mp hindex
        have hmem : origin ∈ peers := by
          rw [← horigin]
          exact List.getElem_mem hlt
        have hinside : ¬ (indexes chat ∧ replicationFactor ≤ index) := by
          rintro ⟨hindexes, hlarge⟩
          have hfits := h (asBytes name.val) peers (by
            unfold indexedTopic
            rw [hpeers, hchat]
            exact if_pos ⟨hmem, hindexes⟩) hpeers
          omega
        simp only [if_neg hinside]
        cases handle chat (slotOf index) with
        | error panic => exact id
        | ok out => exact id

/-- Where the peers fit, no array overflows. -/
theorem not_overflows_of_fits (h : Fits host keys us s act) :
    ¬ Overflows (step host keys us s act) := by
  cases act with
  | stake event => exact id
  | proposeMsgBlock origin name number hash => exact not_overflows_indexed h
  | sendBlock origin name number block => exact not_overflows_indexed h
  | replExecute topic inner chats made =>
    simp only [step]
    cases hvalid : isValidTopic host keys us s.table topic with
    | none => exact id
    | some valid =>
      cases valid with
      | false => exact id
      | true =>
        cases inner with
        | answered =>
          apply not_overflows_collected
          exact fun peers => h topic peers (if_pos ⟨rfl, hvalid⟩)
        | failed => exact id
        | suspended => exact id
  | replResume index inner chats made =>
    simp only [step]
    cases htopic : s.resolving[index]? with
    | none => exact id
    | some topic =>
      cases inner with
      | answered =>
        apply not_overflows_collected
        exact fun peers => h topic peers (by rw [takes, if_pos rfl, htopic])
      | failed => exact id
      | suspended => exact id
  | retryExecute topic stored chats made =>
    simp only [step]
    cases hvalid : isValidTopic host keys us s.table topic with
    | none => exact id
    | some valid =>
      cases valid with
      | false => exact id
      | true =>
        cases stored with
        | true => exact id
        | false =>
          apply not_overflows_collected
          exact fun peers => h topic peers (if_pos ⟨rfl, hvalid⟩)

theorem sorted_handleStakeEvent {table : RoutingTable Multiaddr} (h : Sorted table)
    (event : NodeStaker.Event) : Sorted (handleStakeEvent keys table event) := by
  cases event with
  | joined identity addr =>
    simp only [handleStakeEvent]
    cases unpackNodeId keys identity with
    | none => exact h
    | some pk => exact (insert_spec h _).1
  | reclaimed identity =>
    simp only [handleStakeEvent]
    cases unpackNodeId keys identity with
    | none => exact h
    | some pk => exact (remove_spec h _).1
  | addrChanged identity addr =>
    simp only [handleStakeEvent]
    cases unpackNodeId keys identity with
    | none => exact h
    | some pk => exact (insert_spec h _).1

theorem eq_of_collected {topic : Bytes} {made : PeerId → Bool}
    (h : collected host keys us s topic made = .ok s') : s' = s := by
  unfold collected at h
  split at h
  · cases h
  · split at h
    · cases h
    · cases h
      rfl

theorem table_of_indexed {ρ : Type} {name : ChatName} {origin : PeerId} {indexes : Chat → Bool}
    {handle : Chat → Slot → Except Panic (Outcome ρ)}
    (h : (fromReplicator host keys us s name origin fun index =>
      indexed s name index indexes handle) = .ok s') : s'.table = s.table := by
  unfold fromReplicator indexed at h
  split at h
  · cases h
  · split at h
    · cases h
      rfl
    · split at h
      · cases h
        rfl
      · simp only at h
        split_ifs at h
        split at h
        · cases h
        · cases h
          rfl

/-- Only a stake changes the routes, and the table stays sorted by it. -/
theorem sorted_step (hsorted : Sorted s.table) (h : Step host keys us s act s') :
    Sorted s'.table := by
  unfold Step at h
  cases act with
  | stake event =>
    cases h
    exact sorted_handleStakeEvent hsorted event
  | proposeMsgBlock origin name number hash =>
    rw [table_of_indexed h]
    exact hsorted
  | sendBlock origin name number block =>
    rw [table_of_indexed h]
    exact hsorted
  | replExecute topic inner chats made =>
    simp only [step] at h
    split at h
    · cases h
    · cases h
      exact hsorted
    · cases inner with
      | answered =>
        rw [eq_of_collected h]
        exact hsorted
      | failed =>
        cases h
        exact hsorted
      | suspended =>
        cases h
        exact hsorted
  | replResume index inner chats made =>
    simp only [step] at h
    split at h
    · cases h
      exact hsorted
    · cases inner with
      | answered =>
        rw [eq_of_collected h]
        exact hsorted
      | failed =>
        cases h
        exact hsorted
      | suspended =>
        cases h
        exact hsorted
  | retryExecute topic stored chats made =>
    simp only [step] at h
    split at h
    · cases h
    · cases h
      exact hsorted
    · split_ifs at h
      · cases h
        exact hsorted
      · rw [eq_of_collected h]
        exact hsorted

end Steps

/-- In every run, whatever stakes come between the requests, a step finds room for the
peers it takes and no array overflows exactly when the node is then among the closest
to the topic or the routes are few. Executing a handler is always such a step. -/
theorem replica_sets_fit (host : Host) (keys : Keys) (us : PeerId) {start s : Server}
    {acts : List Act} (hstart : Sorted start.table) (h : Run (Step host keys us) start acts s) :
    (∀ act, (Fits host keys us s act ∧ step host keys us s act ≠ .error .index ∧
      step host keys us s act ≠ .error .capacity) ↔ Covered host keys us s act) ∧
    ∀ topic chats made,
      (∀ inner, Covered host keys us s (.replExecute topic inner chats made)) ∧
      ∀ stored, Covered host keys us s (.retryExecute topic stored chats made) := by
  have hsorted : Sorted s.table := h.stateInvariant (P := fun s => Sorted s.table) hstart
    fun _ _ _ hs hstep => sorted_step hs hstep
  refine ⟨fun act => ⟨fun hsafe => (fits_iff_covered hsorted act).mp hsafe.1, ?_⟩, ?_⟩
  · intro hcovered
    have hfits := (fits_iff_covered hsorted act).mpr hcovered
    have hnot := not_overflows_of_fits hfits
    refine ⟨hfits, ?_, ?_⟩
    · intro hindex
      rw [hindex] at hnot
      exact hnot trivial
    · intro hcapacity
      rw [hcapacity] at hnot
      exact hnot trivial
  · intro topic chats made
    exact covered_execute s topic chats made

section Overtaken

/-- Every topic is at the beginning of the ring. -/
def originHost : Host := ⟨fun _ => Hash.zero, true⟩

/-- The key of the node at a distance from there. -/
def keyAt (n : UInt8) : Hash := ⟨List.replicate 31 0 ++ [n], by simp⟩

def peerAt (n : UInt8) : PeerId := sampleKeys.toPeerId (keyAt n)

/-- Four nodes and this one, which is the farthest. -/
def fiveNodes : RoutingTable Multiaddr :=
  ⟨[1, 2, 3, 4, 6].map fun n => .new (keyAt n) []⟩

/-- A chat that is stored, and a handler that waits. -/
def waiting : Server := ⟨fiveNodes, fun _ => some (new Hash.zero), [asBytes nameA.val]⟩

/-- A node that is closer joins. -/
def overtaken : Server :=
  { waiting with
    table := handleStakeEvent sampleKeys fiveNodes (.joined (keyAt 5) localhost) }

theorem otherReplicators_overtaken :
    otherReplicatorsFor originHost sampleKeys (peerAt 6) overtaken.table (asBytes nameA.val) =
      some ([1, 2, 3, 4, 5].map peerAt) := by
  decide +kernel

theorem run_overtaken (us : PeerId) : Run (Step originHost sampleKeys us) waiting
    [.stake (.joined (keyAt 5) localhost)] overtaken := Run.single rfl

/-- The farthest node votes before it is overtaken. -/
theorem replica_sets_fit_waiting :
    Sorted waiting.table ∧
    Covered originHost sampleKeys (peerAt 6) waiting (.proposeMsgBlock (peerAt 4) nameA 0 Hash.zero) ∧
    step originHost sampleKeys (peerAt 6) waiting
      (.proposeMsgBlock (peerAt 4) nameA 0 Hash.zero) ≠ .error .index := by
  have hsorted : Sorted waiting.table := by
    unfold Sorted
    decide +kernel
  have hcovered : Covered originHost sampleKeys (peerAt 6) waiting
      (.proposeMsgBlock (peerAt 4) nameA 0 Hash.zero) := by
    intro topic peers htakes hpeers
    left
    have htopic : topic = asBytes nameA.val := by
      simp only [takes, indexedTopic] at htakes
      split at htakes
      · split_ifs at htakes
        cases htakes
        rfl
      · cases htakes
    have hclosest : replicatorsFor originHost sampleKeys waiting.table (asBytes nameA.val) =
        some ([1, 2, 3, 4, 6].map peerAt) := by decide +kernel
    rw [htopic, hclosest] at hpeers
    cases hpeers
    decide +kernel
  obtain ⟨hsafe, -⟩ := replica_sets_fit originHost sampleKeys (peerAt 6) hsorted .start
  exact ⟨hsorted, hcovered, ((hsafe _).mpr hcovered).2.1⟩

/-- Once a closer node has joined, there are five others: its vote for the chat that is
still stored has no slot, and the calls of the handler that goes on do not fit. -/
theorem replica_sets_overflow :
    Run (Step originHost sampleKeys (peerAt 6)) waiting [.stake (.joined (keyAt 5) localhost)]
      overtaken ∧
    step originHost sampleKeys (peerAt 6) overtaken
      (.proposeMsgBlock (peerAt 5) nameA 0 Hash.zero) = .error .index ∧
    step originHost sampleKeys (peerAt 6) overtaken
      (.replResume 0 .answered overtaken.chats fun _ => true) = .error .capacity := by
  refine ⟨run_overtaken _, ?_, ?_⟩
  · have hindex : ([1, 2, 3, 4, 5].map peerAt).idxOf? (peerAt 5) = some 4 := by decide +kernel
    have hvote : voteIndexes originHost (new Hash.zero) 0 = true := by decide
    simp only [step, fromReplicator, otherReplicators_overtaken, hindex, indexed]
    exact if_pos ⟨hvote, by decide⟩
  · have hmade : ¬ (([1, 2, 3, 4, 5].map peerAt).filter fun _ => true).length ≤
        replicationFactor := by decide
    have hwaits : overtaken.resolving[0]? = some (asBytes nameA.val) := rfl
    simp only [step, hwaits, collected, otherReplicators_overtaken, collect, if_neg hmade]

end Overtaken

end OrionNetwork.ReplicaSets
