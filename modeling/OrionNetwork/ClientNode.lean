import OrionNetwork.CodecTypes
import OrionNetwork.Collections
import OrionNetwork.RpcBehaviour
import OrionNetwork.Runs

/-!
# The node of a client

Requests and subscriptions of the client are written to the stream of a server for their topic,
which is searched for when there is none. What comes back is told apart by its call id. The
subscriptions of a stream are kept with it, but the pending requests of all streams are in one
map, which is asked first. The order of the streams is that of the set they are polled from.
Path ids come from a counter, and call ids are those that were not given out before.
-/
namespace OrionNetwork.ClientNode
open Codec Collections Runs
open Rpc (CallId)

abbrev PathId := ℕ

/-- The sending half of a channel. -/
abbrev Channel := ℕ

inductive Fault where
  | assertion
  | unwrap
  | unreachable
  | expect (msg : String)
  | unfinished
  deriving DecidableEq, Repr

inductive RequestInit (Topic : Type) where
  | request (id : CallId) (topic : Option Topic) (payload : Bytes) (channel : Channel)
  | subscription (id : CallId) (topic : Topic) (payload : Bytes) (channel : Channel)
  | closeSubscription (id : CallId)

structure Subscription (Topic Peer S : Type) where
  id : PathId
  peerId : Peer
  topics : List Topic
  subscriptions : LinearMap CallId Channel
  stream : S

/-- `nextPath` is the counter behind `PathId::new`. -/
structure Node (Topic Peer S : Type) where
  subscriptions : List (Subscription Topic Peer S)
  pendingRequests : LinearMap CallId Channel
  pendingTopicSearch : LinearMap PathId (List (RequestInit Topic))
  nextPath : PathId

/-- The calls written, with the path of the stream. -/
abbrev Written := List (PathId × CallId)

/-- A message that a channel gets. -/
structure Delivery where
  call : CallId
  channel : Channel
  content : Bytes
  deriving DecidableEq, Repr

variable {Topic Peer S : Type}

namespace RequestInit

def topic : RequestInit Topic → Except Fault Topic
  | .request _ (some topic) _ _ => .ok topic
  | .request _ none _ _ => .error .unwrap
  | .subscription _ topic _ _ => .ok topic
  | .closeSubscription _ => .error .unreachable

/-- Commands that wait have a topic. -/
def isFor [DecidableEq Topic] (key : Topic) (c : RequestInit Topic) : Bool :=
  match c.topic with
  | .ok topic => topic = key
  | .error _ => false

/-- The ids that a command brings. -/
def calls : RequestInit Topic → List CallId
  | .request id _ _ _ => [id]
  | .subscription id _ _ _ => [id]
  | .closeSubscription _ => []

end RequestInit

namespace Node

/-- The first stream that has the call gives it up. -/
def unsubscribe (n : Node Topic Peer S) (cid : CallId) : Node Topic Peer S :=
  { n with
    subscriptions := updateFirst (fun s => decide (cid ∈ s.subscriptions.keys))
      (fun s => { s with subscriptions := s.subscriptions.remove cid }) n.subscriptions }

section Commands

variable [DecidableEq Topic] [DecidableEq Peer] (writeBytes : S → Bytes → Option S)
  (closest : Topic → List Peer)

/-- `handle` is `handle_command`. The peers that are closest to the topic are those that the
table has at the time. When there are some, a path is opened to one of them. -/
def handleTopicSearch
    (handle : Node Topic Peer S → RequestInit Topic → Except Fault (Node Topic Peer S × Written))
    (n : Node Topic Peer S) (command : RequestInit Topic) :
    Except Fault (Node Topic Peer S × Written) :=
  match command.topic with
  | .error why => .error why
  | .ok searchKey =>
    let searched := fun e : PathId × List (RequestInit Topic) => e.2.any (·.isFor searchKey)
    match n.pendingTopicSearch.find? searched with
    | some _ =>
      .ok ({ n with
        pendingTopicSearch :=
          updateFirst searched (fun e => (e.1, e.2 ++ [command])) n.pendingTopicSearch }, [])
    | none =>
      let peers := closest searchKey
      let isClose := fun s : Subscription Topic Peer S => decide (s.peerId ∈ peers)
      match n.subscriptions.find? isClose with
      | some _ =>
        handle { n with
          subscriptions := updateFirst isClose
            (fun s => { s with topics := s.topics ++ [searchKey] }) n.subscriptions } command
      | none =>
        if peers.isEmpty then .ok (n, [])
        else
          .ok ({ n with
            pendingTopicSearch := n.pendingTopicSearch.insert n.nextPath [command]
            nextPath := n.nextPath + 1 }, [])

def handleRequest
    (search : Node Topic Peer S → RequestInit Topic → Except Fault (Node Topic Peer S × Written))
    (n : Node Topic Peer S) (id : CallId) (topic : Option Topic) (payload : Bytes)
    (channel : Channel) : Except Fault (Node Topic Peer S × Written) :=
  let takes := fun s : Subscription Topic Peer S => topic.elim true fun t => decide (t ∈ s.topics)
  match n.subscriptions.find? takes with
  | none => search n (.request id topic payload channel)
  | some sub =>
    if payload.isEmpty then .error .assertion
    else
      match writeBytes sub.stream payload with
      | none => .error .unwrap
      | some stream =>
        .ok ({ n with
          subscriptions := updateFirst takes (fun s => { s with stream := stream }) n.subscriptions
          pendingRequests := n.pendingRequests.insert id channel }, [(sub.id, id)])

def handleSubscriptionRequest
    (search : Node Topic Peer S → RequestInit Topic → Except Fault (Node Topic Peer S × Written))
    (n : Node Topic Peer S) (id : CallId) (topic : Topic) (payload : Bytes) (channel : Channel) :
    Except Fault (Node Topic Peer S × Written) :=
  let takes := fun s : Subscription Topic Peer S => decide (topic ∈ s.topics)
  match n.subscriptions.find? takes with
  | none => search n (.subscription id topic payload channel)
  | some sub =>
    if payload.isEmpty then .error .assertion
    else
      match writeBytes sub.stream payload with
      | none => .error .unwrap
      | some stream =>
        .ok ({ n with
          subscriptions := updateFirst takes (fun s => { s with
            stream := stream
            subscriptions := s.subscriptions.insert id channel }) n.subscriptions },
          [(sub.id, id)])

/-- A search that finds a stream comes back to the command once. -/
def handleCommand : ℕ → Node Topic Peer S → RequestInit Topic →
    Except Fault (Node Topic Peer S × Written)
  | 0, _, _ => .error .unfinished
  | k + 1, n, .request id topic payload channel =>
    handleRequest writeBytes (handleTopicSearch closest (handleCommand k)) n id topic payload
      channel
  | k + 1, n, .subscription id topic payload channel =>
    handleSubscriptionRequest writeBytes (handleTopicSearch closest (handleCommand k)) n id topic
      payload channel
  | _ + 1, n, .closeSubscription id => .ok (n.unsubscribe id, [])

/-- The branch of `handle_swarm_event` for an outbound stream. -/
def handleOutboundStream (n : Node Topic Peer S) (stream : Option (S × Peer)) (id : PathId) :
    Except Fault (Node Topic Peer S × Written) :=
  match n.pendingTopicSearch.get id with
  | none => .ok (n, [])
  | some req =>
    match stream, req with
    | none, _ => .error (.expect "TODO: somehow report this error")
    | some _, [] => .error .unwrap
    | some (stream, peerId), first :: _ =>
      match first.topic with
      | .error why => .error why
      | .ok topic =>
        loop (fun s command => (handleCommand writeBytes closest 2 s.1 command).map fun r =>
            (r.1, s.2 ++ r.2)) req
          ({ n with
            pendingTopicSearch := n.pendingTopicSearch.remove id
            subscriptions := n.subscriptions ++ [⟨id, peerId, [topic], [], stream⟩] }, [])

end Commands

/-- A message for a subscriber, who gives up the subscription when it cannot be `taken`. -/
def send (n : Node Topic Peer S) (cid : CallId) (channel : Channel) (content : Bytes)
    (taken : Bool) : Except Fault (Node Topic Peer S × Option Delivery) :=
  if taken then .ok (n, some ⟨cid, channel, content⟩)
  else if n.subscriptions.any fun s => decide (cid ∈ s.subscriptions.keys) then
    .ok (n.unsubscribe cid, none)
  else .error (.expect "channel to exist")

/-- `request` is none for an error of the stream. -/
def handleSubscriptionResponse (n : Node Topic Peer S) (id : PathId) (request : Option Bytes)
    (taken : Bool) : Except Fault (Node Topic Peer S × Option Delivery) :=
  match request with
  | none => .ok (n, none)
  | some msg =>
    match (pair usize reminder).decode msg with
    | none => .ok (n, none)
    | some ((cid, content), _) =>
      match n.pendingRequests.get cid with
      | some channel =>
        .ok ({ n with pendingRequests := n.pendingRequests.remove cid }, some ⟨cid, channel, msg⟩)
      | none =>
        match (n.subscriptions.find? fun s => s.id = id).bind fun s => s.subscriptions.get cid with
        | none => .ok (n, none)
        | some channel => n.send cid channel content taken

end Node

section Searching

variable [DecidableEq Topic] [DecidableEq Peer] {writeBytes : S → Bytes → Option S}
  {closest : Topic → List Peer} {n : Node Topic Peer S}

omit [DecidableEq Peer] in
/-- A request that finds no stream is up to the search. -/
theorem handleRequest_finishes {search : Node Topic Peer S → RequestInit Topic →
      Except Fault (Node Topic Peer S × Written)} {id : CallId} {topic : Option Topic}
    {payload : Bytes} {channel : Channel}
    (hsearch : (n.subscriptions.find? fun s => topic.elim true fun t => decide (t ∈ s.topics)) =
      none → search n (.request id topic payload channel) ≠ .error .unfinished) :
    n.handleRequest writeBytes search id topic payload channel ≠ .error .unfinished := by
  unfold Node.handleRequest
  dsimp only
  split
  · next hnone => exact hsearch hnone
  split_ifs
  · simp
  · split <;> simp

omit [DecidableEq Peer] in
theorem handleSubscriptionRequest_finishes {search : Node Topic Peer S → RequestInit Topic →
      Except Fault (Node Topic Peer S × Written)} {id : CallId} {topic : Topic}
    {payload : Bytes} {channel : Channel}
    (hsearch : (n.subscriptions.find? fun s => decide (topic ∈ s.topics)) = none →
      search n (.subscription id topic payload channel) ≠ .error .unfinished) :
    n.handleSubscriptionRequest writeBytes search id topic payload channel ≠
      .error .unfinished := by
  unfold Node.handleSubscriptionRequest
  dsimp only
  split
  · next hnone => exact hsearch hnone
  split_ifs
  · simp
  · split <;> simp

/-- With a stream for its topic a command is written, or fails for another reason. -/
theorem handleCommand_of_topic {command : RequestInit Topic} {key : Topic}
    (htopic : command.topic = .ok key) (hs : ∃ s ∈ n.subscriptions, key ∈ s.topics) (k : ℕ) :
    n.handleCommand writeBytes closest (k + 1) command ≠ .error .unfinished := by
  have hsome : n.subscriptions.find? (fun s => decide (key ∈ s.topics)) ≠ none := by
    obtain ⟨s, hmem, hkey⟩ := hs
    intro hnone
    exact absurd (decide_eq_true hkey) (List.find?_eq_none.mp hnone s hmem)
  cases command with
  | request id topic payload channel =>
    cases topic with
    | none => cases htopic
    | some topic =>
      cases htopic
      exact handleRequest_finishes fun hnone => absurd hnone hsome
  | subscription id topic payload channel =>
    cases htopic
    exact handleSubscriptionRequest_finishes fun hnone => absurd hnone hsome
  | closeSubscription id => cases htopic

theorem handleTopicSearch_finishes (command : RequestInit Topic) (k : ℕ) :
    n.handleTopicSearch closest (Node.handleCommand writeBytes closest (k + 1)) command ≠
      .error .unfinished := by
  unfold Node.handleTopicSearch
  split
  · next why htopic =>
    cases command with
    | request id topic payload channel =>
      cases topic with
      | none =>
        cases htopic
        simp
      | some topic => cases htopic
    | subscription id topic payload channel => cases htopic
    | closeSubscription id =>
      cases htopic
      simp
  next searchKey htopic =>
  dsimp only
  split
  · simp
  split
  · next sub hfind =>
    apply handleCommand_of_topic htopic
    exact ⟨_, updated_mem hfind _, List.mem_append_right _ (List.mem_singleton_self _)⟩
  split_ifs <;> simp

/-- A command does not search twice. -/
theorem handleCommand_finishes (command : RequestInit Topic) :
    n.handleCommand writeBytes closest 2 command ≠ .error .unfinished := by
  cases command with
  | request id topic payload channel =>
    exact handleRequest_finishes fun _ => handleTopicSearch_finishes _ 0
  | subscription id topic payload channel =>
    exact handleSubscriptionRequest_finishes fun _ => handleTopicSearch_finishes _ 0
  | closeSubscription id =>
    unfold Node.handleCommand
    simp

end Searching

/-- The ids of the commands that wait for a stream. -/
def queued (m : LinearMap PathId (List (RequestInit Topic))) : List CallId :=
  m.flatMap fun e => e.2.flatMap (·.calls)

theorem count_queued_updateFirst (command : RequestInit Topic)
    {q : PathId × List (RequestInit Topic) → Bool} {m : LinearMap PathId (List (RequestInit Topic))}
    {e : PathId × List (RequestInit Topic)} (hfind : m.find? q = some e) (c : CallId) :
    (queued (updateFirst q (fun e => (e.1, e.2 ++ [command])) m)).count c =
      (queued m).count c + command.calls.count c := by
  induction m with
  | nil => cases hfind
  | cons d m ih =>
    unfold queued at ih ⊢
    unfold updateFirst
    by_cases hd : q d = true
    · rw [if_pos hd, List.flatMap_cons, List.flatMap_cons, List.count_append, List.count_append,
        List.flatMap_append, List.count_append, List.flatMap_singleton]
      omega
    · rw [List.find?_cons_of_neg hd] at hfind
      rw [if_neg hd, List.flatMap_cons, List.flatMap_cons, List.count_append, List.count_append,
        ih hfind]
      omega

/-- Call ids are given out once. What is pending or subscribed to has been asked, and on one
stream only. `extra` are the ids of commands that are not handled yet. -/
structure Inv (n : Node Topic Peer S) (asked : Written) (issued extra : List CallId) : Prop where
  ids : (n.subscriptions.map (·.id)).Nodup
  opened : ∀ p ∈ n.subscriptions.map (·.id), p < n.nextPath
  searches : n.pendingTopicSearch.keys.Nodup
  searching : ∀ p ∈ n.pendingTopicSearch.keys,
    p < n.nextPath ∧ p ∉ n.subscriptions.map (·.id)
  requests : n.pendingRequests.keys.Nodup
  requested : ∀ c ∈ n.pendingRequests.keys, ∃ p, (p, c) ∈ asked
  subscribed : ∀ s ∈ n.subscriptions, ∀ c ∈ s.subscriptions.keys, (s.id, c) ∈ asked
  once : ∀ c, (asked.map Prod.snd).count c + (queued n.pendingTopicSearch).count c +
    extra.count c ≤ 1
  known : ∀ c, c ∈ asked.map Prod.snd ∨ c ∈ queued n.pendingTopicSearch ∨ c ∈ extra → c ∈ issued

namespace Inv

variable {n n' : Node Topic Peer S} {asked written : Written} {issued extra : List CallId}
  {id : CallId}

/-- A call was asked on one stream only. -/
theorem path_eq (h : Inv n asked issued extra) {p p' : PathId} (hp : (p, id) ∈ asked)
    (hp' : (p', id) ∈ asked) : p = p' := by
  have hnodup : (asked.map Prod.snd).Nodup := by
    rw [List.nodup_iff_count_le_one]
    intro c
    have honce := h.once c
    omega
  have heq := List.inj_on_of_nodup_map hnodup hp hp' rfl
  exact congrArg Prod.fst heq

/-- Other streams, with the same paths. -/
theorem withSubscriptions (h : Inv n asked issued extra) {subs : List (Subscription Topic Peer S)}
    (hids : (subs.map (·.id)).Perm (n.subscriptions.map (·.id)))
    (hsubscribed : ∀ s ∈ subs, ∀ c ∈ s.subscriptions.keys, (s.id, c) ∈ asked) :
    Inv { n with subscriptions := subs } asked issued extra where
  ids := hids.nodup_iff.mpr h.ids
  opened p hp := h.opened p (hids.mem_iff.mp hp)
  searches := h.searches
  searching p hp := (h.searching p hp).imp_right fun hout hin => hout (hids.mem_iff.mp hin)
  requests := h.requests
  requested := h.requested
  subscribed := hsubscribed
  once := h.once
  known := h.known

/-- One stream is changed, with what has been asked on it. -/
theorem updated (h : Inv n asked issued extra) {q : Subscription Topic Peer S → Bool}
    {f : Subscription Topic Peer S → Subscription Topic Peer S} (hid : ∀ s, (f s).id = s.id)
    (hsubscribed : ∀ s, n.subscriptions.find? q = some s →
      ∀ c ∈ (f s).subscriptions.keys, c ∈ s.subscriptions.keys ∨ (s.id, c) ∈ asked) :
    Inv { n with subscriptions := updateFirst q f n.subscriptions } asked issued extra := by
  refine h.withSubscriptions (.of_eq (map_updateFirst hid q n.subscriptions)) fun s hs c hc => ?_
  rcases mem_updateFirst hs with hs | ⟨t, ht, rfl⟩
  · exact h.subscribed s hs c hc
  · rw [hid]
    rcases hsubscribed t ht c hc with hc | hasked
    · exact h.subscribed t (List.mem_of_find?_eq_some ht) c hc
    · exact hasked

theorem unsubscribed (h : Inv n asked issued extra) (cid : CallId) :
    Inv (n.unsubscribe cid) asked issued extra := by
  refine h.updated (fun _ => rfl) fun s _ c hc => .inl ?_
  exact LinearMap.mem_of_mem_remove hc

/-- A command is written to a stream. -/
theorem wrote (h : Inv n asked issued (id :: extra)) (p : PathId) :
    Inv n (asked ++ [(p, id)]) issued extra where
  ids := h.ids
  opened := h.opened
  searches := h.searches
  searching := h.searching
  requests := h.requests
  requested c hc := (h.requested c hc).imp fun _ => List.mem_append_left _
  subscribed s hs c hc := List.mem_append_left _ (h.subscribed s hs c hc)
  once c := by
    have honce := h.once c
    rw [← List.singleton_append, List.count_append] at honce
    simp only [List.map_append, List.count_append, List.map_cons, List.map_nil]
    omega
  known c hc := by
    apply h.known c
    rw [List.map_append, List.map_singleton, List.mem_append, List.mem_singleton] at hc
    rw [List.mem_cons]
    tauto

theorem pending (h : Inv n asked issued extra) {p : PathId} (hasked : (p, id) ∈ asked)
    (channel : Channel) :
    Inv { n with pendingRequests := n.pendingRequests.insert id channel } asked issued extra where
  ids := h.ids
  opened := h.opened
  searches := h.searches
  searching := h.searching
  requests := LinearMap.nodup_keys_insert h.requests id channel
  requested c hc := by
    rcases LinearMap.mem_keys_insert.mp hc with rfl | hc
    · exact ⟨p, hasked⟩
    · exact h.requested c hc
  subscribed := h.subscribed
  once := h.once
  known := h.known

/-- Fewer commands wait. -/
theorem dropped (h : Inv n asked issued extra) {m : LinearMap PathId (List (RequestInit Topic))}
    {rest : List CallId} (hkeys : m.keys.Nodup)
    (hsearching : ∀ p ∈ m.keys, p ∈ n.pendingTopicSearch.keys)
    (hcount : ∀ c, (queued m).count c + rest.count c ≤
      (queued n.pendingTopicSearch).count c + extra.count c) :
    Inv { n with pendingTopicSearch := m } asked issued rest where
  ids := h.ids
  opened := h.opened
  searches := hkeys
  searching p hp := h.searching p (hsearching p hp)
  requests := h.requests
  requested := h.requested
  subscribed := h.subscribed
  once c := by
    have honce := h.once c
    have hle := hcount c
    change (asked.map Prod.snd).count c + (queued m).count c + rest.count c ≤ 1
    omega
  known c hc := by
    apply h.known c
    rcases hc with hc | hc
    · exact .inl hc
    · right
      have hle := hcount c
      rw [← List.count_pos_iff, ← List.count_pos_iff] at hc ⊢
      change 0 < (queued m).count c ∨ 0 < rest.count c at hc
      omega

/-- A path is opened for a command. -/
theorem searched (h : Inv n asked issued (id :: extra)) {command : RequestInit Topic}
    (hcalls : command.calls = [id]) :
    Inv { n with
      pendingTopicSearch := n.pendingTopicSearch.insert n.nextPath [command]
      nextPath := n.nextPath + 1 } asked issued extra := by
  have hnew : n.nextPath ∉ n.pendingTopicSearch.keys := fun hin =>
    lt_irrefl _ (h.searching _ hin).1
  have hqueued : queued (n.pendingTopicSearch.insert n.nextPath [command]) =
      queued n.pendingTopicSearch ++ [id] := by
    rw [LinearMap.insert_of_not_mem hnew]
    simp [queued, hcalls]
  refine ⟨h.ids, fun p hp => (h.opened p hp).trans (Nat.lt_succ_self _),
    LinearMap.nodup_keys_insert h.searches _ _, fun p hp => ?_, h.requests, h.requested,
    h.subscribed, fun c => ?_, fun c hc => ?_⟩
  · rcases LinearMap.mem_keys_insert.mp hp with rfl | hp
    · exact ⟨Nat.lt_succ_self _, fun hin => lt_irrefl _ (h.opened _ hin)⟩
    · exact ⟨(h.searching p hp).1.trans (Nat.lt_succ_self _), (h.searching p hp).2⟩
  · have honce := h.once c
    rw [← List.singleton_append, List.count_append] at honce
    change (asked.map Prod.snd).count c +
      (queued (n.pendingTopicSearch.insert n.nextPath [command])).count c + extra.count c ≤ 1
    rw [hqueued, List.count_append]
    omega
  · apply h.known c
    change _ ∨ c ∈ queued (n.pendingTopicSearch.insert n.nextPath [command]) ∨ _ at hc
    rw [hqueued, List.mem_append, List.mem_singleton] at hc
    rw [List.mem_cons]
    tauto

/-- The path of a search becomes a stream. -/
theorem joined (h : Inv n asked issued extra) {s : Subscription Topic Peer S}
    (hlt : s.id < n.nextPath) (hnew : s.id ∉ n.subscriptions.map (·.id))
    (hsearch : s.id ∉ n.pendingTopicSearch.keys) (hempty : s.subscriptions = []) :
    Inv { n with subscriptions := n.subscriptions ++ [s] } asked issued extra where
  ids := by
    rw [List.map_append, List.map_singleton]
    refine List.nodup_append.mpr ⟨h.ids, List.nodup_singleton _, ?_⟩
    rintro a ha b hb rfl
    exact hnew (List.mem_singleton.mp hb ▸ ha)
  opened p hp := by
    rw [List.map_append, List.map_singleton, List.mem_append, List.mem_singleton] at hp
    rcases hp with hp | rfl
    · exact h.opened p hp
    · exact hlt
  searches := h.searches
  searching p hp := by
    refine ⟨(h.searching p hp).1, ?_⟩
    rw [List.map_append, List.map_singleton, List.mem_append, List.mem_singleton]
    rintro (hin | rfl)
    · exact (h.searching p hp).2 hin
    · exact hsearch hp
  requests := h.requests
  requested := h.requested
  subscribed t ht c hc := by
    rcases List.mem_append.mp ht with ht | ht
    · exact h.subscribed t ht c hc
    · rw [List.mem_singleton.mp ht, hempty] at hc
      cases hc
  once := h.once
  known := h.known

section Commands

variable [DecidableEq Topic] [DecidableEq Peer] {writeBytes : S → Bytes → Option S}
  {closest : Topic → List Peer}

omit [DecidableEq Topic] [DecidableEq Peer] in
/-- A command that is not handled any more. -/
theorem forgotten (h : Inv n asked issued (id :: extra)) : Inv n asked issued extra := by
  refine h.dropped h.searches (fun _ hp => hp) fun c => ?_
  rw [List.count_cons]
  omega

omit [DecidableEq Topic] [DecidableEq Peer] in
/-- A command joins others with the same topic. -/
theorem waits (h : Inv n asked issued (id :: extra)) {command : RequestInit Topic}
    (hcalls : command.calls = [id]) {q : PathId × List (RequestInit Topic) → Bool}
    {e : PathId × List (RequestInit Topic)} (hfind : n.pendingTopicSearch.find? q = some e) :
    Inv { n with
      pendingTopicSearch := updateFirst q (fun e => (e.1, e.2 ++ [command])) n.pendingTopicSearch }
      asked issued extra := by
  have hkeys : LinearMap.keys (updateFirst q (fun e => (e.1, e.2 ++ [command]))
      n.pendingTopicSearch) = n.pendingTopicSearch.keys := by
    unfold LinearMap.keys
    exact map_updateFirst (f := fun e => (e.1, e.2 ++ [command])) (fun _ => rfl) q _
  refine h.dropped (hkeys ▸ h.searches) (fun p hp => hkeys ▸ hp) fun c => ?_
  have hcons : (id :: extra).count c = [id].count c + extra.count c := by
    rw [← List.singleton_append, List.count_append]
  rw [count_queued_updateFirst command hfind, hcalls, hcons]
  omega

/-- Whatever comes of a search, a command is handled once. -/
theorem topicSearch {handle : Node Topic Peer S → RequestInit Topic →
      Except Fault (Node Topic Peer S × Written)}
    (hhandle : ∀ n, Inv n asked issued (id :: extra) → ∀ {command : RequestInit Topic},
      command.calls = [id] → ∀ {n' written}, handle n command = .ok (n', written) →
      Inv n' (asked ++ written) issued extra)
    (h : Inv n asked issued (id :: extra)) {command : RequestInit Topic}
    (hcalls : command.calls = [id])
    (hsearch : n.handleTopicSearch closest handle command = .ok (n', written)) :
    Inv n' (asked ++ written) issued extra := by
  unfold Node.handleTopicSearch at hsearch
  split at hsearch
  · cases hsearch
  next searchKey _ =>
  dsimp only at hsearch
  split at hsearch
  · next e hfind =>
    cases hsearch
    rw [List.append_nil]
    exact h.waits hcalls hfind
  split at hsearch
  · refine hhandle _ ?_ hcalls hsearch
    exact h.updated (fun _ => rfl) fun s _ c hc => .inl hc
  split_ifs at hsearch
  · cases hsearch
    rw [List.append_nil]
    exact h.forgotten
  · cases hsearch
    rw [List.append_nil]
    exact h.searched hcalls

omit [DecidableEq Peer] in
/-- What a request does with a stream of its topic, and the search without one. -/
theorem handledRequest {search : Node Topic Peer S → RequestInit Topic →
      Except Fault (Node Topic Peer S × Written)} {topic : Option Topic} {payload : Bytes}
    {channel : Channel} (h : Inv n asked issued (id :: extra))
    (hsearch : ∀ {n' written}, search n (.request id topic payload channel) = .ok (n', written) →
      Inv n' (asked ++ written) issued extra)
    (hrequest : n.handleRequest writeBytes search id topic payload channel = .ok (n', written)) :
    Inv n' (asked ++ written) issued extra := by
  unfold Node.handleRequest at hrequest
  dsimp only at hrequest
  split at hrequest
  · exact hsearch hrequest
  next sub hfind =>
  split_ifs at hrequest
  split at hrequest
  · cases hrequest
  cases hrequest
  have hpending := (h.wrote sub.id).pending (p := sub.id)
    (List.mem_append_right _ (List.mem_singleton_self _)) channel
  exact hpending.updated (fun _ => rfl) fun s _ c hc => .inl hc

omit [DecidableEq Peer] in
theorem handledSubscription {search : Node Topic Peer S → RequestInit Topic →
      Except Fault (Node Topic Peer S × Written)} {topic : Topic} {payload : Bytes}
    {channel : Channel} (h : Inv n asked issued (id :: extra))
    (hsearch : ∀ {n' written}, search n (.subscription id topic payload channel) =
      .ok (n', written) → Inv n' (asked ++ written) issued extra)
    (hrequest : n.handleSubscriptionRequest writeBytes search id topic payload channel =
      .ok (n', written)) : Inv n' (asked ++ written) issued extra := by
  unfold Node.handleSubscriptionRequest at hrequest
  dsimp only at hrequest
  split at hrequest
  · exact hsearch hrequest
  next sub hfind =>
  split_ifs at hrequest
  split at hrequest
  · cases hrequest
  cases hrequest
  refine Inv.updated (h.wrote sub.id) (fun _ => rfl) fun s hs c hc => ?_
  rw [hfind] at hs
  cases hs
  rcases LinearMap.mem_keys_insert.mp hc with rfl | hc
  · exact .inr (List.mem_append_right _ (List.mem_singleton_self _))
  · exact .inl hc

theorem handled {k : ℕ} {command : RequestInit Topic}
    (h : Inv n asked issued (command.calls ++ extra))
    (hcommand : n.handleCommand writeBytes closest k command = .ok (n', written)) :
    Inv n' (asked ++ written) issued extra := by
  induction k generalizing n command n' written with
  | zero => cases hcommand
  | succ k ih =>
    have hhandle : ∀ id n, Inv n asked issued (id :: extra) → ∀ {command : RequestInit Topic},
        command.calls = [id] → ∀ {n' written},
        n.handleCommand writeBytes closest k command = .ok (n', written) →
        Inv n' (asked ++ written) issued extra := by
      intro id n hn command hcalls n' written hcommand
      refine ih ?_ hcommand
      rw [hcalls]
      exact hn
    cases command with
    | request id topic payload channel =>
      exact handledRequest h (topicSearch (hhandle id) h rfl) hcommand
    | subscription id topic payload channel =>
      exact handledSubscription h (topicSearch (hhandle id) h rfl) hcommand
    | closeSubscription id =>
      cases hcommand
      rw [List.append_nil]
      exact h.unsubscribed id

end Commands

end Inv

end OrionNetwork.ClientNode
