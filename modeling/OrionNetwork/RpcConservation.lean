import OrionNetwork.RpcBehaviour

/-!
# Where the calls are

A call that was accepted waits for a stream, is ongoing, or has its answer
queued or handed out. The steps move calls between these places and most of
them neither make nor lose one. Four do: a request to a peer whose stream is
being resolved is accepted and forgotten, a request that its stream refuses is
registered all the same, a response from another peer takes the call away, and
the failure of a stream reports foreign calls as if they were made here.
-/
namespace OrionNetwork.Rpc
open Codec OrionNetwork.Stream Collections Runs
open Streaming (IoError Error Poll ToSwarm ConnectionId)

variable {Peer : Type*}

/-- The call that an event answers. -/
def Event.answered : Event Peer → Option CallId
  | .response _ call _ => some call
  | .request _ _ _ => none

/-- How often a call is answered by a list of events. -/
def answers (events : List (Event Peer)) (call : CallId) : ℕ :=
  (events.filterMap Event.answered).count call

@[simp] theorem answers_nil (call : CallId) : answers ([] : List (Event Peer)) call = 0 := rfl

@[simp] theorem answers_append (events events' : List (Event Peer)) (call : CallId) :
    answers (events ++ events') call = answers events call + answers events' call := by
  simp [answers]

theorem answers_responses {ι : Type*} (l : List ι) (peer : ι → Peer) (id : ι → CallId)
    (result : ι → Except Error Bytes) (call : CallId) :
    answers (l.map fun r => .response (peer r) (id r) (result r)) call =
      (l.map id).count call := by
  induction l with
  | nil => rfl
  | cons r l ih =>
    unfold answers at ih ⊢
    simp only [List.map_cons, List.filterMap_cons, Event.answered, List.count_cons, ih]

/-- A vector that is split keeps its calls. -/
theorem count_extractIf {ι : Type*} (q : ι → Bool) (id : ι → CallId) (l : List ι)
    (call : CallId) :
    ((extractIf q l).1.map id).count call + ((extractIf q l).2.map id).count call =
      (l.map id).count call := by
  rw [← List.count_append, ← List.map_append]
  exact ((extractIf_perm q l).map id).count_eq call

/-- How often a call is waiting, ongoing or queued. -/
def Behaviour.held (b : Behaviour Peer) (call : CallId) : ℕ :=
  (b.pendingRequests.map fun r => r.2.1).count call +
    (b.ongoingRequests.map fun r => r.1).count call + answers b.events call

/-- The behaviour and what its user has seen of it: the calls for which
`request` returned and the events that were handed out. -/
structure World (Peer : Type*) where
  behaviour : Behaviour Peer := {}
  accepted : List CallId := []
  refused : List CallId := []
  emitted : List (Event Peer) := []

/-- What can happen to a behaviour. A call of `poll` is a sequence of its
rounds. -/
inductive Act (Peer : Type*) where
  | request (peer : Peer) (packet : Bytes) (call : CallId)
  | respond (peer : Peer) (call : CallId) (payload : Bytes)
  | swarmEvent (event : Streaming.FromSwarm Peer)
  | handlerEvent (peer : Peer) (event : Except (Except Error Unit) Unit)
  | pollStream (i : ℕ) (c : Connection)
  | pollStreaming (connection : ConnectionId)

namespace World

variable [DecidableEq Peer]

def act (w : World Peer) : Act Peer → Except Fault (World Peer)
  | .request peer packet call =>
    match w.behaviour.request peer packet call with
    | .error fault => .error fault
    | .ok (b, .ok _) => .ok { w with behaviour := b, accepted := w.accepted ++ [call] }
    | .ok (b, .error _) => .ok { w with behaviour := b, refused := w.refused ++ [call] }
  | .respond peer call payload =>
    match w.behaviour.respond peer call payload with
    | .error fault => .error fault
    | .ok b => .ok { w with behaviour := b }
  | .swarmEvent event => .ok { w with behaviour := w.behaviour.onSwarmEvent event }
  | .handlerEvent peer event =>
    .ok { w with behaviour := w.behaviour.onConnectionHandlerEvent peer event }
  | .pollStream i c =>
    match w.behaviour.pollStream i c with
    | .error fault => .error fault
    | .ok (b, event) => .ok { w with behaviour := b, emitted := w.emitted ++ event.toList }
  | .pollStreaming connection =>
    match w.behaviour.pollStreaming connection with
    | .error fault => .error fault
    | .ok (b, _) => .ok { w with behaviour := b }

/-- A call id that `CallId::new` has returned before is not returned again. -/
def Fresh (w : World Peer) : Act Peer → Prop
  | .request _ _ call => call ∉ w.accepted ∧ call ∉ w.refused
  | _ => True

def Step (w : World Peer) (a : Act Peer) (w' : World Peer) : Prop :=
  w.Fresh a ∧ w.act a = .ok w'

/-- How often a call is waiting, ongoing, queued or answered. -/
def places (w : World Peer) (call : CallId) : ℕ :=
  w.behaviour.held call + answers w.emitted call

/-- An accepted call is in one place, once, and a refused one is in none. -/
structure Conserved (w : World Peer) : Prop where
  accepted : ∀ call ∈ w.accepted, w.places call = 1
  refused : ∀ call ∈ w.refused, w.places call = 0

/-- When a step keeps track of the calls. A request needs a stream of its peer
with room for the packet and its length, or no stream and no attempt to open
one, and an id that no event has reported yet. A response must come from the
peer that was asked. The responses that waited for a stream that fails must not
carry the ids of calls made here. -/
def Tracks (w : World Peer) : Act Peer → Prop
  | .request peer packet call =>
    w.places call = 0 ∧
    match w.behaviour.streamOf peer with
    | some s => 2 + (encodePacket call true packet).flatten.length ≤ s.writer.room
    | none => w.behaviour.streaming.isResolvingStreamFor peer = false
  | .pollStream i c =>
    ∀ s s' pid cid content, w.behaviour.streams[i]? = some s →
      s.pollNext c = .ok (s', .ready (some (pid, .ok (cid, content, false)))) →
      ∀ peer, (cid, peer) ∈ w.behaviour.ongoingRequests → peer = pid
  | .pollStreaming connection =>
    ∀ streaming peer error, w.behaviour.streaming.poll connection =
        (streaming, .ready (.generateEvent (.outgoingStream peer (.error error)))) →
      ∀ r ∈ w.behaviour.pendingRepsonses, r.1 = peer →
        r.2.1 ∉ w.accepted ∧ r.2.1 ∉ w.refused
  | _ => True

end World

namespace Behaviour

variable [DecidableEq Peer] {b b' : Behaviour Peer}

@[simp] theorem held_putStream (b : Behaviour Peer) (s : Stream Peer) (call : CallId) :
    (b.putStream s).held call = b.held call := rfl

theorem held_respond {peer : Peer} {id : CallId} {payload : Bytes}
    (h : b.respond peer id payload = .ok b') (call : CallId) : b'.held call = b.held call := by
  obtain ⟨s, s', result, -, -, rfl⟩ | ⟨-, -, rfl⟩ | ⟨-, -, rfl⟩ := respond_cases h
  · rfl
  · rfl
  · rfl

theorem held_cleanFailedRequests (b : Behaviour Peer) (failed : Peer) (error : Error)
    (call : CallId) : (b.cleanFailedRequests failed error).held call = b.held call := by
  have hongoing := count_extractIf (fun r => r.2 = failed) (fun r => r.1) b.ongoingRequests call
  have hpending := count_extractIf (fun r => r.1 = failed) (fun r => r.2.1) b.pendingRequests call
  unfold held cleanFailedRequests
  simp only [List.map_append, List.map_map, answers_append]
  have hfailed := answers_responses (extractIf (fun r => r.2 = failed) b.ongoingRequests).1
    (fun r => r.2) (fun r => r.1) (fun _ => .error error) call
  have hwaited := answers_responses (extractIf (fun r => r.1 = failed) b.pendingRequests).1
    (fun r => r.1) (fun r => r.2.1) (fun _ => .error error) call
  simp only [Function.comp_def]
  omega

/-- A response from the peer that was asked takes the call from the ongoing ones
to the event. -/
theorem held_onItem (b : Behaviour Peer) (pid : Peer)
    (res : Except IoError (CallId × Bytes × Bool)) (call : CallId)
    (hpeer : ∀ cid content, res = .ok (cid, content, false) →
      ∀ peer, (cid, peer) ∈ b.ongoingRequests → peer = pid) :
    (b.onItem pid res).1.held call + answers (b.onItem pid res).2.toList call = b.held call := by
  unfold onItem
  split
  · next cid content =>
    split
    · simp
    · next id peer rest hfound =>
      obtain ⟨hid, hperm⟩ := findAndRemove_some hfound
      have hasked : peer = pid := by
        apply hpeer cid content rfl
        rw [hperm.mem_iff]
        simp only [decide_eq_true_eq] at hid
        simp [hid]
      have hcount := (hperm.map fun r => r.1).count_eq call
      simp only [decide_eq_true_eq] at hid
      rw [if_neg (by simp [hasked])]
      simp only [held, answers, List.map_cons, List.count_cons, Option.toList_some,
        List.filterMap_cons, List.filterMap_nil, Event.answered, List.count_nil] at hcount ⊢
      rw [hid] at hcount
      omega
  · rfl
  · simpa using b.held_cleanFailedRequests pid _ call

theorem held_pollStream {i : ℕ} {c : Connection} {event : Option (Event Peer)}
    (h : b.pollStream i c = .ok (b', event)) (call : CallId)
    (hpeer : ∀ s s' pid cid content, b.streams[i]? = some s →
      s.pollNext c = .ok (s', .ready (some (pid, .ok (cid, content, false)))) →
      ∀ peer, (cid, peer) ∈ b.ongoingRequests → peer = pid) :
    b'.held call + answers event.toList call = b.held call := by
  obtain ⟨streams, rfl, rfl⟩ | ⟨s, s', pid, res, hs, hnext, hitem⟩ := pollStream_cases h
  · rfl
  · have hheld := held_onItem { b with streams := s' :: b.streams.eraseIdx i } pid res call (by
      intro cid content hres
      rw [hres] at hnext
      exact hpeer s s' pid cid content hs hnext)
    rw [hitem] at hheld
    exact hheld

omit [DecidableEq Peer] in
/-- A request that waited is ongoing afterwards, or its answer is queued. -/
theorem held_flushRequest {out out' : Stream Peer × Behaviour Peer} {r : Peer × CallId × Bytes}
    (h : flushRequest out r = .ok out') (call : CallId) :
    out'.2.held call = out.2.held call + [r.2.1].count call := by
  obtain ⟨s, e, -, rfl⟩ | ⟨s, -, rfl⟩ := flushRequest_cases h
  · simp only [held, answers, List.filterMap_append, List.count_append, List.filterMap_cons,
      Event.answered, List.filterMap_nil]
    omega
  · simp only [held, List.map_append, List.count_append, List.map_cons, List.map_nil]
    omega

theorem held_streamOpened {p : Peer} (h : b.streamOpened p = .ok b') (call : CallId) :
    b'.held call = b.held call := by
  obtain ⟨s, b₁, s', hrequests, -, rfl⟩ := streamOpened_cases h
  -- the calls of the requests still to be written make up for what is missing
  have hloop := loop_invariant
    (P := fun l out => out.2.held call + (l.map fun r => r.2.1).count call = b.held call)
    hrequests
    (by
      have hsplit := count_extractIf (fun r => r.1 = p) (fun r => r.2.1) b.pendingRequests call
      simp only [held]
      omega)
    (by
      intro r l out out' hsum hr
      rw [held_flushRequest hr call]
      rw [List.map_cons, ← List.singleton_append, List.count_append] at hsum
      omega)
  exact hloop

theorem held_streamFailed (b : Behaviour Peer) (p : Peer) (error : Error) (call : CallId) :
    (b.streamFailed p error).held call = b.held call +
      ((b.pendingRepsonses.filter fun r => r.1 = p).map fun r => r.2.1).count call := by
  have hqueued := answers_responses (b.pendingRepsonses.filter fun r => r.1 = p)
    (fun r => r.1) (fun r => r.2.1) (fun _ => .error error) call
  simp only [held, streamFailed, extractIf, answers_append]
  omega

theorem held_pollStreaming {connection : ConnectionId}
    {out : Option (Poll (ToSwarm Peer (Event Peer)))} (h : b.pollStreaming connection = .ok (b', out))
    (call : CallId)
    (hforeign : ∀ streaming peer error, b.streaming.poll connection =
        (streaming, .ready (.generateEvent (.outgoingStream peer (.error error)))) →
      ∀ r ∈ b.pendingRepsonses, r.1 = peer → r.2.1 ≠ call) :
    b'.held call = b.held call := by
  obtain ⟨streaming, result, rfl, -⟩ | ⟨streaming, event, hpoll, -, hevent⟩ :=
    pollStreaming_cases h
  · rfl
  obtain ⟨p, hopened⟩ | ⟨peer, error, rfl, rfl⟩ := hevent
  · exact held_streamOpened hopened call
  · rw [held_streamFailed]
    have hnone : ((b.pendingRepsonses.filter fun r => r.1 = peer).map fun r => r.2.1).count call
        = 0 := by
      rw [List.count_eq_zero]
      intro hmem
      obtain ⟨r, hr, hid⟩ := List.mem_map.mp hmem
      obtain ⟨hr, hp⟩ := List.mem_filter.mp hr
      exact hforeign streaming peer error hpoll r hr (by simpa using hp) hid
    exact hnone ▸ rfl

/-- A request that is registered in one place and accepted. -/
theorem held_request {peer : Peer} {packet : Bytes} {id : CallId} {out : Except IoError CallId}
    (h : b.request peer packet id = .ok (b', out))
    (htracks : match b.streamOf peer with
      | some s => 2 + (encodePacket id true packet).flatten.length ≤ s.writer.room
      | none => b.streaming.isResolvingStreamFor peer = false) :
    out = .ok id ∧ ∀ call, b'.held call = b.held call + [id].count call := by
  obtain ⟨s, s', result, hs, hwrite, rfl, rfl⟩ | ⟨hs, hresolving, rfl, rfl⟩ |
    ⟨hs, hresolving, -, -⟩ := request_cases h
  · rw [hs] at htracks
    -- a stream with room does not refuse
    unfold Stream.write at hwrite
    split at hwrite
    · cases hwrite
    · next hpacket => cases PacketWriter.writePacket_of_room hpacket htracks
    cases hwrite
    refine ⟨rfl, fun call => ?_⟩
    simp only [held_putStream]
    simp only [held, List.map_append, List.count_append, List.map_cons, List.map_nil]
    omega
  · refine ⟨rfl, fun call => ?_⟩
    simp only [held, List.map_append, List.count_append, List.map_cons, List.map_nil]
    omega
  · rw [hs] at htracks
    cases htracks.symm.trans hresolving

theorem streaming_streamOpened {p : Peer} (h : b.streamOpened p = .ok b') :
    b'.streaming = b.streaming := by
  obtain ⟨s, b₁, s', hrequests, -, rfl⟩ := streamOpened_cases h
  apply loop_invariant (P := fun _ out => out.2.streaming = b.streaming) hrequests rfl
  intro r _ out out' hsame hr
  obtain ⟨s, e, -, rfl⟩ | ⟨s, -, rfl⟩ := flushRequest_cases hr
  · exact hsame
  · exact hsame

/-- A round that is followed by another one has taken an event. -/
theorem length_events_of_pollStreaming {connection : ConnectionId}
    (h : b.pollStreaming connection = .ok (b', none)) :
    b'.streaming.events.length + 1 = b.streaming.events.length := by
  obtain ⟨-, result, -, hout⟩ | ⟨streaming, event, hpoll, -, hevent⟩ := pollStreaming_cases h
  · cases hout
  rw [← Streaming.Behaviour.length_events_of_poll hpoll]
  obtain ⟨p, hopened⟩ | ⟨peer, error, -, rfl⟩ := hevent
  · rw [streaming_streamOpened hopened]
  · rfl

/-- The budget of the loop over streaming events is never used up. -/
theorem pollEvents_budget {fuel : ℕ} {connection : ConnectionId}
    (h : b.streaming.events.length < fuel) :
    pollEvents (fuel + 1) b connection = pollEvents fuel b connection := by
  induction fuel generalizing b with
  | zero => omega
  | succ fuel ih =>
    rw [pollEvents, pollEvents]
    split
    · rfl
    · rfl
    · next b₁ hround =>
      apply ih
      have htaken := length_events_of_pollStreaming hround
      omega

end Behaviour

namespace World

variable [DecidableEq Peer] {w w' : World Peer} {a : Act Peer}

/-- Every step but a request keeps the calls that were made where they can be
found. -/
theorem places_step (hact : w.act a = .ok w') (htracks : w.Tracks a)
    (ha : ∀ peer packet call, a ≠ .request peer packet call) :
    w'.accepted = w.accepted ∧ w'.refused = w.refused ∧
      ∀ call, call ∈ w.accepted ∨ call ∈ w.refused → w'.places call = w.places call := by
  unfold act at hact
  split at hact
  · exact absurd rfl (ha _ _ _)
  · split at hact
    · cases hact
    · next hrespond =>
      cases hact
      refine ⟨rfl, rfl, fun call _ => ?_⟩
      simp only [places, Behaviour.held_respond hrespond call]
  · cases hact
    exact ⟨rfl, rfl, fun _ _ => rfl⟩
  · cases hact
    exact ⟨rfl, rfl, fun _ _ => rfl⟩
  · split at hact
    · cases hact
    · next hround =>
      cases hact
      refine ⟨rfl, rfl, fun call _ => ?_⟩
      have hheld := Behaviour.held_pollStream hround call htracks
      simp only [places, answers_append]
      omega
  · split at hact
    · cases hact
    · next hround =>
      cases hact
      refine ⟨rfl, rfl, fun call hcall => ?_⟩
      have hheld := Behaviour.held_pollStreaming hround call (by
        intro streaming peer error hpoll r hr hp hid
        obtain ⟨haccepted, hrefused⟩ := htracks streaming peer error hpoll r hr hp
        rw [hid] at haccepted hrefused
        exact hcall.elim haccepted hrefused)
      simp only [places, hheld]

/-- The events that a call of `poll` hands out. -/
def handedOut : Poll (ToSwarm Peer (Event Peer)) → List (Event Peer)
  | .ready (.generateEvent event) => [event]
  | _ => []

theorem run_pollStreams {woken : List (ℕ × Connection)} {b : Behaviour Peer}
    {event : Option (Event Peer)} (h : w.behaviour.pollStreams woken = .ok (b, event)) :
    ∃ k, Run Step w ((woken.take k).map fun r => .pollStream r.1 r.2)
      { w with behaviour := b, emitted := w.emitted ++ event.toList } := by
  induction woken generalizing w with
  | nil =>
    unfold Behaviour.pollStreams at h
    cases h
    refine ⟨0, ?_⟩
    simp only [Option.toList_none, List.append_nil, List.take_nil, List.map_nil]
    exact .start
  | cons r woken ih =>
    unfold Behaviour.pollStreams at h
    split at h
    · cases h
    · next b₁ e hround =>
      cases h
      refine ⟨1, ?_⟩
      apply Run.single
      refine ⟨trivial, ?_⟩
      simp only [act, hround]
    · next b₁ hround =>
      have hfirst : w.Step (.pollStream r.1 r.2) { w with behaviour := b₁ } := by
        refine ⟨trivial, ?_⟩
        simp only [act, hround, Option.toList_none, List.append_nil]
      obtain ⟨k, hrest⟩ := ih (w := { w with behaviour := b₁ }) h
      exact ⟨k + 1, (Run.single hfirst).append hrest⟩

theorem run_pollEvents {fuel : ℕ} {connection : ConnectionId} {b : Behaviour Peer}
    {out : Poll (ToSwarm Peer (Event Peer))}
    (h : Behaviour.pollEvents fuel w.behaviour connection = .ok (b, out)) :
    handedOut out = [] ∧
      ∃ n, Run Step w (List.replicate n (.pollStreaming connection)) { w with behaviour := b } := by
  induction fuel generalizing w with
  | zero =>
    unfold Behaviour.pollEvents at h
    cases h
    exact ⟨rfl, 0, .start⟩
  | succ fuel ih =>
    unfold Behaviour.pollEvents at h
    have hstep : ∀ {b₁ out₁}, w.behaviour.pollStreaming connection = .ok (b₁, out₁) →
        w.Step (.pollStreaming connection) { w with behaviour := b₁ } := by
      intro b₁ out₁ hround
      refine ⟨trivial, ?_⟩
      simp only [act, hround]
    split at h
    · cases h
    · next b₁ out₁ hround =>
      cases h
      refine ⟨?_, 1, Run.single (hstep hround)⟩
      -- only streaming events are generated in this loop, and none is handed out
      unfold Behaviour.pollStreaming at hround
      split at hround
      · cases hround
        rfl
      · cases hround
        rfl
      · cases hround
        rfl
      · split at hround
        · cases hround
        · cases hround
    · next b₁ hround =>
      obtain ⟨hnone, n, hrest⟩ := ih (w := { w with behaviour := b₁ }) h
      refine ⟨hnone, n + 1, ?_⟩
      rw [List.replicate_succ]
      exact (Run.single (hstep hround)).append hrest

/-- A call of `poll` is a run of its rounds. -/
theorem run_poll {woken : List (ℕ × Connection)} {connection : ConnectionId} {b : Behaviour Peer}
    {out : Poll (ToSwarm Peer (Event Peer))} (h : w.behaviour.poll woken connection = .ok (b, out)) :
    ∃ k n, Run Step w ((woken.take k).map (fun r => .pollStream r.1 r.2) ++
        List.replicate n (.pollStreaming connection))
      { w with behaviour := b, emitted := w.emitted ++ handedOut out } := by
  unfold Behaviour.poll at h
  split at h
  · cases h
  · next b₁ event hstreams =>
    cases h
    obtain ⟨k, hrun⟩ := run_pollStreams hstreams
    refine ⟨k, 0, ?_⟩
    rw [List.replicate_zero, List.append_nil]
    exact hrun
  · next b₁ hstreams =>
    obtain ⟨k, hrun⟩ := run_pollStreams hstreams
    rw [Option.toList_none, List.append_nil] at hrun
    obtain ⟨hnone, n, hrest⟩ := run_pollEvents (w := { w with behaviour := b₁ }) h
    refine ⟨k, n, ?_⟩
    rw [hnone, List.append_nil]
    exact hrun.append hrest

theorem conserved_step (hw : w.Conserved) (htracks : w.Tracks a) (hstep : w.Step a w') :
    w'.Conserved := by
  obtain ⟨hfresh, hact⟩ := hstep
  by_cases ha : ∃ peer packet call, a = .request peer packet call
  · obtain ⟨peer, packet, id, rfl⟩ := ha
    obtain ⟨hplaces, hregister⟩ := htracks
    unfold act at hact
    simp only at hact
    split at hact
    · cases hact
    · next b _ hrequest =>
      cases hact
      obtain ⟨-, hheld⟩ := Behaviour.held_request hrequest hregister
      have hmoved : ∀ call, places { w with behaviour := b, accepted := w.accepted ++ [id] } call =
          w.places call + [id].count call := by
        intro call
        simp only [places, hheld]
        omega
      constructor
      · intro call hcall
        rw [hmoved]
        rcases List.mem_append.mp hcall with hold | hnew
        · have hne : id ≠ call := fun heq => hfresh.1 (heq ▸ hold)
          simp [hw.accepted call hold, hne]
        · obtain rfl := List.mem_singleton.mp hnew
          simp [hplaces]
      · intro call hcall
        have hne : id ≠ call := fun heq => hfresh.2 (heq ▸ hcall)
        rw [hmoved, hw.refused call hcall]
        simp [hne]
    · next hrequest =>
      obtain ⟨hok, -⟩ := Behaviour.held_request hrequest hregister
      cases hok
  · push Not at ha
    obtain ⟨haccepted, hrefused, hplaces⟩ := places_step hact htracks ha
    constructor
    · intro call hcall
      rw [haccepted] at hcall
      rw [hplaces call (.inl hcall)]
      exact hw.accepted call hcall
    · intro call hcall
      rw [hrefused] at hcall
      rw [hplaces call (.inr hcall)]
      exact hw.refused call hcall

end World

/-- In every run whose steps keep track of the calls, an accepted call is at
each moment waiting, ongoing, queued or answered, in one of these places and
once, and a refused call is in none of them. -/
theorem calls_conserved {acts : List (Act Peer)} [DecidableEq Peer] {w : World Peer}
    (h : Run (guarded World.Tracks World.Step) {} acts w) : w.Conserved := by
  apply h.stateInvariant
  · constructor
    · intro call hcall
      cases hcall
    · intro call hcall
      cases hcall
  · intro t a u ht hstep
    exact World.conserved_step ht hstep.1 hstep.2

/-- A behaviour with an open stream of the peer 7. -/
def demoOpened : World ℕ := { behaviour := { streams := [Stream.new 7 (1 <<< 14)] } }

/-- The stream after a request of one byte was written to it. -/
def demoStream : Stream ℕ :=
  ⟨(PacketWriter.writeFramed (OrionNetwork.Stream.new (1 <<< 14)) (.extending 0 true)
    (encodePacket 0 true [1])).1, true, 7⟩

def demoAsked : World ℕ :=
  { behaviour := { streams := [demoStream], ongoingRequests := [(0, 7)] }, accepted := [0] }

theorem run_demoOpened : Run (guarded World.Tracks World.Step) ({} : World ℕ)
    [.handlerEvent 7 (.ok ()), .pollStreaming 3] demoOpened := by
  have hincoming : guarded World.Tracks World.Step ({} : World ℕ) (.handlerEvent 7 (.ok ()))
      { behaviour := { streaming := { events := [.incomingStream 7] } } } :=
    ⟨trivial, trivial, rfl⟩
  refine .next _ (.single hincoming) ⟨?_, trivial, rfl⟩
  intro _ _ _ _ r hr
  cases hr

theorem run_demoAsked : Run (guarded World.Tracks World.Step) ({} : World ℕ)
    [.handlerEvent 7 (.ok ()), .pollStreaming 3, .request 7 [1] 0] demoAsked := by
  refine .next _ run_demoOpened ⟨⟨rfl, ?_⟩, ⟨List.not_mem_nil, List.not_mem_nil⟩, rfl⟩
  change 2 + (encodePacket 0 true [1]).flatten.length ≤
    (OrionNetwork.Stream.new (1 <<< 14)).room
  decide

/-- The peer answers. -/
theorem calls_conserved_answered :
    ∃ (acts : List (Act ℕ)) (w : World ℕ), Run (guarded World.Tracks World.Step) {} acts w ∧
      w.accepted = [0] ∧ answers w.emitted 0 = 1 ∧ w.Conserved := by
  have htracks : demoAsked.Tracks (.pollStream 0 ⟨[15], none, .packet [0, 0, 9]⟩) := by
    intro s s' pid cid content hs hnext peer hpeer
    cases hs
    cases hnext
    simpa [demoAsked, demoStream] using hpeer
  have hanswered := run_demoAsked.next _ ⟨htracks, trivial, rfl⟩
  exact ⟨_, _, hanswered, rfl, rfl, calls_conserved hanswered⟩

/-- A request that waits for its peer to be dialed. -/
def demoResolving : World ℕ :=
  { behaviour := {
      pendingRequests := [(7, 0, [1])]
      streaming := { dialRequests := [⟨7, none, 0⟩] } }
    accepted := [0] }

/-- A second request while the stream of its peer is being resolved is accepted
and is nowhere afterwards. -/
theorem call_forgotten_while_resolving :
    ∃ (acts : List (Act ℕ)) (w : World ℕ), Run World.Step {} acts w ∧
      1 ∈ w.accepted ∧ w.places 1 = 0 ∧ ¬ w.Conserved := by
  have hfirst : World.Step {} (.request 7 [1] 0) demoResolving :=
    ⟨⟨List.not_mem_nil, List.not_mem_nil⟩, rfl⟩
  have hsecond : demoResolving.Step (.request 7 [2] 1) { demoResolving with accepted := [0, 1] } :=
    ⟨⟨by decide, List.not_mem_nil⟩, rfl⟩
  refine ⟨_, _, (Run.single hfirst).next _ hsecond, by decide, rfl, ?_⟩
  intro hw
  have hone := hw.accepted 1 (by decide)
  cases hone

end OrionNetwork.Rpc
