import OrionNetwork.RpcConservation

/-!
# What a peer can do to the calls of others

Two behaviours that differ in the ongoing requests and the queued events of one
peer go on alike for all others, as long as no two calls have the same id. A
packet of that peer leaves such a difference behind, unless it is a response
with the id of a call to someone else: the call is taken out by its id alone
before the peers are compared.
-/
namespace OrionNetwork.Rpc
open Codec OrionNetwork.Stream Collections Runs
open Streaming (IoError Error Poll ToSwarm ConnectionId)

variable {Peer : Type*} [DecidableEq Peer]

def Event.peer : Event Peer → Peer
  | .response peer _ _ => peer
  | .request peer _ _ => peer

/-- The events of everyone else. -/
def Event.others (q : Peer) (events : List (Event Peer)) : List (Event Peer) :=
  events.filter fun e => e.peer ≠ q

/-- The ongoing requests to everyone else. -/
def Behaviour.ongoingOthers (b : Behaviour Peer) (q : Peer) : List (CallId × Peer) :=
  b.ongoingRequests.filter fun r => r.2 ≠ q

/-- The waiting requests to everyone else. -/
def Behaviour.pendingOthers (b : Behaviour Peer) (q : Peer) : List (Peer × CallId × Bytes) :=
  b.pendingRequests.filter fun r => r.1 ≠ q

/-- Nobody but `q` could tell the difference so far. -/
structure World.SameForOthers (q : Peer) (w w' : World Peer) : Prop where
  ongoing : (w.behaviour.ongoingOthers q).Perm (w'.behaviour.ongoingOthers q)
  pending : w.behaviour.pendingOthers q = w'.behaviour.pendingOthers q
  emitted : Event.others q w.emitted = Event.others q w'.emitted

/-- Nobody but `q` will ever tell the difference. -/
structure World.Indistinct (q : Peer) (w w' : World Peer) : Prop where
  forth : ∀ acts u, Run World.Step w acts u →
    ∃ u', Run World.Step w' acts u' ∧ u.SameForOthers q u'
  back : ∀ acts u', Run World.Step w' acts u' →
    ∃ u, Run World.Step w acts u ∧ u.SameForOthers q u'

/-- The packet that arrived is a response to a call to someone else. -/
def Behaviour.Forged (b : Behaviour Peer) (q : Peer) (packet : CallId × Bytes × Bool) : Prop :=
  packet.2.2 = false ∧ ∃ peer, peer ≠ q ∧ (packet.1, peer) ∈ b.ongoingRequests

section Ids

variable {b b' : Behaviour Peer}

namespace Behaviour

/-- How often an id is that of a waiting or an ongoing request. -/
def live (b : Behaviour Peer) (call : CallId) : ℕ :=
  (b.pendingRequests.map fun r => r.2.1).count call +
    (b.ongoingRequests.map fun r => r.1).count call

omit [DecidableEq Peer] in
theorem live_flushRequest {out out' : Stream Peer × Behaviour Peer} {r : Peer × CallId × Bytes}
    (h : flushRequest out r = .ok out') (call : CallId) :
    out'.2.live call ≤ out.2.live call + [r.2.1].count call := by
  obtain ⟨s, e, -, rfl⟩ | ⟨s, -, rfl⟩ := flushRequest_cases h
  · exact Nat.le_add_right _ _
  · simp only [live, List.map_append, List.count_append, List.map_cons, List.map_nil]
    omega

theorem live_streamOpened {p : Peer} (h : b.streamOpened p = .ok b') (call : CallId) :
    b'.live call ≤ b.live call := by
  obtain ⟨s, b₁, s', hrequests, -, rfl⟩ := streamOpened_cases h
  have hloop := loop_invariant
    (P := fun l out => out.2.live call + (l.map fun r => r.2.1).count call ≤ b.live call)
    hrequests
    (by
      have hsplit := count_extractIf (fun r => r.1 = p) (fun r => r.2.1) b.pendingRequests call
      simp only [live]
      omega)
    (by
      intro r l out out' hsum hr
      have hone := live_flushRequest hr call
      rw [List.map_cons, ← List.singleton_append, List.count_append] at hsum
      omega)
  exact hloop

theorem live_respond {peer : Peer} {id : CallId} {payload : Bytes}
    (h : b.respond peer id payload = .ok b') (call : CallId) : b'.live call = b.live call := by
  obtain ⟨s, s', result, -, -, rfl⟩ | ⟨-, -, rfl⟩ | ⟨-, -, rfl⟩ := respond_cases h
  · rfl
  · rfl
  · rfl

theorem live_cleanFailedRequests (b : Behaviour Peer) (failed : Peer) (error : Error)
    (call : CallId) : (b.cleanFailedRequests failed error).live call ≤ b.live call := by
  have hongoing := count_extractIf (fun r => r.2 = failed) (fun r => r.1) b.ongoingRequests call
  have hpending := count_extractIf (fun r => r.1 = failed) (fun r => r.2.1) b.pendingRequests call
  simp only [live, cleanFailedRequests]
  omega

theorem live_onItem (b : Behaviour Peer) (pid : Peer)
    (res : Except IoError (CallId × Bytes × Bool)) (call : CallId) :
    (b.onItem pid res).1.live call ≤ b.live call := by
  unfold onItem
  split
  · split
    · exact le_rfl
    · next hfound =>
      have hcount := ((findAndRemove_some hfound).2.map fun r => r.1).count_eq call
      rw [List.map_cons, List.count_cons] at hcount
      split <;> (simp only [live]; omega)
  · exact le_rfl
  · exact b.live_cleanFailedRequests pid _ call

theorem live_pollStream {i : ℕ} {c : Connection} {event : Option (Event Peer)}
    (h : b.pollStream i c = .ok (b', event)) (call : CallId) : b'.live call ≤ b.live call := by
  obtain ⟨streams, rfl, -⟩ | ⟨s, s', pid, res, -, -, hitem⟩ := pollStream_cases h
  · exact le_rfl
  · have hlive := live_onItem { b with streams := s' :: b.streams.eraseIdx i } pid res call
    rw [hitem] at hlive
    exact hlive

theorem live_pollStreaming {connection : ConnectionId}
    {out : Option (Poll (ToSwarm Peer (Event Peer)))}
    (h : b.pollStreaming connection = .ok (b', out)) (call : CallId) :
    b'.live call ≤ b.live call := by
  obtain ⟨streaming, result, rfl, -⟩ | ⟨streaming, event, -, -, hevent⟩ := pollStreaming_cases h
  · exact le_rfl
  obtain ⟨p, hopened⟩ | ⟨peer, error, -, rfl⟩ := hevent
  · exact live_streamOpened hopened call
  · exact le_rfl

theorem live_request {peer : Peer} {packet : Bytes} {id : CallId} {out : Except IoError CallId}
    (h : b.request peer packet id = .ok (b', out)) (call : CallId) :
    b'.live call ≤ b.live call + [id].count call := by
  have hpushed : ∀ s, live (putStream { b with
      ongoingRequests := b.ongoingRequests ++ [(id, peer)] } s) call =
        b.live call + [id].count call := by
    intro s
    simp only [live, putStream, List.map_append, List.count_append, List.map_cons, List.map_nil]
    omega
  obtain ⟨s, s', result, -, -, rfl, -⟩ | ⟨-, -, rfl, -⟩ | ⟨-, -, rfl, -⟩ := request_cases h
  · exact (hpushed s').le
  · simp only [live, List.map_append, List.count_append, List.map_cons, List.map_nil]
    omega
  · exact Nat.le_add_right _ _

end Behaviour

variable {w w' : World Peer} {a : Act Peer}

namespace World

/-- No two requests have the same id, and the ids are those that were given
out. -/
structure Unique (w : World Peer) : Prop where
  once : ∀ call, w.behaviour.live call ≤ 1
  known : ∀ call, w.behaviour.live call ≠ 0 → call ∈ w.accepted ∨ call ∈ w.refused

omit [DecidableEq Peer] in
theorem Unique.of_le (h : w.Unique) (hlive : ∀ call, w'.behaviour.live call ≤ w.behaviour.live call)
    (haccepted : w'.accepted = w.accepted) (hrefused : w'.refused = w.refused) : w'.Unique := by
  refine ⟨fun call => (hlive call).trans (h.once call), ?_⟩
  intro call hcall
  rw [haccepted, hrefused]
  have hle := hlive call
  exact h.known call (by omega)

omit [DecidableEq Peer] in
theorem Unique.request (h : w.Unique) {id : CallId} (hfresh : id ∉ w.accepted ∧ id ∉ w.refused)
    (hlive : ∀ call, w'.behaviour.live call ≤ w.behaviour.live call + [id].count call)
    (hgiven : ∀ call, call ∈ w'.accepted ∨ call ∈ w'.refused ↔
      call ∈ w.accepted ∨ call ∈ w.refused ∨ call = id) : w'.Unique := by
  have hnew : w.behaviour.live id = 0 := by
    by_contra hlive
    rcases h.known id hlive with hmem | hmem
    · exact hfresh.1 hmem
    · exact hfresh.2 hmem
  refine ⟨?_, ?_⟩
  · intro call
    have hle := hlive call
    have hone := h.once call
    by_cases hid : id = call
    · subst hid
      simp only [hnew, List.count_singleton_self] at hle
      omega
    · simp only [List.count_singleton, beq_iff_eq, hid, if_false] at hle
      omega
  · intro call hcall
    rw [hgiven]
    have hle := hlive call
    by_cases hid : id = call
    · exact .inr (.inr hid.symm)
    · simp only [List.count_singleton, beq_iff_eq, hid, if_false] at hle
      rcases h.known call (by omega) with hmem | hmem
      · exact .inl hmem
      · exact .inr (.inl hmem)

theorem Unique.step (h : w.Unique) (hstep : w.Step a w') : w'.Unique := by
  obtain ⟨hfresh, hact⟩ := hstep
  unfold act at hact
  split at hact
  · next peer packet id =>
    split at hact
    · cases hact
    · next b _ hrequest =>
      cases hact
      refine h.request hfresh (Behaviour.live_request hrequest) ?_
      intro call
      simp only [List.mem_append, List.mem_singleton]
      tauto
    · next b _ hrequest =>
      cases hact
      refine h.request hfresh (Behaviour.live_request hrequest) ?_
      intro call
      simp only [List.mem_append, List.mem_singleton]
  · split at hact
    · cases hact
    · next hrespond =>
      cases hact
      exact h.of_le (fun call => (Behaviour.live_respond hrespond call).le) rfl rfl
  · cases hact
    exact h.of_le (fun call => le_rfl) rfl rfl
  · cases hact
    exact h.of_le (fun call => le_rfl) rfl rfl
  · split at hact
    · cases hact
    · next hround =>
      cases hact
      exact h.of_le (Behaviour.live_pollStream hround) rfl rfl
  · split at hact
    · cases hact
    · next hround =>
      cases hact
      exact h.of_le (Behaviour.live_pollStreaming hround) rfl rfl

theorem Unique.run {acts : List (Act Peer)} (h : Run Step {} acts w) : w.Unique := by
  refine h.stateInvariant (P := Unique) ⟨fun call => Nat.zero_le 1, fun call hcall => ?_⟩ ?_
  · exact absurd rfl hcall
  · intro t a u ht hstep
    exact ht.step hstep

omit [DecidableEq Peer] in
/-- The peer of an ongoing request is known by its id. -/
theorem Unique.peer_eq (h : w.Unique) {cid : CallId} {p p' : Peer}
    (hp : (cid, p) ∈ w.behaviour.ongoingRequests) (hp' : (cid, p') ∈ w.behaviour.ongoingRequests) :
    p = p' := by
  have hnodup : (w.behaviour.ongoingRequests.map fun r => r.1).Nodup := by
    rw [List.nodup_iff_count_le_one]
    intro call
    have hone := h.once call
    unfold Behaviour.live at hone
    omega
  have heq := List.inj_on_of_nodup_map hnodup hp hp' rfl
  exact congrArg Prod.snd heq

end World

end Ids

section Differences

variable {q : Peer} {b b' r : Behaviour Peer}

theorem Event.others_append (q : Peer) (events events' : List (Event Peer)) :
    Event.others q (events ++ events') = Event.others q events ++ Event.others q events' :=
  List.filter_append ..

namespace Behaviour

/-- Only ongoing requests and queued events of `q` are different, and the order
of those of others. -/
def Differs (q : Peer) (b b' : Behaviour Peer) : Prop :=
  ∃ ongoing events, b' = { b with ongoingRequests := ongoing, events := events } ∧
    (b.ongoingOthers q).Perm (ongoing.filter fun r => r.2 ≠ q) ∧
    (Event.others q b.events).Perm (Event.others q events)

theorem Differs.symm (h : Differs q b b') : Differs q b' b := by
  obtain ⟨ongoing, events, rfl, hongoing, hevents⟩ := h
  exact ⟨b.ongoingRequests, b.events, rfl, hongoing.symm, hevents.symm⟩

theorem Differs.respond (h : Differs q b b') {peer : Peer} {id : CallId} {payload : Bytes}
    (hrespond : b.respond peer id payload = .ok r) :
    ∃ r', b'.respond peer id payload = .ok r' ∧ Differs q r r' := by
  obtain ⟨ongoing, events, rfl, hongoing, hevents⟩ := h
  unfold Behaviour.respond at hrespond ⊢
  simp only [streamOf] at hrespond ⊢
  split at hrespond
  · split at hrespond
    · cases hrespond
    · cases hrespond
      exact ⟨_, rfl, ongoing, events, rfl, hongoing, hevents⟩
  · split_ifs at hrespond ⊢
    · cases hrespond
      exact ⟨_, rfl, ongoing, events, rfl, hongoing, hevents⟩
    · cases hrespond
      exact ⟨_, rfl, ongoing, events, rfl, hongoing, hevents⟩

theorem Differs.request (h : Differs q b b') {peer : Peer} {packet : Bytes} {id : CallId}
    {out : Except IoError CallId} (hrequest : b.request peer packet id = .ok (r, out)) :
    ∃ r', b'.request peer packet id = .ok (r', out) ∧ Differs q r r' := by
  obtain ⟨ongoing, events, rfl, hongoing, hevents⟩ := h
  have hpushed : ((b.ongoingRequests ++ [(id, peer)]).filter fun r => r.2 ≠ q).Perm
      ((ongoing ++ [(id, peer)]).filter fun r => r.2 ≠ q) := by
    rw [List.filter_append, List.filter_append]
    exact hongoing.append_right _
  unfold Behaviour.request at hrequest ⊢
  simp only [streamOf] at hrequest ⊢
  split at hrequest
  · split at hrequest
    · cases hrequest
    · cases hrequest
      exact ⟨_, rfl, _, events, rfl, hpushed, hevents⟩
    · cases hrequest
      exact ⟨_, rfl, _, events, rfl, hpushed, hevents⟩
  · split_ifs at hrequest ⊢
    · cases hrequest
      exact ⟨_, rfl, ongoing, events, rfl, hongoing, hevents⟩
    · cases hrequest
      exact ⟨_, rfl, ongoing, events, rfl, hongoing, hevents⟩

theorem Differs.flushRequest (h : Differs q b b') {s s' : Stream Peer}
    {request : Peer × CallId × Bytes}
    (hflush : Behaviour.flushRequest (s, b) request = .ok (s', r)) :
    ∃ r', Behaviour.flushRequest (s, b') request = .ok (s', r') ∧ Differs q r r' := by
  obtain ⟨ongoing, events, rfl, hongoing, hevents⟩ := h
  unfold Behaviour.flushRequest at hflush ⊢
  simp only at hflush ⊢
  split at hflush
  · cases hflush
  · cases hflush
    refine ⟨_, rfl, ongoing, _, rfl, hongoing, ?_⟩
    rw [Event.others_append, Event.others_append]
    exact hevents.append_right _
  · cases hflush
    refine ⟨_, rfl, _, events, rfl, ?_, hevents⟩
    simp only [ongoingOthers, List.filter_append]
    exact List.Perm.append_right _ hongoing

theorem Differs.streamOpened (h : Differs q b b') {p : Peer} (hopened : b.streamOpened p = .ok r) :
    ∃ r', b'.streamOpened p = .ok r' ∧ Differs q r r' := by
  obtain ⟨s, b₁, s', hrequests, hresponses, rfl⟩ := streamOpened_cases hopened
  obtain ⟨ongoing, events, rfl, hongoing, hevents⟩ := h
  obtain ⟨⟨s₁, b₁'⟩, hloop, hs, hdiffers⟩ := loop_lockstep
    (R := fun out out' => out'.1 = out.1 ∧ Differs q out.2 out'.2) hrequests
    (Stream.new p b.bufferSize, { b with
      pendingRequests := (extractIf (fun r => r.1 = p) b.pendingRequests).2
      ongoingRequests := ongoing
      events := events })
    ⟨rfl, ongoing, events, rfl, hongoing, hevents⟩
    (by
      rintro request ⟨s, b⟩ ⟨s', b'⟩ ⟨t, c⟩ ⟨hs, hdiffers⟩ hflush
      cases hs
      obtain ⟨c', hflush', hdiffers'⟩ := hdiffers.flushRequest hflush
      exact ⟨(t, c'), hflush', rfl, hdiffers'⟩)
  change s₁ = s at hs
  subst hs
  obtain ⟨ongoing', events', rfl, hongoing', hevents'⟩ : Differs q b₁ b₁' := hdiffers
  refine ⟨_, ?_, ongoing', events', rfl, hongoing', hevents'⟩
  unfold Behaviour.streamOpened
  simp only [hloop, hresponses]

theorem Differs.streamFailed (h : Differs q b b') (p : Peer) (error : Error) :
    Differs q (b.streamFailed p error) (b'.streamFailed p error) := by
  obtain ⟨ongoing, events, rfl, hongoing, hevents⟩ := h
  refine ⟨ongoing, _, rfl, hongoing, ?_⟩
  simp only [Behaviour.streamFailed, Event.others_append]
  exact hevents.append_right _

theorem Differs.pollStreaming (h : Differs q b b') {connection : ConnectionId}
    {out : Option (Poll (ToSwarm Peer (Event Peer)))}
    (hpoll : b.pollStreaming connection = .ok (r, out)) :
    ∃ r', b'.pollStreaming connection = .ok (r', out) ∧ Differs q r r' := by
  have hstreaming : ∀ streaming, Differs q { b with streaming := streaming }
      { b' with streaming := streaming } := by
    intro streaming
    obtain ⟨ongoing, events, rfl, hongoing, hevents⟩ := h
    exact ⟨ongoing, events, rfl, hongoing, hevents⟩
  have hsame : b'.streaming = b.streaming := by
    obtain ⟨ongoing, events, rfl, -, -⟩ := h
    rfl
  unfold Behaviour.pollStreaming at hpoll ⊢
  rw [hsame]
  split at hpoll
  · cases hpoll
    exact ⟨_, rfl, hstreaming _⟩
  · cases hpoll
    exact ⟨_, rfl, hstreaming _⟩
  · cases hpoll
    exact ⟨_, rfl, hstreaming _⟩
  · next streaming event _ =>
    split at hpoll
    · cases hpoll
    next b₁ hevent =>
    cases hpoll
    unfold onStreaming at hevent ⊢
    cases event with
    | incomingStream p =>
      obtain ⟨r', hopened, hdiffers⟩ := (hstreaming streaming).streamOpened hevent
      simp only [hopened]
      exact ⟨r', rfl, hdiffers⟩
    | outgoingStream p result =>
      cases result with
      | ok u =>
        obtain ⟨r', hopened, hdiffers⟩ := (hstreaming streaming).streamOpened hevent
        simp only [hopened]
        exact ⟨r', rfl, hdiffers⟩
      | error e =>
        cases hevent
        exact ⟨_, rfl, (hstreaming streaming).streamFailed p e⟩

/-- The requests to a peer other than `q` are among those to everyone else. -/
theorem filter_ongoingOthers {p : Peer} (hp : p ≠ q) (ongoing : List (CallId × Peer)) :
    (ongoing.filter fun r => r.2 ≠ q).filter (fun r => r.2 = p) =
      ongoing.filter fun r => r.2 = p := by
  rw [List.filter_filter]
  refine List.filter_congr ?_
  intro r _
  by_cases hr : r.2 = p
  · simp [hr, hp]
  · simp [hr]

theorem others_failed (ongoing : List (CallId × Peer)) (error : Error) :
    Event.others q ((ongoing.filter fun r => r.2 = q).map fun r =>
      .response r.2 r.1 (.error error)) = [] := by
  refine List.filter_eq_nil_iff.mpr ?_
  intro e he
  obtain ⟨r, hr, rfl⟩ := List.mem_map.mp he
  have hpeer : r.2 = q := of_decide_eq_true (List.mem_filter.mp hr).2
  simp [Event.peer, hpeer]

theorem Differs.cleanFailedRequests (h : Differs q b b') (failed : Peer) (error : Error) :
    Differs q (b.cleanFailedRequests failed error) (b'.cleanFailedRequests failed error) := by
  obtain ⟨ongoing, events, rfl, hongoing, hevents⟩ := h
  refine ⟨_, _, rfl, ?_, ?_⟩
  · simp only [Behaviour.cleanFailedRequests, ongoingOthers, extractIf]
    rw [List.filter_comm, List.filter_comm _ _ ongoing]
    exact hongoing.filter _
  · simp only [Behaviour.cleanFailedRequests, extractIf, Event.others_append, List.map_append,
      List.map_map, Function.comp_def]
    refine hevents.append (List.Perm.append_right _ ?_)
    by_cases hfailed : failed = q
    · subst hfailed
      rw [others_failed, others_failed]
    · have hfailedOf := hongoing.filter fun r => r.2 = failed
      rw [ongoingOthers, filter_ongoingOthers hfailed, filter_ongoingOthers hfailed] at hfailedOf
      exact (hfailedOf.map _).filter _

/-- An ongoing request is known by its id. -/
def PeerByCall (ongoing : List (CallId × Peer)) : Prop :=
  ∀ cid p p', (cid, p) ∈ ongoing → (cid, p') ∈ ongoing → p = p'

/-- What is left of the requests to others when one with the id is taken. -/
theorem ongoingOthers_taken {ongoing rest : List (CallId × Peer)} {cid : CallId}
    {taken : CallId × Peer}
    (h : findAndRemove (fun r => r.1 = cid) ongoing = some (taken, rest)) :
    (cid, taken.2) ∈ ongoing ∧ (taken.2 = q →
      (ongoing.filter fun r => r.2 ≠ q).Perm (rest.filter fun r => r.2 ≠ q)) ∧
    (taken.2 ≠ q → (ongoing.filter fun r => r.2 ≠ q).Perm
      ((cid, taken.2) :: rest.filter fun r => r.2 ≠ q)) := by
  obtain ⟨hid, hperm⟩ := findAndRemove_some h
  have htaken : taken = (cid, taken.2) := Prod.ext (of_decide_eq_true hid) rfl
  rw [htaken] at hperm
  have hothers := hperm.filter fun r => r.2 ≠ q
  refine ⟨hperm.mem_iff.mpr List.mem_cons_self, ?_, ?_⟩
  · intro hq
    rwa [List.filter_cons_of_neg (by simp [hq])] at hothers
  · intro hq
    rwa [List.filter_cons_of_pos (by simp [hq])] at hothers

omit [DecidableEq Peer] in
theorem not_mem_of_findAndRemove {ongoing : List (CallId × Peer)} {cid : CallId}
    (h : findAndRemove (fun r => r.1 = cid) ongoing = none) (p : Peer) :
    (cid, p) ∉ ongoing := by
  intro hmem
  simpa using findAndRemove_eq_none h (cid, p) hmem

theorem Differs.mem_iff (h : Differs q b b') {cid : CallId} {p : Peer} (hp : p ≠ q) :
    (cid, p) ∈ b.ongoingRequests ↔ (cid, p) ∈ b'.ongoingRequests := by
  obtain ⟨ongoing, events, rfl, hongoing, -⟩ := h
  have hmem := hongoing.mem_iff (a := (cid, p))
  simpa [ongoingOthers, hp] using hmem

/-- A response to a call that only one of the two behaviours knows. -/
theorem Differs.response_unknown (h : Differs q b b') (pid : Peer) {cid : CallId} (content : Bytes)
    (hnone : findAndRemove (fun r => r.1 = cid) b.ongoingRequests = none) :
    Differs q b (b'.onItem pid (.ok (cid, content, false))).1 ∧
      Event.others q (b'.onItem pid (.ok (cid, content, false))).2.toList = [] := by
  cases hfound : findAndRemove (fun r => r.1 = cid) b'.ongoingRequests with
  | none =>
    simp only [Behaviour.onItem, hfound]
    exact ⟨h, rfl⟩
  | some found =>
    obtain ⟨⟨c, peer⟩, rest⟩ := found
    obtain ⟨hmem, htaken, -⟩ := ongoingOthers_taken (q := q) hfound
    have hq : peer = q := by
      by_contra hq
      exact not_mem_of_findAndRemove hnone peer ((h.mem_iff hq).mpr hmem)
    simp only [Behaviour.onItem, hfound]
    obtain ⟨ongoing, events, rfl, hongoing, hevents⟩ := h
    have hdiffers : Differs q b { b with ongoingRequests := rest, events := events } :=
      ⟨rest, events, rfl, hongoing.trans (htaken hq), hevents⟩
    subst hq
    split_ifs with hpid
    · exact ⟨hdiffers, rfl⟩
    · refine ⟨hdiffers, ?_⟩
      simp [Event.others, Event.peer, not_not.mp hpid]

theorem Differs.response (h : Differs q b b') (hb : PeerByCall b.ongoingRequests)
    (hb' : PeerByCall b'.ongoingRequests) (pid : Peer) (cid : CallId) (content : Bytes) :
    Differs q (b.onItem pid (.ok (cid, content, false))).1
        (b'.onItem pid (.ok (cid, content, false))).1 ∧
      Event.others q (b.onItem pid (.ok (cid, content, false))).2.toList =
        Event.others q (b'.onItem pid (.ok (cid, content, false))).2.toList := by
  cases hfound : findAndRemove (fun r => r.1 = cid) b.ongoingRequests with
  | none =>
    obtain ⟨hdiffers, hevents⟩ := h.response_unknown pid content hfound
    simp only [Behaviour.onItem, hfound] at hdiffers hevents ⊢
    exact ⟨hdiffers, hevents.symm⟩
  | some found =>
    cases hfound' : findAndRemove (fun r => r.1 = cid) b'.ongoingRequests with
    | none =>
      obtain ⟨hdiffers, hevents⟩ := h.symm.response_unknown pid content hfound'
      simp only [Behaviour.onItem, hfound'] at hdiffers hevents ⊢
      exact ⟨hdiffers.symm, hevents⟩
    | some found' =>
      obtain ⟨⟨c, peer⟩, rest⟩ := found
      obtain ⟨⟨c', peer'⟩, rest'⟩ := found'
      obtain ⟨hmem, hq, hother⟩ := ongoingOthers_taken (q := q) hfound
      obtain ⟨hmem', hq', hother'⟩ := ongoingOthers_taken (q := q) hfound'
      have hpeer : peer = peer' := by
        by_cases hp : peer = q
        · by_cases hp' : peer' = q
          · exact hp.trans hp'.symm
          · exact hb cid peer peer' hmem ((h.mem_iff hp').mpr hmem')
        · exact hb' cid peer peer' ((h.mem_iff hp).mp hmem) hmem'
      subst hpeer
      obtain ⟨ongoing, events, rfl, hongoing, hevents⟩ := h
      have hrest : (rest.filter fun r => r.2 ≠ q).Perm (rest'.filter fun r => r.2 ≠ q) := by
        by_cases hp : peer = q
        · exact (hq hp).symm.trans (hongoing.trans (hq' hp))
        · exact ((hother hp).symm.trans (hongoing.trans (hother' hp))).cons_inv
      simp only [Behaviour.onItem, hfound, hfound']
      split_ifs
      · exact ⟨⟨rest', events, rfl, hrest, hevents⟩, rfl⟩
      · exact ⟨⟨rest', events, rfl, hrest, hevents⟩, rfl⟩

theorem Differs.onItem (h : Differs q b b') (hb : PeerByCall b.ongoingRequests)
    (hb' : PeerByCall b'.ongoingRequests) (pid : Peer)
    (res : Except IoError (CallId × Bytes × Bool)) :
    Differs q (b.onItem pid res).1 (b'.onItem pid res).1 ∧
      Event.others q (b.onItem pid res).2.toList = Event.others q (b'.onItem pid res).2.toList := by
  rcases res with e | ⟨cid, content, _ | _⟩
  · exact ⟨h.cleanFailedRequests pid (.io e), rfl⟩
  · exact h.response hb hb' pid cid content
  · exact ⟨h, rfl⟩

theorem Differs.pollStream (h : Differs q b b') (hb : PeerByCall b.ongoingRequests)
    (hb' : PeerByCall b'.ongoingRequests) {i : ℕ} {c : Connection} {event : Option (Event Peer)}
    (hpoll : b.pollStream i c = .ok (r, event)) :
    ∃ r' event', b'.pollStream i c = .ok (r', event') ∧ Differs q r r' ∧
      Event.others q event.toList = Event.others q event'.toList := by
  have hstreams : ∀ streams, Differs q { b with streams := streams }
      { b' with streams := streams } := by
    intro streams
    obtain ⟨ongoing, events, rfl, hongoing, hevents⟩ := h
    exact ⟨ongoing, events, rfl, hongoing, hevents⟩
  have hsame : b'.streams = b.streams := by
    obtain ⟨ongoing, events, rfl, -, -⟩ := h
    rfl
  unfold Behaviour.pollStream at hpoll ⊢
  rw [hsame]
  split at hpoll
  · cases hpoll
    exact ⟨b', none, rfl, h, rfl⟩
  · split at hpoll
    · cases hpoll
    · cases hpoll
      exact ⟨_, none, rfl, hstreams _, rfl⟩
    · cases hpoll
      exact ⟨_, none, rfl, hstreams _, rfl⟩
    · next s' pid res hnext =>
      have hitem := (hstreams (s' :: b.streams.eraseIdx i)).onItem hb hb' pid res
      rw [Except.ok.injEq] at hpoll
      rw [hpoll] at hitem
      exact ⟨_, _, rfl, hitem⟩

end Behaviour

end Differences

section Isolation

variable {q : Peer} {w w' v v' u : World Peer} {a : Act Peer}

namespace World

/-- Two worlds that only `q` can tell apart. -/
structure Alike (q : Peer) (w w' : World Peer) : Prop where
  differs : w.behaviour.Differs q w'.behaviour
  accepted : w'.accepted = w.accepted
  refused : w'.refused = w.refused
  emitted : Event.others q w.emitted = Event.others q w'.emitted

theorem Alike.symm (h : Alike q w w') : Alike q w' w :=
  ⟨h.differs.symm, h.accepted.symm, h.refused.symm, h.emitted.symm⟩

theorem Alike.sameForOthers (h : Alike q w w') : w.SameForOthers q w' := by
  obtain ⟨ongoing, events, heq, hongoing, -⟩ := h.differs
  refine ⟨?_, ?_, h.emitted⟩
  · rw [heq]
    exact hongoing
  · rw [heq]
    rfl

omit [DecidableEq Peer] in
theorem Unique.peerByCall (h : w.Unique) : Behaviour.PeerByCall w.behaviour.ongoingRequests :=
  fun _ _ _ hp hp' => h.peer_eq hp hp'

theorem Alike.act (h : Alike q w w') (hw : w.Unique) (hw' : w'.Unique) (hact : w.act a = .ok v) :
    ∃ v', w'.act a = .ok v' ∧ Alike q v v' := by
  have hdiffers := h.differs
  unfold World.act at hact ⊢
  cases a with
  | request peer packet id =>
    simp only at hact ⊢
    split at hact
    · cases hact
    · next hrequest =>
      cases hact
      obtain ⟨r', hrequest', hdiffers'⟩ := hdiffers.request hrequest
      refine ⟨{ w' with behaviour := r', accepted := w'.accepted ++ [id] }, ?_, hdiffers', ?_,
        h.refused, h.emitted⟩
      · rw [hrequest']
      · simp only [h.accepted]
    · next hrequest =>
      cases hact
      obtain ⟨r', hrequest', hdiffers'⟩ := hdiffers.request hrequest
      refine ⟨{ w' with behaviour := r', refused := w'.refused ++ [id] }, ?_, hdiffers',
        h.accepted, ?_, h.emitted⟩
      · rw [hrequest']
      · simp only [h.refused]
  | respond peer call payload =>
    simp only at hact ⊢
    split at hact
    · cases hact
    · next hrespond =>
      cases hact
      obtain ⟨r', hrespond', hdiffers'⟩ := hdiffers.respond hrespond
      refine ⟨{ w' with behaviour := r' }, ?_, hdiffers', h.accepted, h.refused, h.emitted⟩
      rw [hrespond']
  | swarmEvent event =>
    cases hact
    refine ⟨_, rfl, ?_, h.accepted, h.refused, h.emitted⟩
    obtain ⟨ongoing, events, heq, hongoing, hevents⟩ := hdiffers
    rw [heq]
    exact ⟨ongoing, events, rfl, hongoing, hevents⟩
  | handlerEvent peer event =>
    cases hact
    refine ⟨_, rfl, ?_, h.accepted, h.refused, h.emitted⟩
    obtain ⟨ongoing, events, heq, hongoing, hevents⟩ := hdiffers
    rw [heq]
    exact ⟨ongoing, events, rfl, hongoing, hevents⟩
  | pollStream i c =>
    simp only at hact ⊢
    split at hact
    · cases hact
    · next event hround =>
      cases hact
      obtain ⟨r', event', hround', hdiffers', hevent⟩ :=
        hdiffers.pollStream hw.peerByCall hw'.peerByCall hround
      refine ⟨{ w' with behaviour := r', emitted := w'.emitted ++ event'.toList }, ?_, hdiffers',
        h.accepted, h.refused, ?_⟩
      · rw [hround']
      · rw [Event.others_append, Event.others_append, h.emitted, hevent]
  | pollStreaming connection =>
    simp only at hact ⊢
    split at hact
    · cases hact
    · next hround =>
      cases hact
      obtain ⟨r', hround', hdiffers'⟩ := hdiffers.pollStreaming hround
      refine ⟨{ w' with behaviour := r' }, ?_, hdiffers', h.accepted, h.refused, h.emitted⟩
      rw [hround']

theorem Alike.step (h : Alike q w w') (hw : w.Unique) (hw' : w'.Unique) (hstep : w.Step a v) :
    ∃ v', w'.Step a v' ∧ Alike q v v' := by
  obtain ⟨hfresh, hact⟩ := hstep
  obtain ⟨v', hact', halike⟩ := h.act hw hw' hact
  refine ⟨v', ⟨?_, hact'⟩, halike⟩
  cases a with
  | request peer packet call =>
    unfold Fresh at hfresh ⊢
    rw [h.accepted, h.refused]
    exact hfresh
  | _ => trivial

theorem Alike.run (h : Alike q w w') (hw : w.Unique) (hw' : w'.Unique) {acts : List (Act Peer)}
    (hrun : Run Step w acts v) : ∃ v', Run Step w' acts v' ∧ Alike q v v' := by
  obtain ⟨v', hrun', halike, -⟩ := hrun.lockstep
    (R := fun v v' => Alike q v v' ∧ v.Unique ∧ v'.Unique) ⟨h, hw, hw'⟩
    (by
      rintro t t' e u ⟨halike, ht, ht'⟩ hstep
      obtain ⟨u', hstep', halike'⟩ := halike.step ht ht' hstep
      exact ⟨u', hstep', halike', ht.step hstep, ht'.step hstep'⟩)
  exact ⟨v', hrun', halike⟩

theorem Alike.indistinct (h : Alike q w w') (hw : w.Unique) (hw' : w'.Unique) :
    Indistinct q w w' := by
  constructor
  · intro acts u hrun
    obtain ⟨u', hrun', halike⟩ := h.run hw hw' hrun
    exact ⟨u', hrun', halike.sameForOthers⟩
  · intro acts u' hrun
    obtain ⟨u, hrun', halike⟩ := h.symm.run hw' hw hrun
    exact ⟨u, hrun', halike.symm.sameForOthers⟩

end World

omit [DecidableEq Peer] in
/-- A stream that delivers a packet would have waited without it. -/
theorem Stream.pollNext_withheld {s s' : Stream Peer} {c : Connection}
    {packet : CallId × Bytes × Bool}
    (h : s.pollNext c = .ok (s', .ready (some (q, .ok packet)))) :
    s.pollNext { c with read := .pending } = .ok (s', .pending) := by
  unfold Stream.pollNext at h ⊢
  split_ifs at h ⊢ with hopen
  · cases h
  · split at h
    · cases h
    · next writer n ready hpoll =>
      simp only [hpoll] at h ⊢
      split at h
      · cases h
      · split at h
        · cases h
        · cases h
        · split at h
          · cases h
          · cases h
            rfl

namespace Behaviour

variable {b : Behaviour Peer}

theorem Differs.refl (q : Peer) (b : Behaviour Peer) : Differs q b b :=
  ⟨b.ongoingRequests, b.events, rfl, .refl _, .refl _⟩

/-- A packet that is not forged concerns its sender alone. -/
theorem differs_onItem {packet : CallId × Bytes × Bool} (h : ¬ b.Forged q packet) :
    Differs q (b.onItem q (.ok packet)).1 b ∧
      Event.others q (b.onItem q (.ok packet)).2.toList = [] := by
  obtain ⟨cid, content, isRequest⟩ := packet
  cases isRequest with
  | true =>
    refine ⟨.refl q b, ?_⟩
    simp [Behaviour.onItem, Event.others, Event.peer]
  | false =>
    cases hfound : findAndRemove (fun r => r.1 = cid) b.ongoingRequests with
    | none =>
      simp only [Behaviour.onItem, hfound]
      exact ⟨.refl q b, rfl⟩
    | some found =>
      obtain ⟨⟨c, peer⟩, rest⟩ := found
      obtain ⟨hmem, htaken, -⟩ := ongoingOthers_taken (q := q) hfound
      have hq : peer = q := by
        by_contra hq
        exact h ⟨rfl, peer, hq, hmem⟩
      subst hq
      simp only [Behaviour.onItem, hfound, ne_eq, not_true_eq_false, if_false]
      refine ⟨⟨b.ongoingRequests, b.events, rfl, (htaken rfl).symm, .refl _⟩, ?_⟩
      simp [Event.others, Event.peer]

/-- A forged packet takes a call to someone else away. -/
theorem length_ongoingOthers_forged (hb : PeerByCall b.ongoingRequests)
    {packet : CallId × Bytes × Bool} (h : b.Forged q packet) :
    ((b.onItem q (.ok packet)).1.ongoingOthers q).length + 1 = (b.ongoingOthers q).length := by
  obtain ⟨cid, content, isRequest⟩ := packet
  obtain ⟨hresponse, asked, hasked, hmem⟩ := h
  cases hresponse
  cases hfound : findAndRemove (fun r => r.1 = cid) b.ongoingRequests with
  | none => exact absurd hmem (not_mem_of_findAndRemove hfound asked)
  | some found =>
    obtain ⟨⟨c, peer⟩, rest⟩ := found
    obtain ⟨htaken, -, hother⟩ := ongoingOthers_taken (q := q) hfound
    have hpeer : peer = asked := hb cid peer asked htaken hmem
    subst hpeer
    simp only [Behaviour.onItem, hfound, ne_eq, Ne.symm hasked, not_false_eq_true, if_true]
    exact (hother hasked).length_eq.symm

end Behaviour

/-- What a peer sends is of no consequence to the calls to others exactly if it
is not a response with the id of one of them. -/
theorem indistinct_iff_not_forged {acts : List (Act Peer)} (h : Run World.Step {} acts w) {i : ℕ}
    {s s' : Stream Peer} {c : Connection} {packet : CallId × Bytes × Bool}
    (hs : w.behaviour.streams[i]? = some s)
    (hnext : s.pollNext c = .ok (s', .ready (some (q, .ok packet)))) :
    (∃ received withheld, w.Step (.pollStream i c) received ∧
      w.Step (.pollStream i { c with read := .pending }) withheld ∧
      World.Indistinct q received withheld) ↔ ¬ w.behaviour.Forged q packet := by
  have hunique := World.Unique.run h
  have hwithheld := Stream.pollNext_withheld hnext
  let b : Behaviour Peer := { w.behaviour with streams := s' :: w.behaviour.streams.eraseIdx i }
  let received : World Peer := { w with
    behaviour := (b.onItem q (.ok packet)).1
    emitted := w.emitted ++ (b.onItem q (.ok packet)).2.toList }
  let withheld : World Peer := { w with behaviour := b }
  have hreceived : w.Step (.pollStream i c) received := by
    refine ⟨trivial, ?_⟩
    simp only [World.act, Behaviour.pollStream, hs, hnext]
    rfl
  have hwaited : w.Step (.pollStream i { c with read := .pending }) withheld := by
    refine ⟨trivial, ?_⟩
    simp only [World.act, Behaviour.pollStream, hs, hwithheld, Option.toList_none, List.append_nil]
    rfl
  constructor
  · rintro ⟨received', withheld', hreceived', hwaited', hindistinct⟩ hforged
    cases hreceived.2.symm.trans hreceived'.2
    cases hwaited.2.symm.trans hwaited'.2
    obtain ⟨u, hu, hsame⟩ := hindistinct.forth [] received .start
    cases Run.unique (fun _ _ _ _ h h' => Except.ok.inj (h.2.symm.trans h'.2)) .start hu
    have hlength := Behaviour.length_ongoingOthers_forged (b := b) hunique.peerByCall hforged
    have hequal := hsame.ongoing.length_eq
    change ((b.onItem q (.ok packet)).1.ongoingOthers q).length =
      (b.ongoingOthers q).length at hequal
    omega
  · intro hforged
    obtain ⟨hdiffers, hevents⟩ := Behaviour.differs_onItem (b := b) hforged
    refine ⟨received, withheld, hreceived, hwaited, ?_⟩
    have halike : World.Alike q received withheld := by
      refine ⟨hdiffers, rfl, rfl, ?_⟩
      rw [Event.others_append, hevents, List.append_nil]
    exact halike.indistinct (hunique.step hreceived) (hunique.step hwaited)

/-- The peer that was asked answers. -/
theorem indistinct_iff_not_forged_answered :
    ∃ received withheld, demoAsked.Step (.pollStream 0 ⟨[15], none, .packet [0, 0, 9]⟩) received ∧
      demoAsked.Step (.pollStream 0 ⟨[15], none, .pending⟩) withheld ∧
      World.Indistinct 7 received withheld := by
  have hreached : Run World.Step {} _ demoAsked := run_demoAsked.unguard
  have hforged : ¬ demoAsked.behaviour.Forged 7 (0, [9], false) := by
    rintro ⟨-, peer, hpeer, hmem⟩
    exact hpeer (congrArg Prod.snd (List.mem_singleton.mp hmem))
  exact (indistinct_iff_not_forged (c := ⟨[15], none, .packet [0, 0, 9]⟩) hreached rfl rfl).mpr
    hforged

/-- Two peers are connected, and one of them is asked. -/
def demoBystander : World ℕ :=
  { behaviour := {
      streams := [Stream.new 8 (1 <<< 14), demoStream]
      ongoingRequests := [(0, 7)] }
    accepted := [0] }

theorem run_demoBystander : Run World.Step ({} : World ℕ)
    ([.handlerEvent 7 (.ok ()), .pollStreaming 3, .request 7 [1] 0] ++
      [.handlerEvent 8 (.ok ())] ++ [.pollStreaming 4]) demoBystander := by
  have hincoming : demoAsked.Step (.handlerEvent 8 (.ok ()))
      { demoAsked with behaviour := { demoAsked.behaviour with
        streaming := { events := [.incomingStream 8] } } } :=
    ⟨trivial, rfl⟩
  exact (run_demoAsked.unguard.append (.single hincoming)).append (.single ⟨trivial, rfl⟩)

/-- The other peer answers in its place: the call is forgotten. -/
theorem bystander_takes_call :
    ¬ ∀ (acts : List (Act ℕ)) (w : World ℕ) (q i : ℕ) (s s' : Stream ℕ) (c : Connection)
      (packet : CallId × Bytes × Bool), Run World.Step {} acts w →
        w.behaviour.streams[i]? = some s →
        s.pollNext c = .ok (s', .ready (some (q, .ok packet))) →
        ∃ received withheld, w.Step (.pollStream i c) received ∧
          w.Step (.pollStream i { c with read := .pending }) withheld ∧
          World.Indistinct q received withheld := by
  intro h
  obtain ⟨received, withheld, hreceived, hwithheld, hindistinct⟩ :=
    h _ demoBystander 8 0 _ _ ⟨[], none, .packet [0, 0, 9]⟩ _ run_demoBystander rfl rfl
  obtain ⟨u, hu, hsame⟩ := hindistinct.forth [] received .start
  cases Run.unique (fun _ _ _ _ h h' => Except.ok.inj (h.2.symm.trans h'.2)) .start hu
  have hlength := hsame.ongoing.length_eq
  cases hreceived.2
  cases hwithheld.2
  cases hlength

end Isolation

end OrionNetwork.Rpc
