import OrionNetwork.RpcConservation
import OrionNetwork.StreamLedger

/-!
# Who hears of a failure

When a stream fails, each call to its peer gets an error event in a queue of
its own. When a stream cannot be opened, only the responses that wait for it get
one, as if they were calls. Nothing ever takes an event out of that queue: the
loop over the streaming events hands out none of its own. So the poll that is
told to wait comes sooner or later with all of these events still queued.
-/
namespace OrionNetwork.Rpc
open Codec OrionNetwork.Stream Collections Runs
open Streaming (IoError Error Poll ToSwarm ConnectionId)

variable {Peer : Type*}

/-- An error for this call to this peer. -/
def Event.reports [DecidableEq Peer] (p : Peer) (call : CallId) : Event Peer → Bool
  | .response peer id (.error _) => peer = p && id = call
  | _ => false

/-- A stream that broke or one that could not be opened. -/
inductive Failure where
  | stream (error : IoError)
  | opening (error : Error)

namespace Behaviour

variable [DecidableEq Peer]

/-- What `poll` does when it learns of a failure. -/
def fail (b : Behaviour Peer) (p : Peer) : Failure → Behaviour Peer
  | .stream e => (b.onItem p (.error e)).1
  | .opening e => b.streamFailed p e

/-- The ongoing and the waiting calls to a peer. -/
def callsTo (b : Behaviour Peer) (p : Peer) : List CallId :=
  (b.ongoingRequests.filter fun r => r.2 = p).map (fun r => r.1) ++
    (b.pendingRequests.filter fun r => r.1 = p).map fun r => r.2.1

/-- What the last of some calls of `poll` leaves behind and returns. -/
inductive Polled (b : Behaviour Peer) :
    Behaviour Peer → Poll (ToSwarm Peer (Event Peer)) → Prop where
  | first {b' : Behaviour Peer} {out : Poll (ToSwarm Peer (Event Peer))}
      (woken : List (ℕ × Connection)) (connection : ConnectionId) :
      b.poll woken connection = .ok (b', out) → Polled b b' out
  | next {b₁ b' : Behaviour Peer} {out₁ out : Poll (ToSwarm Peer (Event Peer))}
      (woken : List (ℕ × Connection)) (connection : ConnectionId) :
      Polled b b₁ out₁ → b₁.poll woken connection = .ok (b', out) → Polled b b' out

/-- A failure is reported: an event for each call to the peer, and no waiting
while one of them is queued. -/
structure Reports (b : Behaviour Peer) (p : Peer) (f : Failure) : Prop where
  once : ∀ call ∈ b.callsTo p,
    ((b.fail p f).events.drop b.events.length).countP (Event.reports p call) = 1
  drained : ∀ b', Polled (b.fail p f) b' .pending →
    ∀ call ∈ b.callsTo p, ∀ event ∈ b'.events, event.reports p call = false

end Behaviour

section Totality

variable [DecidableEq Peer] {b b' : Behaviour Peer}

omit [DecidableEq Peer] in
theorem Stream.write_of_start {s : Stream Peer} (h : s.writer.start = 0) (call : CallId)
    (payload : Bytes) (isRequest : Bool) :
    ∃ s' out, s.write call payload isRequest = .ok (s', out) ∧ s'.writer.start = 0 := by
  obtain ⟨w', out, hwrite, hstart⟩ :=
    PacketWriter.writePacket_of_start h (encodePacket call isRequest payload)
  unfold Stream.write
  rw [hwrite]
  cases out with
  | none => exact ⟨_, _, rfl, hstart⟩
  | some u => exact ⟨_, _, rfl, hstart⟩

namespace Behaviour

omit [DecidableEq Peer] in
theorem flushRequest_total (r : Peer × CallId × Bytes) (out : Stream Peer × Behaviour Peer)
    (h : out.1.writer.start = 0 ∧ b.events <+: out.2.events) :
    ∃ out', flushRequest out r = .ok out' ∧
      out'.1.writer.start = 0 ∧ b.events <+: out'.2.events := by
  obtain ⟨s', result, hwrite, hstart⟩ := Stream.write_of_start h.1 r.2.1 r.2.2 true
  unfold flushRequest
  rw [hwrite]
  cases result with
  | error e => exact ⟨_, rfl, hstart, h.2.trans (List.prefix_append _ _)⟩
  | ok u => exact ⟨_, rfl, hstart, h.2⟩

/-- A new stream takes what waited for it, and no event is lost. -/
theorem streamOpened_total (b : Behaviour Peer) (p : Peer) :
    ∃ b', b.streamOpened p = .ok b' ∧ b'.streaming = b.streaming ∧ b.events <+: b'.events := by
  obtain ⟨⟨s₁, b₁⟩, hrequests, hstart, hevents⟩ := loop_total
    (P := fun out => out.1.writer.start = 0 ∧ b.events <+: out.2.events)
    (s := (Stream.new p b.bufferSize,
      { b with pendingRequests := (extractIf (fun r => r.1 = p) b.pendingRequests).2 }))
    ⟨rfl, List.prefix_rfl⟩ (extractIf (fun r => r.1 = p) b.pendingRequests).1
    (fun r out h => flushRequest_total r out h)
  obtain ⟨s₂, hresponses, -⟩ := loop_total (P := fun s : Stream Peer => s.writer.start = 0) hstart
    (extractIf (fun r => r.1 = p) b.pendingRepsonses).1 (f := flushResponse)
    (by
      intro r s hs
      obtain ⟨s', out, hwrite, hstart⟩ := Stream.write_of_start hs r.2.1 r.2.2 false
      refine ⟨s', ?_, hstart⟩
      rw [flushResponse, hwrite])
  have hopened : b.streamOpened p = .ok { b₁ with
      pendingRepsonses := (extractIf (fun r => r.1 = p) b.pendingRepsonses).2
      streams := s₂ :: b₁.streams } := by
    unfold streamOpened
    simp only [hrequests, hresponses]
  exact ⟨_, hopened, streaming_streamOpened hopened, hevents⟩

/-- A round of the loop over streaming events loses no event and does some of
the work, unless there is none. -/
theorem pollStreaming_total (b : Behaviour Peer) (connection : ConnectionId) :
    ∃ b' out, b.pollStreaming connection = .ok (b', out) ∧ b.events <+: b'.events ∧
      (out = some .pending ∨ b'.streaming.work < b.streaming.work) := by
  rcases hpoll : b.streaming.poll connection with ⟨streaming, out⟩
  have hwork := Streaming.Behaviour.work_poll hpoll
  unfold pollStreaming
  simp only [hpoll]
  rcases out with (event | ⟨peer, id⟩ | ⟨peer, id⟩) | _
  · have hless : streaming.work < b.streaming.work := hwork.resolve_left nofun
    have hopened : ∀ p, ∃ b', streamOpened { b with streaming := streaming } p = .ok b' ∧
        b.events <+: b'.events ∧ b'.streaming.work < b.streaming.work := by
      intro p
      obtain ⟨b', hb', hstreaming, hevents⟩ :=
        streamOpened_total { b with streaming := streaming } p
      exact ⟨b', hb', hevents, by rw [hstreaming]; exact hless⟩
    rcases event with p | ⟨p, error | u⟩
    · obtain ⟨b', hb', hevents, hless'⟩ := hopened p
      simp only [onStreaming, hb']
      exact ⟨b', none, rfl, hevents, .inr hless'⟩
    · exact ⟨_, none, rfl, List.prefix_append _ _, .inr hless⟩
    · obtain ⟨b', hb', hevents, hless'⟩ := hopened p
      simp only [onStreaming, hb']
      exact ⟨b', none, rfl, hevents, .inr hless'⟩
  · exact ⟨_, _, rfl, List.prefix_rfl, .inr (hwork.resolve_left nofun)⟩
  · exact ⟨_, _, rfl, List.prefix_rfl, .inr (hwork.resolve_left nofun)⟩
  · exact ⟨_, _, rfl, List.prefix_rfl, .inl rfl⟩

theorem pollEvents_total (fuel : ℕ) (b : Behaviour Peer) (connection : ConnectionId) :
    ∃ b' out, pollEvents fuel b connection = .ok (b', out) ∧ b.events <+: b'.events ∧
      (out = .pending ∨ b'.streaming.work < b.streaming.work) := by
  induction fuel generalizing b with
  | zero => exact ⟨b, .pending, rfl, List.prefix_rfl, .inl rfl⟩
  | succ fuel ih =>
    obtain ⟨b₁, out, hround, hevents, hwork⟩ := b.pollStreaming_total connection
    simp only [pollEvents, hround]
    cases out with
    | some out =>
      refine ⟨b₁, out, rfl, hevents, ?_⟩
      rwa [Option.some_inj] at hwork
    | none =>
      obtain ⟨b', out, hrest, hevents', hwork'⟩ := ih b₁
      refine ⟨b', out, hrest, hevents.trans hevents', ?_⟩
      have hless := hwork.resolve_left (Option.some_ne_none _).symm
      exact hwork'.imp_right fun hless' => hless'.trans hless

theorem Polled.cons {b₁ : Behaviour Peer} {out out₁ : Poll (ToSwarm Peer (Event Peer))}
    {woken : List (ℕ × Connection)} {connection : ConnectionId}
    (hpoll : b.poll woken connection = .ok (b₁, out₁)) (h : Polled b₁ b' out) :
    Polled b b' out := by
  induction h with
  | first woken' connection' h => exact .next woken' connection' (.first woken connection hpoll) h
  | next woken' connection' _ h ih => exact .next woken' connection' ih h

/-- Whatever the state is, a poll tells to wait in the end, and by then no event
has left the queue. -/
theorem exists_polled_pending (b : Behaviour Peer) :
    ∃ b', Polled b b' .pending ∧ b.events <+: b'.events := by
  induction hwork : b.streaming.work using Nat.strong_induction_on generalizing b with
  | _ n ih =>
    obtain ⟨b₁, out, hpoll, hevents, hless⟩ := pollEvents_total (b.streaming.events.length + 1) b 0
    have hfirst : b.poll [] 0 = .ok (b₁, out) := hpoll
    rcases hless with rfl | hless
    · exact ⟨b₁, .first [] 0 hfirst, hevents⟩
    · obtain ⟨b', hpolled, hevents'⟩ := ih b₁.streaming.work (hwork ▸ hless) b₁ rfl
      exact ⟨b', .cons hfirst hpolled, hevents.trans hevents'⟩

end Behaviour

end Totality

section Reporting

variable [DecidableEq Peer]

/-- A failure is reported to callers exactly if there are none. -/
theorem reports_iff_no_calls (b : Behaviour Peer) (p : Peer) (f : Failure) :
    b.Reports p f ↔ b.callsTo p = [] := by
  constructor
  · intro h
    by_contra hcalls
    obtain ⟨call, hcall⟩ := List.exists_mem_of_ne_nil _ hcalls
    -- the event that reports the call stays in the queue until a poll waits
    have hcount := h.once call hcall
    obtain ⟨event, hevent, hreports⟩ := List.countP_pos_iff.mp (hcount ▸ Nat.one_pos)
    obtain ⟨b', hpolled, hevents⟩ := (b.fail p f).exists_polled_pending
    have hqueued := hevents.subset (List.mem_of_mem_drop hevent)
    rw [h.drained b' hpolled call hcall event hqueued] at hreports
    cases hreports
  · intro hcalls
    constructor
    · intro call hcall
      rw [hcalls] at hcall
      cases hcall
    · intro b' _ call hcall
      rw [hcalls] at hcall
      cases hcall

/-- The stream of the peer that was asked breaks. -/
theorem broken_stream_not_reported :
    ¬ ∀ (acts : List (Act ℕ)) (w : World ℕ), Run World.Step {} acts w →
      ∀ (p : ℕ) (f : Failure), w.behaviour.Reports p f := by
  intro h
  have hreports := h _ demoAsked run_demoAsked.unguard 7 (.stream .unexpectedEof)
  have hpolled : (demoAsked.behaviour.fail 7 (.stream .unexpectedEof)).Polled
      (demoAsked.behaviour.fail 7 (.stream .unexpectedEof)) .pending := .first [] 0 rfl
  have hqueued := hreports.drained _ hpolled 0 (by decide) _ (List.mem_singleton.mpr rfl)
  cases hqueued

end Reporting

end OrionNetwork.Rpc
