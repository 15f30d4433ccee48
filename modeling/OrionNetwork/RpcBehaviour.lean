import OrionNetwork.PacketWriter
import OrionNetwork.StreamingBehaviour

/-!
# The rpc behaviour

Calls over streams. A request is written to a stream of its peer and is ongoing
from then on, or it waits for a stream. A response is matched to an ongoing
request by its call id alone. The set of streams polls those that were woken,
in an order of its own; the caller of `poll` here says which ones and what their
connections do. The set lists the stream that was polled or pushed last first.
Times are left out, as nothing depends on them.
-/
namespace OrionNetwork.Rpc
open Codec OrionNetwork.Stream Collections
open Streaming (IoError Error Poll ToSwarm ConnectionId)

/-- A number from a counter of the process. -/
abbrev CallId := UInt64

/-- The pieces of `(call, is_request, Reminder(payload))`. -/
def encodePacket (call : CallId) (isRequest : Bool) (payload : Bytes) : Value :=
  (base128Encode call).map (fun byte => [byte]) ++ [[if isRequest then 1 else 0], payload]

def decodePacket (packet : Bytes) : Option (CallId × Bytes × Bool) :=
  match base128Decode packet with
  | none => none
  | some (_, []) => none
  | some (call, byte :: payload) =>
    if byte = 0 then some (call, payload, false)
    else if byte = 1 then some (call, payload, true)
    else none

/-- The stream is closed when its connection was given up. -/
structure Stream (Peer : Type*) where
  writer : PacketWriter
  isOpen : Bool
  peer : Peer

/-- What the packet reader makes of the bytes that arrived. -/
inductive ReadPoll where
  | pending
  | failed (error : IoError)
  | packet (bytes : Bytes)

/-- What a connection does while its stream is polled: the parts it takes as in
`PacketWriter.poll`, an error it answers with when more is written, and what it
delivers. -/
structure Connection where
  accepts : List ℕ
  writeError : Option IoError
  read : ReadPoll

namespace Stream

variable {Peer : Type*}

def new (peer : Peer) (bufferSize : ℕ) : Stream Peer :=
  ⟨OrionNetwork.Stream.new bufferSize, true, peer⟩

def write (s : Stream Peer) (call : CallId) (payload : Bytes) (isRequest : Bool) :
    Except Fault (Stream Peer × Except IoError Unit) :=
  match s.writer.writePacket (encodePacket call isRequest payload) with
  | .error fault => .error fault
  | .ok (writer, none) => .ok ({ s with writer := writer }, .error .outOfMemory)
  | .ok (writer, some _) => .ok ({ s with writer := writer }, .ok ())

def pollNext (s : Stream Peer) (c : Connection) :
    Except Fault (Stream Peer × Poll (Option (Peer × Except IoError (CallId × Bytes × Bool)))) :=
  if !s.isOpen then .ok (s, .ready none)
  else
    match s.writer.poll c.accepts with
    | .error fault => .error fault
    | .ok (writer, _, ready) =>
      let s := { s with writer := writer }
      match ready, c.writeError with
      | false, some e => .ok ({ s with isOpen := false }, .ready (some (s.peer, .error e)))
      | _, _ =>
        match c.read with
        | .pending => .ok (s, .pending)
        | .failed e => .ok ({ s with isOpen := false }, .ready (some (s.peer, .error e)))
        | .packet bytes =>
          match decodePacket bytes with
          | none =>
            .ok ({ s with isOpen := false }, .ready (some (s.peer, .error .invalidData)))
          | some packet => .ok (s, .ready (some (s.peer, .ok packet)))

end Stream

inductive Event (Peer : Type*) where
  | response (peer : Peer) (call : CallId) (result : Except Error Bytes)
  | request (peer : Peer) (call : CallId) (payload : Bytes)

structure Behaviour (Peer : Type*) where
  bufferSize : ℕ := 1 <<< 14
  streams : List (Stream Peer) := []
  pendingRequests : List (Peer × CallId × Bytes) := []
  ongoingRequests : List (CallId × Peer) := []
  pendingRepsonses : List (Peer × CallId × Bytes) := []
  events : List (Event Peer) := []
  streaming : Streaming.Behaviour Peer := {}

namespace Behaviour

variable {Peer : Type*} [DecidableEq Peer]

def streamOf (b : Behaviour Peer) (peer : Peer) : Option (Stream Peer) :=
  b.streams.find? fun s => s.peer = peer

/-- The first stream of the same peer is the one that was written to. -/
def putStream (b : Behaviour Peer) (s : Stream Peer) : Behaviour Peer :=
  { b with streams := b.streams.replaceF fun t => if t.peer = s.peer then some s else none }

/-- `call` is what `CallId::new` returns. The call is registered before it is
written, and stays so when it cannot be written. -/
def request (b : Behaviour Peer) (peer : Peer) (packet : Bytes) (call : CallId) :
    Except Fault (Behaviour Peer × Except IoError CallId) :=
  match b.streamOf peer with
  | some s =>
    let b := { b with ongoingRequests := b.ongoingRequests ++ [(call, peer)] }
    match s.write call packet true with
    | .error fault => .error fault
    | .ok (s, .error e) => .ok (b.putStream s, .error e)
    | .ok (s, .ok _) => .ok (b.putStream s, .ok call)
  | none =>
    if !b.streaming.isResolvingStreamFor peer then
      .ok ({ b with
        streaming := b.streaming.createStream peer
        pendingRequests := b.pendingRequests ++ [(peer, call, packet)] }, .ok call)
    else .ok (b, .ok call)

def respond (b : Behaviour Peer) (peer : Peer) (call : CallId) (payload : Bytes) :
    Except Fault (Behaviour Peer) :=
  match b.streamOf peer with
  | some s =>
    match s.write call payload false with
    | .error fault => .error fault
    | .ok (s, _) => .ok (b.putStream s)
  | none =>
    if !b.streaming.isResolvingStreamFor peer then
      .ok { b with
        streaming := b.streaming.createStream peer
        pendingRepsonses := b.pendingRepsonses ++ [(peer, call, payload)] }
    else .ok b

def cleanFailedRequests (b : Behaviour Peer) (failed : Peer) (error : Error) : Behaviour Peer :=
  let ongoing := extractIf (fun r => r.2 = failed) b.ongoingRequests
  let pending := extractIf (fun r => r.1 = failed) b.pendingRequests
  { b with
    pendingRepsonses := b.pendingRepsonses.filter fun r => r.1 ≠ failed
    ongoingRequests := ongoing.2
    pendingRequests := pending.2
    events := b.events ++
      (ongoing.1.map (fun r => (r.1, r.2)) ++ pending.1.map (fun r => (r.2.1, r.1))).map
        fun r => .response r.2 r.1 (.error error) }

/-- The body of the loop over stream items. An event ends the call of `poll`. -/
def onItem (b : Behaviour Peer) (pid : Peer) :
    Except IoError (CallId × Bytes × Bool) → Behaviour Peer × Option (Event Peer)
  | .ok (cid, content, false) =>
    match findAndRemove (fun r => r.1 = cid) b.ongoingRequests with
    | none => (b, none)
    | some ((_, peer), rest) =>
      let b := { b with ongoingRequests := rest }
      if pid ≠ peer then (b, none) else (b, some (.response pid cid (.ok content)))
  | .ok (cid, content, true) => (b, some (.request pid cid content))
  | .error e => (b.cleanFailedRequests pid (.io e), none)

/-- One round of the loop over stream items: the stream at `i` is polled. -/
def pollStream (b : Behaviour Peer) (i : ℕ) (c : Connection) :
    Except Fault (Behaviour Peer × Option (Event Peer)) :=
  match b.streams[i]? with
  | none => .ok (b, none)
  | some s =>
    match s.pollNext c with
    | .error fault => .error fault
    | .ok (s, .pending) => .ok ({ b with streams := s :: b.streams.eraseIdx i }, none)
    | .ok (_, .ready none) => .ok ({ b with streams := b.streams.eraseIdx i }, none)
    | .ok (s, .ready (some (pid, res))) =>
      .ok ({ b with streams := s :: b.streams.eraseIdx i }.onItem pid res)

def pollStreams (b : Behaviour Peer) :
    List (ℕ × Connection) → Except Fault (Behaviour Peer × Option (Event Peer))
  | [] => .ok (b, none)
  | (i, c) :: woken =>
    match b.pollStream i c with
    | .error fault => .error fault
    | .ok (b, some event) => .ok (b, some event)
    | .ok (b, none) => pollStreams b woken

/-- A request that waited is written to the new stream. -/
def flushRequest (out : Stream Peer × Behaviour Peer) (r : Peer × CallId × Bytes) :
    Except Fault (Stream Peer × Behaviour Peer) :=
  match out.1.write r.2.1 r.2.2 true with
  | .error fault => .error fault
  | .ok (s, .error e) =>
    .ok (s, { out.2 with
      events := out.2.events ++ [.response r.1 r.2.1 (.error (.io e))] })
  | .ok (s, .ok _) =>
    .ok (s, { out.2 with ongoingRequests := out.2.ongoingRequests ++ [(r.2.1, r.1)] })

/-- A response that waited is written to the new stream, if it fits. -/
def flushResponse (s : Stream Peer) (r : Peer × CallId × Bytes) : Except Fault (Stream Peer) :=
  match s.write r.2.1 r.2.2 false with
  | .error fault => .error fault
  | .ok (s, _) => .ok s

def streamOpened (b : Behaviour Peer) (p : Peer) : Except Fault (Behaviour Peer) :=
  let requests := extractIf (fun r => r.1 = p) b.pendingRequests
  let responses := extractIf (fun r => r.1 = p) b.pendingRepsonses
  match loop flushRequest requests.1
    (Stream.new p b.bufferSize, { b with pendingRequests := requests.2 }) with
  | .error fault => .error fault
  | .ok (s, b) =>
    match loop flushResponse responses.1 s with
    | .error fault => .error fault
    | .ok s => .ok { b with pendingRepsonses := responses.2, streams := s :: b.streams }

/-- Responses that waited for the stream are reported as if they were calls. The
requests that waited for it go on waiting. -/
def streamFailed (b : Behaviour Peer) (p : Peer) (error : Error) : Behaviour Peer :=
  let responses := extractIf (fun r => r.1 = p) b.pendingRepsonses
  { b with
    pendingRepsonses := responses.2
    events := b.events ++ responses.1.map fun r => .response r.1 r.2.1 (.error error) }

def onStreaming (b : Behaviour Peer) : Streaming.Event Peer → Except Fault (Behaviour Peer)
  | .incomingStream p => b.streamOpened p
  | .outgoingStream p (.ok _) => b.streamOpened p
  | .outgoingStream p (.error e) => .ok (b.streamFailed p e)

/-- One round of the loop over streaming events, with what `poll` returns unless
there is another round. -/
def pollStreaming (b : Behaviour Peer) (connection : ConnectionId) :
    Except Fault (Behaviour Peer × Option (Poll (ToSwarm Peer (Event Peer)))) :=
  match b.streaming.poll connection with
  | (streaming, .pending) => .ok ({ b with streaming := streaming }, some .pending)
  | (streaming, .ready (.dial peer id)) =>
    .ok ({ b with streaming := streaming }, some (.ready (.dial peer id)))
  | (streaming, .ready (.notifyHandler peer id)) =>
    .ok ({ b with streaming := streaming }, some (.ready (.notifyHandler peer id)))
  | (streaming, .ready (.generateEvent event)) =>
    match { b with streaming := streaming }.onStreaming event with
    | .error fault => .error fault
    | .ok b => .ok (b, none)

/-- Each round but the last takes a streaming event from the queue. -/
def pollEvents : ℕ → Behaviour Peer → ConnectionId →
    Except Fault (Behaviour Peer × Poll (ToSwarm Peer (Event Peer)))
  | 0, b, _ => .ok (b, .pending)
  | fuel + 1, b, connection =>
    match b.pollStreaming connection with
    | .error fault => .error fault
    | .ok (b, some out) => .ok (b, out)
    | .ok (b, none) => pollEvents fuel b connection

/-- `woken` lists the streams that are polled in this call. -/
def poll (b : Behaviour Peer) (woken : List (ℕ × Connection)) (connection : ConnectionId) :
    Except Fault (Behaviour Peer × Poll (ToSwarm Peer (Event Peer))) :=
  match b.pollStreams woken with
  | .error fault => .error fault
  | .ok (b, some event) => .ok (b, .ready (.generateEvent event))
  | .ok (b, none) => pollEvents (b.streaming.events.length + 1) b connection

def onSwarmEvent (b : Behaviour Peer) (event : Streaming.FromSwarm Peer) : Behaviour Peer :=
  { b with streaming := b.streaming.onSwarmEvent event }

def onConnectionHandlerEvent (b : Behaviour Peer) (peer : Peer)
    (event : Except (Except Error Unit) Unit) : Behaviour Peer :=
  { b with streaming := b.streaming.onConnectionHandlerEvent peer event }

section Cases

variable {b b' : Behaviour Peer} {peer : Peer} {call : CallId}

/-- A request is written, waits for a new stream or is dropped. -/
theorem request_cases {packet : Bytes} {out : Except IoError CallId}
    (h : b.request peer packet call = .ok (b', out)) :
    (∃ s s' result, b.streamOf peer = some s ∧ s.write call packet true = .ok (s', result) ∧
      b' = { b with ongoingRequests := b.ongoingRequests ++ [(call, peer)] }.putStream s' ∧
      out = result.map fun _ => call) ∨
    (b.streamOf peer = none ∧ b.streaming.isResolvingStreamFor peer = false ∧
      b' = { b with
        streaming := b.streaming.createStream peer
        pendingRequests := b.pendingRequests ++ [(peer, call, packet)] } ∧ out = .ok call) ∨
    (b.streamOf peer = none ∧ b.streaming.isResolvingStreamFor peer = true ∧ b' = b ∧
      out = .ok call) := by
  unfold request at h
  split at h
  · next s hs =>
    simp only at h
    split at h
    · cases h
    · next s' e hwrite =>
      cases h
      exact .inl ⟨s, s', .error e, hs, hwrite, rfl, rfl⟩
    · next s' u hwrite =>
      cases h
      exact .inl ⟨s, s', .ok u, hs, hwrite, rfl, rfl⟩
  · next hs =>
    split at h
    · next hresolving =>
      cases h
      exact .inr (.inl ⟨hs, by simpa using hresolving, rfl, rfl⟩)
    · next hresolving =>
      cases h
      exact .inr (.inr ⟨hs, by simpa using hresolving, rfl, rfl⟩)

/-- A response is written, waits for a new stream or is dropped. -/
theorem respond_cases {payload : Bytes} (h : b.respond peer call payload = .ok b') :
    (∃ s s' result, b.streamOf peer = some s ∧ s.write call payload false = .ok (s', result) ∧
      b' = b.putStream s') ∨
    (b.streamOf peer = none ∧ b.streaming.isResolvingStreamFor peer = false ∧
      b' = { b with
        streaming := b.streaming.createStream peer
        pendingRepsonses := b.pendingRepsonses ++ [(peer, call, payload)] }) ∨
    (b.streamOf peer = none ∧ b.streaming.isResolvingStreamFor peer = true ∧ b' = b) := by
  unfold respond at h
  split at h
  · next s hs =>
    split at h
    · cases h
    · next s' result hwrite =>
      cases h
      exact .inl ⟨s, s', result, hs, hwrite, rfl⟩
  · next hs =>
    split at h
    · next hresolving =>
      cases h
      exact .inr (.inl ⟨hs, by simpa using hresolving, rfl⟩)
    · next hresolving =>
      cases h
      exact .inr (.inr ⟨hs, by simpa using hresolving, rfl⟩)

/-- A round over stream items hands one to `onItem` or changes only the streams. -/
theorem pollStream_cases {i : ℕ} {c : Connection} {event : Option (Event Peer)}
    (h : b.pollStream i c = .ok (b', event)) :
    (∃ streams, b' = { b with streams := streams } ∧ event = none) ∨
    ∃ s s' pid res, b.streams[i]? = some s ∧ s.pollNext c = .ok (s', .ready (some (pid, res))) ∧
      { b with streams := s' :: b.streams.eraseIdx i }.onItem pid res = (b', event) := by
  unfold pollStream at h
  split at h
  · cases h
    exact .inl ⟨b.streams, rfl, rfl⟩
  next s hs =>
  split at h
  · cases h
  · cases h
    exact .inl ⟨_, rfl, rfl⟩
  · cases h
    exact .inl ⟨_, rfl, rfl⟩
  · next s' pid res hnext =>
    rw [Except.ok.injEq] at h
    exact .inr ⟨s, s', pid, res, hs, hnext, h⟩

omit [DecidableEq Peer] in
theorem flushRequest_cases {out out' : Stream Peer × Behaviour Peer} {r : Peer × CallId × Bytes}
    (h : flushRequest out r = .ok out') :
    (∃ s e, out.1.write r.2.1 r.2.2 true = .ok (s, .error e) ∧
      out' = (s, { out.2 with
        events := out.2.events ++ [.response r.1 r.2.1 (.error (.io e))] })) ∨
    ∃ s, out.1.write r.2.1 r.2.2 true = .ok (s, .ok ()) ∧
      out' = (s, { out.2 with ongoingRequests := out.2.ongoingRequests ++ [(r.2.1, r.1)] }) := by
  unfold flushRequest at h
  split at h
  · cases h
  · next s e hwrite =>
    cases h
    exact .inl ⟨s, e, hwrite, rfl⟩
  · next s _ hwrite =>
    cases h
    exact .inr ⟨s, hwrite, rfl⟩

/-- The requests are written first, and then the responses. -/
theorem streamOpened_cases (h : b.streamOpened peer = .ok b') :
    ∃ s b₁ s', loop flushRequest (extractIf (fun r => r.1 = peer) b.pendingRequests).1
        (Stream.new peer b.bufferSize, { b with
          pendingRequests := (extractIf (fun r => r.1 = peer) b.pendingRequests).2 }) =
        .ok (s, b₁) ∧
      loop flushResponse (extractIf (fun r => r.1 = peer) b.pendingRepsonses).1 s = .ok s' ∧
      b' = { b₁ with
        pendingRepsonses := (extractIf (fun r => r.1 = peer) b.pendingRepsonses).2
        streams := s' :: b₁.streams } := by
  unfold streamOpened at h
  simp only at h
  split at h
  · cases h
  next s b₁ hrequests =>
  split at h
  · cases h
  next s' hresponses =>
  cases h
  exact ⟨s, b₁, s', hrequests, hresponses, rfl⟩

/-- A round over streaming events returns what the streaming behaviour asks for,
opens a stream or takes note of one that could not be opened. -/
theorem pollStreaming_cases {connection : ConnectionId}
    {out : Option (Poll (ToSwarm Peer (Event Peer)))}
    (h : b.pollStreaming connection = .ok (b', out)) :
    (∃ streaming result, b' = { b with streaming := streaming } ∧ out = some result) ∨
    ∃ streaming event, b.streaming.poll connection =
        (streaming, .ready (.generateEvent event)) ∧ out = none ∧
      ((∃ p, streamOpened { b with streaming := streaming } p = .ok b') ∨
        ∃ p error, event = .outgoingStream p (.error error) ∧
          b' = streamFailed { b with streaming := streaming } p error) := by
  unfold pollStreaming at h
  split at h
  · cases h
    exact .inl ⟨_, _, rfl, rfl⟩
  · cases h
    exact .inl ⟨_, _, rfl, rfl⟩
  · cases h
    exact .inl ⟨_, _, rfl, rfl⟩
  next streaming event hpoll =>
  split at h
  · cases h
  next b₁ hevent =>
  cases h
  refine .inr ⟨streaming, event, hpoll, rfl, ?_⟩
  unfold onStreaming at hevent
  split at hevent
  · exact .inl ⟨_, hevent⟩
  · exact .inl ⟨_, hevent⟩
  · next p error =>
    cases hevent
    exact .inr ⟨p, error, rfl, rfl⟩

end Cases

end Behaviour

end OrionNetwork.Rpc
