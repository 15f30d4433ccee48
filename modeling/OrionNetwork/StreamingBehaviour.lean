import OrionNetwork.Collections

/-!
# Opening streams

The behaviour under the rpc one. A peer that is not connected is dialed first,
and each wish for a stream to it is counted on its dial request. Peers,
connections and the streams themselves come from the swarm; a stream carries no
data of its own here. Vectors are pushed to and popped from at their end.
-/
namespace OrionNetwork.Streaming
open Collections

abbrev ConnectionId := UInt64

/-- The io errors that the sources raise, and any other one. -/
inductive IoError where
  | outOfMemory
  | invalidData
  | unexpectedEof
  | writeZero
  | other (message : String)
  deriving DecidableEq, Repr

/-- An upgrade error whose protocol cannot fail by itself. -/
inductive Error where
  | timeout
  | negotiationFailed
  | io (error : IoError)
  deriving DecidableEq, Repr

inductive Poll (α : Type*) where
  | ready (value : α)
  | pending

inductive ToSwarm (Peer α : Type*) where
  | generateEvent (event : α)
  | dial (peer : Peer) (connection : ConnectionId)
  | notifyHandler (peer : Peer) (connection : ConnectionId)

inductive Event (Peer : Type*) where
  | incomingStream (peer : Peer)
  | outgoingStream (peer : Peer) (result : Except Error Unit)

inductive DialError where
  | dialPeerConditionFalse
  | other (message : String)

/-- The swarm events that are looked at. -/
inductive FromSwarm (Peer : Type*) where
  | dialFailure (peer : Option Peer) (connection : ConnectionId) (error : DialError)
  | connectionClosed (peer : Peer)
  | connectionEstablished (peer : Peer) (connection : ConnectionId)

structure DialRequest (Peer : Type*) where
  peer : Peer
  connection : Option ConnectionId
  count : ℕ

structure Behaviour (Peer : Type*) where
  streamRequests : List (Peer × ConnectionId) := []
  dialRequests : List (DialRequest Peer) := []
  connectedPeers : Collections.LinearMap Peer ConnectionId := []
  events : List (Event Peer) := []

namespace Behaviour

variable {Peer : Type*} [DecidableEq Peer]

def isResolvingStreamFor (b : Behaviour Peer) (peer : Peer) : Bool :=
  b.streamRequests.any (fun r => r.1 = peer) || b.dialRequests.any (fun r => r.peer = peer)

/-- The first dial request of a peer asks for more streams, or a new one is
made. -/
def countDial (peer : Peer) (more fresh : ℕ) : List (DialRequest Peer) → List (DialRequest Peer)
  | [] => [⟨peer, none, fresh⟩]
  | r :: rs =>
    if r.peer = peer then { r with count := r.count + more } :: rs
    else r :: countDial peer more fresh rs

def createStream (b : Behaviour Peer) (peer : Peer) : Behaviour Peer :=
  match b.connectedPeers.get peer with
  | some id => { b with streamRequests := b.streamRequests ++ [(peer, id)] }
  | none => { b with dialRequests := countDial peer 1 0 b.dialRequests }

def onSwarmEvent (b : Behaviour Peer) : FromSwarm Peer → Behaviour Peer
  | .dialFailure peer connection error =>
    match b.dialRequests.find? fun r => r.connection = some connection ∨ some r.peer = peer with
    | none => b
    | some r =>
      match error with
      | .dialPeerConditionFalse => b
      | .other message =>
        { b with events := b.events ++
            List.replicate (r.count + 1) (.outgoingStream r.peer (.error (.io (.other message)))) }
  | .connectionClosed peer =>
    let requests := extractIf (fun r => r.1 = peer) b.streamRequests
    let b := { b with
      connectedPeers := b.connectedPeers.remove peer, streamRequests := requests.2 }
    match requests.1.length with
    | 0 => b
    | additional + 1 =>
      { b with dialRequests := countDial peer additional additional b.dialRequests }
  | .connectionEstablished peer connection =>
    let b :=
      match findAndRemove (fun r => r.peer = peer) b.dialRequests with
      | none => b
      | some (r, rest) =>
        { b with
          dialRequests := rest
          streamRequests := b.streamRequests ++ List.replicate (r.count + 1) (peer, connection) }
    { b with connectedPeers := b.connectedPeers.insert peer connection }

/-- What a connection handler reports: an incoming stream, or how a wish for an
outgoing one ended. -/
def onConnectionHandlerEvent (b : Behaviour Peer) (peer : Peer)
    (event : Except (Except Error Unit) Unit) : Behaviour Peer :=
  { b with events := b.events ++ [match event with
    | .ok _ => .incomingStream peer
    | .error result => .outgoingStream peer result] }

/-- Dial requests of peers that are connected by now become stream requests. -/
def promote (b : Behaviour Peer) : Behaviour Peer :=
  { b with
    streamRequests := b.streamRequests ++ b.dialRequests.flatMap fun r =>
      match b.connectedPeers.get r.peer with
      | some id => List.replicate (r.count + 1) (r.peer, id)
      | none => []
    dialRequests := b.dialRequests.filter fun r => (b.connectedPeers.get r.peer).isNone }

/-- The first request that was not dialed gets the connection of the dial. -/
def dialFirst (connection : ConnectionId) :
    List (DialRequest Peer) → Option (Peer × List (DialRequest Peer))
  | [] => none
  | r :: rs =>
    if r.connection.isNone then some (r.peer, { r with connection := some connection } :: rs)
    else (dialFirst connection rs).map fun out => (out.1, r :: out.2)

/-- `connection` is the id that the swarm gives to a dial made by this call. -/
def poll (b : Behaviour Peer) (connection : ConnectionId) :
    Behaviour Peer × Poll (ToSwarm Peer (Event Peer)) :=
  let b := b.promote
  match dialFirst connection b.dialRequests with
  | some (peer, requests) =>
    ({ b with dialRequests := requests }, .ready (.dial peer connection))
  | none =>
    match b.streamRequests.getLast? with
    | some (peer, id) =>
      ({ b with streamRequests := b.streamRequests.dropLast }, .ready (.notifyHandler peer id))
    | none =>
      match b.events.getLast? with
      | some event => ({ b with events := b.events.dropLast }, .ready (.generateEvent event))
      | none => (b, .pending)

/-- Only an event that is taken from the queue is generated. -/
theorem length_events_of_poll {b b' : Behaviour Peer} {connection : ConnectionId}
    {event : Event Peer} (h : b.poll connection = (b', .ready (.generateEvent event))) :
    b'.events.length + 1 = b.events.length := by
  simp only [poll] at h
  split at h
  · cases h
  split at h
  · cases h
  split at h
  · next hlast =>
    cases h
    exact length_dropLast_of_getLast? hlast
  · cases h

end Behaviour

end OrionNetwork.Streaming
