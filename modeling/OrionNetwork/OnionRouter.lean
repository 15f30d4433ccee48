import OrionNetwork.OnionHandshake
import OrionNetwork.Runs

/-!
# The limit of a relay

A node forwards channels between other nodes, up to a limit that counts the channels
that are alive and the streams that wait for the connection they are to go on with. A
stream is admitted at one moment. Later it becomes a channel, is given up or expires,
in other handlers. A channel that is found expired when a stream is admitted never
comes back, and one that is not looked at may still see a packet and live on.
-/
namespace OrionNetwork.OnionRouter
open Codec Collections Runs Onion
open Streaming (ConnectionId)

variable {s : Suite}

/-- Instants and intervals are numbers of nanoseconds. -/
structure Channel where
  invalid : Bool := false
  lastPacket : ℕ

/-- A channel that has expired is marked. -/
def Channel.isValid (timeout now : ℕ) (c : Channel) : Channel × Bool :=
  if c.invalid then (c, false)
  else if c.lastPacket + timeout > now then (c, true)
  else ({ c with invalid := true }, false)

/-- Both directions are forwarded. A channel that is marked is closed instead. -/
def Channel.drive (now : ℕ) (touched : Bool) (c : Channel) : Channel :=
  if touched && !c.invalid then { c with lastPacket := now } else c

structure Config (s : Suite) where
  currentPeerId : s.PeerId
  maxStreams : ℕ := 20
  maxErrorStreams : ℕ := 20
  keepAliveInterval : ℕ := 30 * 10 ^ 9
  dial : Bool := true

/-- What the swarm is told. -/
inductive ToSwarm (s : Suite) where
  | notifyHandler (peer : s.PeerId) (connection : ConnectionId) (packet : IncomingOrRequest s)
  | dial (peer : s.PeerId) (connection : ConnectionId)
  | connectRequest (peer : s.PeerId)
  | inboundStream (pathId : PathId)
  | outboundStream (result : Except OUpgradeError s.PeerId) (pathId : PathId)

/-- An error stream is the byte it is to be closed with. The time is an observation. -/
structure Behaviour (s : Suite) where
  config : Config s
  router : List Channel := []
  peerToConnection : LinearMap s.PeerId ConnectionId := []
  dialingPeers : LinearMap ConnectionId s.PeerId := []
  events : List (ToSwarm s) := []
  pendingConnections : List (IncomingStreamMeta s) := []
  pendingRequests : List (StreamRequest s) := []
  errorStreams : List UInt8 := []
  now : ℕ := 0

/-- What happens to a behaviour. `connection` is the id of a dial that the handler may make,
and `pathId` a new path. -/
inductive Event (s : Suite) where
  | passes (duration : ℕ)
  | openPath (path : List (PublicKey × s.PeerId)) (last : PublicKey × s.PeerId) (pathId : PathId)
      (connection : ConnectionId)
  | incoming (stream : IncomingStreamMeta s) (connection : ConnectionId)
  | response (pathId : PathId)
  | newChannel (pathId : PathId)
  | outboundStream (result : Except OUpgradeError s.PeerId) (pathId : PathId)
  | established (peer : s.PeerId) (connection : ConnectionId)
  | connectionClosed (peer : s.PeerId)
  | dialFailure (connection : ConnectionId) (conditionFalse : Bool)
  | reportUnreachable (peer : s.PeerId)
  | poll (touched : ℕ → Bool) (finished closed : Option ℕ)

namespace Behaviour

def push (b : Behaviour s) (e : ToSwarm s) : Behaviour s := { b with events := b.events ++ [e] }

/-- The channels that are alive. -/
def validCount (b : Behaviour s) : ℕ :=
  b.router.countP fun c => (c.isValid b.config.keepAliveInterval b.now).2

/-- All channels are looked at, and those that have expired are marked. -/
def sweep (b : Behaviour s) : Behaviour s :=
  { b with router := b.router.map fun c => (c.isValid b.config.keepAliveInterval b.now).1 }

section Handlers

variable [DecidableEq s.PeerId]

def handleMissingConnection (b : Behaviour s) (peer : s.PeerId) (connection : ConnectionId) :
    Behaviour s :=
  if b.config.dial then
    { b with dialingPeers := b.dialingPeers.insert connection peer }.push (.dial peer connection)
  else b.push (.connectRequest peer)

/-- The packet goes to the connection there is, or one is asked for. -/
def send (b : Behaviour s) (peer : s.PeerId) (packet : IncomingOrRequest s)
    (connection : ConnectionId) : Behaviour s :=
  match b.peerToConnection.get peer with
  | none => b.handleMissingConnection peer connection
  | some connection => b.push (.notifyHandler peer connection packet)

def pushStreamRequest (b : Behaviour s) (sr : StreamRequest s) (connection : ConnectionId) :
    Behaviour s :=
  if sr.receiver = b.config.currentPeerId then b
  else
    { b with pendingRequests := b.pendingRequests ++ [sr] }.send sr.receiver (.request sr) connection

def pushIncomingStream (b : Behaviour s) (is : IncomingStreamMeta s) (connection : ConnectionId) :
    Behaviour s :=
  let validStreamCount := b.validCount
  let b := b.sweep
  if validStreamCount + b.pendingConnections.length > b.config.maxStreams then
    if b.errorStreams.length > b.config.maxErrorStreams then b
    else { b with errorStreams := b.errorStreams ++ [occupiedPeer] }
  else if is.receiver = b.config.currentPeerId then b
  else
    { b with pendingConnections := b.pendingConnections ++ [is] }.send is.receiver (.incoming is)
      connection

def addConnection (b : Behaviour s) (peer : s.PeerId) (connection : ConnectionId) : Behaviour s :=
  match b.peerToConnection.get peer with
  | some _ => b
  | none =>
    let incoming := (b.pendingConnections.filter (·.receiver = peer)).map IncomingOrRequest.incoming
    let requests := (b.pendingRequests.filter (·.receiver = peer)).map IncomingOrRequest.request
    { b with
      peerToConnection := b.peerToConnection.insert peer connection
      events := b.events ++ (incoming ++ requests).map fun p => .notifyHandler peer connection p }

def reportUnreachable (b : Behaviour s) (peer : s.PeerId) : Behaviour s :=
  let connections := extractIf (fun p => decide (p.receiver = peer)) b.pendingConnections
  let requests := extractIf (fun r => decide (r.receiver = peer)) b.pendingRequests
  { b with
    pendingConnections := connections.2
    errorStreams := b.errorStreams ++ connections.1.map fun _ => missingPeer
    pendingRequests := requests.2
    events := b.events ++ requests.1.map fun r =>
      .outboundStream (.error .missingPeer) r.pathId }

def connectionClosed (b : Behaviour s) (peer : s.PeerId) : Behaviour s :=
  let b := if b.pendingRequests.any (·.receiver = peer) ||
      b.pendingConnections.any (·.receiver = peer) then b.push (.connectRequest peer) else b
  { b with peerToConnection := b.peerToConnection.remove peer }

def dialFailure (b : Behaviour s) (connection : ConnectionId) (conditionFalse : Bool) :
    Behaviour s :=
  match b.dialingPeers.get connection with
  | none => b
  | some peer =>
    let b := { b with dialingPeers := b.dialingPeers.remove connection }
    if conditionFalse then b else b.reportUnreachable peer

def newChannel (b : Behaviour s) (pathId : PathId) : Behaviour s :=
  match findAndRemove (fun p => decide (p.pathId = pathId)) b.pendingConnections with
  | none => b
  | some (_, rest) =>
    { b with pendingConnections := rest, router := b.router ++ [⟨false, b.now⟩] }

def outboundStream (b : Behaviour s) (result : Except OUpgradeError s.PeerId) (pathId : PathId) :
    Behaviour s :=
  match findAndRemove (fun r => decide (r.pathId = pathId)) b.pendingRequests with
  | none => b
  | some (_, rest) => { b with pendingRequests := rest }.push (.outboundStream result pathId)

/-- An event is handed out, or the channels and the streams that are being closed are driven.
A channel that is driven may have seen a packet, unless it was marked before. -/
def poll (b : Behaviour s) (touched : ℕ → Bool) (finished closed : Option ℕ) : Behaviour s :=
  match b.events with
  | _ :: events => { b with events := events }
  | [] =>
    let router := b.router.mapIdx fun i c => c.drive b.now (touched i)
    { b with
      router := finished.elim router router.eraseIdx
      errorStreams := closed.elim b.errorStreams b.errorStreams.eraseIdx }

/-- No state comes after a panic. -/
def handle (b : Behaviour s) : Event s → Option (Behaviour s)
  | .passes duration => some { b with now := b.now + duration }
  | .openPath path last pathId connection =>
    match Onion.openPath b.config.currentPeerId pathId path last with
    | .error _ => none
    | .ok none => some b
    | .ok (some sr) => some (b.pushStreamRequest sr connection)
  | .incoming stream connection => some (b.pushIncomingStream stream connection)
  | .response pathId => some (b.push (.inboundStream pathId))
  | .newChannel pathId => some (b.newChannel pathId)
  | .outboundStream result pathId => some (b.outboundStream result pathId)
  | .established peer connection => some (b.addConnection peer connection)
  | .connectionClosed peer => some (b.connectionClosed peer)
  | .dialFailure connection conditionFalse => some (b.dialFailure connection conditionFalse)
  | .reportUnreachable peer => some (b.reportUnreachable peer)
  | .poll touched finished closed => some (b.poll touched finished closed)

def Step (b : Behaviour s) (e : Event s) (u : Behaviour s) : Prop := b.handle e = some u

/-- The streams that are open or being opened are within the limit. -/
def Limited (b : Behaviour s) : Prop :=
  b.validCount + b.pendingConnections.length ≤ b.config.maxStreams

/-- The channels that are not marked, and so may be alive now or later, and the streams that
wait. -/
def occupied (b : Behaviour s) : ℕ :=
  b.router.countP (!·.invalid) + b.pendingConnections.length

/-- A stream for another peer does not come when the limit is reached. -/
def LeavesRoom (b : Behaviour s) : Event s → Prop
  | .incoming stream _ => stream.receiver ≠ b.config.currentPeerId →
      b.validCount + b.pendingConnections.length ≠ b.config.maxStreams
  | _ => True

end Handlers

theorem validCount_add_le_occupied (b : Behaviour s) :
    b.validCount + b.pendingConnections.length ≤ b.occupied := by
  refine Nat.add_le_add_right (List.countP_mono_left fun c _ hc => ?_) _
  by_contra hinvalid
  simp_all [Channel.isValid]

/-- A channel that is not marked after it was looked at is alive. -/
theorem occupied_sweep (b : Behaviour s) :
    b.sweep.occupied = b.validCount + b.pendingConnections.length := by
  unfold occupied validCount sweep
  rw [List.countP_map]
  congr 2
  funext c
  simp only [Function.comp_apply, Channel.isValid]
  split_ifs <;> simp_all

theorem validCount_sweep (b : Behaviour s) : b.sweep.validCount = b.validCount := by
  unfold validCount sweep
  rw [List.countP_map]
  congr 1
  funext c
  simp only [Function.comp_apply, Channel.isValid]
  split_ifs <;> simp_all

/-- The part of the state that the limit is about. -/
structure SameRelay (b u : Behaviour s) : Prop where
  config : u.config = b.config
  now : u.now = b.now
  router : u.router = b.router
  pendingConnections : u.pendingConnections = b.pendingConnections

theorem SameRelay.validCount {b u : Behaviour s} (h : SameRelay b u) :
    u.validCount = b.validCount := by
  rw [Behaviour.validCount, h.config, h.now, h.router, Behaviour.validCount]

theorem SameRelay.occupied {b u : Behaviour s} (h : SameRelay b u) : u.occupied = b.occupied := by
  rw [Behaviour.occupied, h.router, h.pendingConnections, Behaviour.occupied]

theorem occupied_newChannel (b : Behaviour s) (pathId : PathId) :
    (b.newChannel pathId).occupied = b.occupied := by
  unfold newChannel
  split
  · rfl
  · next rest hfound =>
    have hlength := (findAndRemove_some hfound).2.length_eq
    simp only [occupied, List.countP_append, hlength, List.length_cons]
    simp
    omega

/-- A channel that is driven is marked afterwards exactly if it was before. -/
theorem countP_drive (now : ℕ) (touched : ℕ → Bool) (router : List Channel) :
    (router.mapIdx fun i c => c.drive now (touched i)).countP (!·.invalid) =
      router.countP (!·.invalid) := by
  induction router generalizing touched with
  | nil => rfl
  | cons c router ih =>
    have hsame : (c.drive now (touched 0)).invalid = c.invalid := by
      unfold Channel.drive
      split <;> rfl
    rw [List.mapIdx_cons, List.countP_cons, List.countP_cons, ih fun i => touched (i + 1), hsame]

theorem occupied_poll_le (b : Behaviour s) (touched : ℕ → Bool) (finished closed : Option ℕ) :
    (b.poll touched finished closed).occupied ≤ b.occupied := by
  unfold poll
  split
  · rfl
  · refine Nat.add_le_add_right ?_ _
    rw [← countP_drive b.now touched b.router]
    cases finished with
    | none => rfl
    | some i => exact (List.eraseIdx_sublist _ i).countP_le

variable [DecidableEq s.PeerId]

theorem sameRelay_send (b : Behaviour s) (peer : s.PeerId) (packet : IncomingOrRequest s)
    (connection : ConnectionId) : SameRelay b (b.send peer packet connection) := by
  unfold send handleMissingConnection
  split
  · split <;> exact ⟨rfl, rfl, rfl, rfl⟩
  · exact ⟨rfl, rfl, rfl, rfl⟩

theorem sameRelay_pushStreamRequest (b : Behaviour s) (sr : StreamRequest s)
    (connection : ConnectionId) : SameRelay b (b.pushStreamRequest sr connection) := by
  unfold pushStreamRequest
  split
  · exact ⟨rfl, rfl, rfl, rfl⟩
  obtain ⟨hconfig, hnow, hrouter, hpending⟩ := sameRelay_send
    { b with pendingRequests := b.pendingRequests ++ [sr] } sr.receiver (.request sr) connection
  exact ⟨hconfig, hnow, hrouter, hpending⟩

/-- A stream for another peer is taken in. -/
def Admits (b : Behaviour s) : Event s → Prop
  | .incoming stream _ => stream.receiver ≠ b.config.currentPeerId ∧
      b.validCount + b.pendingConnections.length ≤ b.config.maxStreams
  | _ => False

theorem pushIncomingStream_config (b : Behaviour s) (is : IncomingStreamMeta s)
    (connection : ConnectionId) : (b.pushIncomingStream is connection).config = b.config := by
  unfold pushIncomingStream
  dsimp only
  split
  · split <;> rfl
  · split
    · rfl
    · exact (sameRelay_send _ _ _ _).config

/-- A stream that is not taken in leaves at most the marks of the channels that expired. -/
theorem occupied_pushIncomingStream_le {b : Behaviour s} {is : IncomingStreamMeta s}
    {connection : ConnectionId} (h : ¬b.Admits (.incoming is connection)) :
    (b.pushIncomingStream is connection).occupied ≤ b.occupied := by
  have hsweep : b.sweep.occupied ≤ b.occupied :=
    b.occupied_sweep.trans_le b.validCount_add_le_occupied
  unfold pushIncomingStream
  dsimp only
  split
  · split <;> exact hsweep
  · next hroom =>
    split
    · exact hsweep
    · next hother => exact absurd ⟨hother, not_lt.mp hroom⟩ h

theorem pushIncomingStream_of_admits {b : Behaviour s} {is : IncomingStreamMeta s}
    {connection : ConnectionId} (h : b.Admits (.incoming is connection)) :
    SameRelay { b.sweep with pendingConnections := b.pendingConnections ++ [is] }
      (b.pushIncomingStream is connection) := by
  unfold pushIncomingStream
  dsimp only
  rw [if_neg, if_neg]
  · exact sameRelay_send _ _ _ _
  · exact h.1
  · exact not_lt.mpr h.2

theorem occupied_reportUnreachable_le (b : Behaviour s) (peer : s.PeerId) :
    (b.reportUnreachable peer).occupied ≤ b.occupied :=
  Nat.add_le_add_left (List.length_filter_le _ _) _

/-- A step that takes no stream in takes no room. -/
theorem Step.occupied_le {b u : Behaviour s} {e : Event s} (h : b.Step e u) (hno : ¬b.Admits e) :
    u.config = b.config ∧ u.occupied ≤ b.occupied := by
  unfold Step at h
  cases e with
  | passes duration =>
    cases h
    exact ⟨rfl, le_rfl⟩
  | openPath path last pathId connection =>
    simp only [handle] at h
    split at h
    · cases h
    · cases h
      exact ⟨rfl, le_rfl⟩
    · next sr _ =>
      cases h
      have hsame := sameRelay_pushStreamRequest b sr connection
      exact ⟨hsame.config, hsame.occupied.le⟩
  | incoming stream connection =>
    cases h
    exact ⟨pushIncomingStream_config b stream connection, occupied_pushIncomingStream_le hno⟩
  | response pathId =>
    cases h
    exact ⟨rfl, le_rfl⟩
  | newChannel pathId =>
    cases h
    refine ⟨?_, (occupied_newChannel b pathId).le⟩
    unfold newChannel
    split <;> rfl
  | outboundStream result pathId =>
    cases h
    unfold outboundStream
    split <;> exact ⟨rfl, le_rfl⟩
  | established peer connection =>
    cases h
    unfold addConnection
    split <;> exact ⟨rfl, le_rfl⟩
  | connectionClosed peer =>
    cases h
    unfold connectionClosed
    dsimp only
    split <;> exact ⟨rfl, le_rfl⟩
  | dialFailure connection conditionFalse =>
    cases h
    unfold dialFailure
    split
    · exact ⟨rfl, le_rfl⟩
    · next peer _ =>
      dsimp only
      split
      · exact ⟨rfl, le_rfl⟩
      · exact ⟨rfl, occupied_reportUnreachable_le _ peer⟩
  | reportUnreachable peer =>
    cases h
    exact ⟨rfl, occupied_reportUnreachable_le b peer⟩
  | poll touched finished closed =>
    cases h
    refine ⟨?_, occupied_poll_le b touched finished closed⟩
    unfold Behaviour.poll
    split <;> rfl

/-- A stream that is taken in takes the room of one, after the channels that expired have been
marked for good. -/
theorem Step.of_admits {b u : Behaviour s} {e : Event s} (h : b.Step e u) (hin : b.Admits e) :
    u.config = b.config ∧ u.occupied = b.validCount + b.pendingConnections.length + 1 ∧
      u.validCount + u.pendingConnections.length =
        b.validCount + b.pendingConnections.length + 1 := by
  cases e with
  | incoming stream connection =>
    cases h
    have hsame := pushIncomingStream_of_admits hin
    refine ⟨hsame.config, ?_, ?_⟩
    · rw [hsame.occupied, ← occupied_sweep]
      simp only [occupied, sweep, List.length_append, List.length_singleton]
      omega
    · rw [hsame.validCount, hsame.pendingConnections, List.length_append, List.length_singleton,
        ← b.validCount_sweep]
      rfl
  | _ => exact hin.elim

/-- The limit holds throughout a run exactly if no stream for another peer comes when it is
reached. -/
theorem limited_iff_leavesRoom {config : Config s} {es : List (Event s)} {b : Behaviour s}
    (h : Run Step { config := config } es b) :
    (∀ es' b', es' <+: es → Run Step { config := config } es' b' → b'.Limited) ↔
      Run (guarded LeavesRoom Step) { config := config } es b := by
  refine Run.forall_iff_guarded (I := fun b => b.occupied ≤ b.config.maxStreams) ?_ ?_ ?_ ?_ ?_ h
  · intro b e t u ht hu
    exact Option.some_injective _ (ht.symm.trans hu)
  · exact Nat.zero_le _
  · intro b hb
    exact b.validCount_add_le_occupied.trans hb
  · intro b e u hb hroom hstep
    by_cases hin : b.Admits e
    · obtain ⟨hconfig, hoccupied, -⟩ := hstep.of_admits hin
      cases e with
      | incoming stream connection =>
        have hne := hroom hin.1
        have hle := hin.2
        rw [hoccupied, hconfig]
        omega
      | _ => exact hin.elim
    · obtain ⟨hconfig, hoccupied⟩ := hstep.occupied_le hin
      rw [hconfig]
      exact hoccupied.trans hb
  · intro b e u hb hstep hu
    cases e with
    | incoming stream connection =>
      intro hother hfull
      obtain ⟨hconfig, -, hsum⟩ := hstep.of_admits ⟨hother, hfull.le⟩
      have hu : u.validCount + u.pendingConnections.length ≤ u.config.maxStreams := hu
      rw [hconfig, hsum] at hu
      omega
    | _ => exact trivial

section Sample

/-- Peer 0 relays, with the default limit. -/
def sampleConfig : Config maskSuite := { currentPeerId := (0 : UInt8) }

/-- A stream for peer 1. -/
def sampleStream (i : ℕ) : IncomingStreamMeta maskSuite := ⟨(1 : UInt8), [], .ofNat i⟩

def sampleIncoming (i : ℕ) : Event maskSuite := .incoming (sampleStream i) (.ofNat i)

/-- Streams for peer 1 wait until there is a connection to it. -/
theorem run_sampleIncoming {n : ℕ} (hn : n ≤ sampleConfig.maxStreams + 1) :
    ∃ b : Behaviour maskSuite, Run Step { config := sampleConfig }
      ((List.range n).map sampleIncoming) b ∧ b.config = sampleConfig ∧ b.router = [] ∧
      b.pendingConnections.length = n := by
  induction n with
  | zero => exact ⟨_, .start, rfl, rfl, rfl⟩
  | succ n ih =>
    obtain ⟨b, hrun, hconfig, hrouter, hlength⟩ := ih (Nat.le_of_succ_le hn)
    have hin : b.Admits (sampleIncoming n) := by
      constructor
      · rw [hconfig]
        show (1 : UInt8) ≠ 0
        decide
      · rw [validCount, hrouter, hlength, hconfig]
        simpa using Nat.le_of_succ_le_succ hn
    have hsame := pushIncomingStream_of_admits hin
    refine ⟨b.pushIncomingStream (sampleStream n) (.ofNat n), ?_, hsame.config.trans hconfig,
      ?_, ?_⟩
    · rw [List.range_succ, List.map_append]
      exact hrun.next (sampleIncoming n) rfl
    · rw [hsame.router]
      simp [sweep, hrouter]
    · rw [hsame.pendingConnections, List.length_append, hlength, List.length_singleton]

/-- As many streams as the limit allows. -/
theorem limited_iff_leavesRoom_twenty : ∃ b : Behaviour maskSuite,
    Run Step { config := sampleConfig } ((List.range 20).map sampleIncoming) b ∧
    ((∀ es' b', es' <+: (List.range 20).map sampleIncoming →
        Run Step { config := sampleConfig } es' b' → b'.Limited) ↔
      Run (guarded LeavesRoom Step) { config := sampleConfig }
        ((List.range 20).map sampleIncoming) b) := by
  obtain ⟨b, hrun, -⟩ := run_sampleIncoming (n := 20) (by decide)
  exact ⟨b, hrun, limited_iff_leavesRoom hrun⟩

theorem limit_exceeded : ¬∀ (es : List (Event maskSuite)) (b : Behaviour maskSuite),
    Run Step { config := sampleConfig } es b → b.Limited := by
  intro h
  obtain ⟨b, hrun, hconfig, -, hlength⟩ := run_sampleIncoming (n := 21) (by decide)
  have hlimited : b.validCount + b.pendingConnections.length ≤ b.config.maxStreams := h _ _ hrun
  rw [hlength, hconfig] at hlimited
  have hmax : sampleConfig.maxStreams = 20 := rfl
  omega

end Sample

end Behaviour

end OrionNetwork.OnionRouter
