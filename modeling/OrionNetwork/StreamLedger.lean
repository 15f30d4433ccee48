import OrionNetwork.StreamingBehaviour
import OrionNetwork.Runs

/-!
# What becomes of the streams that are asked for

A stream that is asked for waits on the dial request of its peer or as a stream
request, until it is passed to a connection handler or the dial fails. Waiting
streams of a peer are all in one place, as a peer that is dialed is not
connected.

A failed dial reports an error for each stream that waits for it but leaves the
dial request behind, so the streams wait on and nobody will dial again.
-/
namespace OrionNetwork.Streaming
open Collections Runs

variable {Peer : Type*} [DecidableEq Peer]

namespace Behaviour

/-- Streams to the peer that wait for a dial. -/
def dialing (p : Peer) (requests : List (DialRequest Peer)) : ℕ :=
  (requests.map fun r => if r.peer = p then r.count + 1 else 0).sum

/-- Streams to the peer that wait at all. -/
def waiting (b : Behaviour Peer) (p : Peer) : ℕ :=
  dialing p b.dialRequests + b.streamRequests.countP fun r => r.1 = p

end Behaviour

/-- The stream could not be opened. -/
def Event.failsFor (p : Peer) : Event Peer → Bool
  | .outgoingStream peer (.error _) => peer = p
  | _ => false

inductive Action (Peer : Type*) where
  | createStream (peer : Peer)
  | swarm (event : FromSwarm Peer)
  | handler (peer : Peer) (event : Except (Except Error Unit) Unit)
  | poll (connection : ConnectionId)

/-- The behaviour with what was observed of it: the streams that were asked
for, passed to a handler, and reported to have failed with their dial, and
whether one of the latter was reported since the peer was asked for last. -/
structure Ledger (Peer : Type*) where
  behaviour : Behaviour Peer := {}
  created : Peer → ℕ := fun _ => 0
  passed : Peer → ℕ := fun _ => 0
  failed : Peer → ℕ := fun _ => 0
  reported : Peer → Bool := fun _ => false

namespace Ledger

/-- Whether a poll passes a stream to a handler of the peer. -/
def passes (p : Peer) : Poll (ToSwarm Peer (Event Peer)) → Bool
  | .ready (.notifyHandler peer _) => peer = p
  | _ => false

def step (l : Ledger Peer) : Action Peer → Ledger Peer
  | .createStream peer =>
    { l with
      behaviour := l.behaviour.createStream peer
      created := Function.update l.created peer (l.created peer + 1)
      reported := Function.update l.reported peer false }
  | .swarm event =>
    let b := l.behaviour.onSwarmEvent event
    let errors := b.events.drop l.behaviour.events.length
    { l with
      behaviour := b
      failed := fun p => l.failed p + errors.countP (Event.failsFor p)
      reported := fun p => l.reported p || errors.any (Event.failsFor p) }
  | .handler peer event =>
    { l with behaviour := l.behaviour.onConnectionHandlerEvent peer event }
  | .poll connection =>
    let r := l.behaviour.poll connection
    { l with
      behaviour := r.1
      passed := fun p => l.passed p + (passes p r.2).toNat }

def Step (l : Ledger Peer) (a : Action Peer) (l' : Ledger Peer) : Prop := l' = l.step a

/-- Every stream that was asked for has one outcome, and none waits for a peer
that could not be dialed. -/
structure Settled (l : Ledger Peer) : Prop where
  balance : ∀ p, l.created p = l.behaviour.waiting p + l.passed p + l.failed p
  resolved : ∀ p, l.reported p = true → l.behaviour.isResolvingStreamFor p = false

/-- What a step must meet: a dial that fails is of no dial request. -/
def NoneDialed (l : Ledger Peer) (a : Action Peer) : Prop :=
  ∀ peer connection message, a = .swarm (.dialFailure peer connection (.other message)) →
    ∀ r ∈ l.behaviour.dialRequests, r.connection ≠ some connection ∧ some r.peer ≠ peer

end Ledger

section Requests

variable {p q : Peer} {more fresh : ℕ} {connection : ConnectionId}
  {requests requests' : List (DialRequest Peer)}

namespace Behaviour

theorem peers_countDial : (countDial q more fresh requests).map (·.peer) =
    if q ∈ requests.map (·.peer) then requests.map (·.peer)
    else requests.map (·.peer) ++ [q] := by
  induction requests with
  | nil => rfl
  | cons r requests ih =>
    by_cases h : r.peer = q
    · simp [countDial, h]
    · have hne : q ≠ r.peer := Ne.symm h
      simp only [countDial, h, if_false, List.map_cons, ih, List.mem_cons, hne, false_or]
      split_ifs <;> rfl

theorem dialing_countDial : dialing p (countDial q more fresh requests) = dialing p requests +
    if q = p then (if q ∈ requests.map (·.peer) then more else fresh + 1) else 0 := by
  induction requests with
  | nil => simp [countDial, dialing]
  | cons r requests ih =>
    unfold dialing at ih ⊢
    by_cases h : r.peer = q
    · by_cases hp : q = p
      · simp [countDial, h, hp]
        omega
      · simp [countDial, h, hp]
    · have hne : q ≠ r.peer := Ne.symm h
      simp only [countDial, h, if_false, List.map_cons, List.sum_cons, ih, List.mem_cons, hne,
        false_or, Nat.add_assoc]

theorem dialFirst_spec (h : dialFirst connection requests = some (q, requests')) :
    requests'.map (·.peer) = requests.map (·.peer) ∧
      ∀ p, dialing p requests' = dialing p requests := by
  induction requests generalizing requests' with
  | nil => cases h
  | cons r requests ih =>
    unfold dialFirst at h
    split_ifs at h
    · cases h
      exact ⟨rfl, fun p => rfl⟩
    · obtain ⟨⟨q', rest⟩, hrest, heq⟩ := Option.map_eq_some_iff.mp h
      cases heq
      obtain ⟨hpeers, hcounts⟩ := ih hrest
      refine ⟨by rw [List.map_cons, List.map_cons, hpeers], ?_⟩
      intro p
      have hp := hcounts p
      unfold dialing at hp ⊢
      rw [List.map_cons, List.map_cons, List.sum_cons, List.sum_cons, hp]

/-- Dialed and connected peers are different ones, and each of them is
remembered once. -/
structure Apart (b : Behaviour Peer) : Prop where
  dials : (b.dialRequests.map (·.peer)).Nodup
  connections : b.connectedPeers.keys.Nodup
  dialed : ∀ p ∈ b.dialRequests.map (·.peer), p ∉ b.connectedPeers.keys
  connected : ∀ r ∈ b.streamRequests, r.1 ∈ b.connectedPeers.keys

variable {b : Behaviour Peer}

theorem nodup_peers_countDial (h : (requests.map (·.peer)).Nodup) :
    ((countDial q more fresh requests).map (·.peer)).Nodup := by
  rw [peers_countDial]
  split_ifs with hq
  · exact h
  · refine List.nodup_append.mpr ⟨h, List.nodup_singleton q, ?_⟩
    rintro a ha b hb rfl
    exact hq (List.mem_singleton.mp hb ▸ ha)

theorem mem_peers_countDial :
    p ∈ (countDial q more fresh requests).map (·.peer) ↔ p = q ∨ p ∈ requests.map (·.peer) := by
  rw [peers_countDial]
  split_ifs with hq
  · constructor
    · exact .inr
    · rintro (rfl | h)
      · exact hq
      · exact h
  · rw [List.mem_append, List.mem_singleton, or_comm]

theorem Apart.createStream (h : Apart b) (peer : Peer) :
    Apart (b.createStream peer) ∧
      ∀ p, (b.createStream peer).waiting p = b.waiting p + if peer = p then 1 else 0 := by
  unfold Behaviour.createStream
  cases hget : b.connectedPeers.get peer with
  | none =>
    have hout := LinearMap.get_eq_none_iff.mp hget
    refine ⟨⟨nodup_peers_countDial h.dials, h.connections, ?_, h.connected⟩, ?_⟩
    · intro p hp
      rcases mem_peers_countDial.mp hp with rfl | hp
      · exact hout
      · exact h.dialed p hp
    · intro p
      simp only [waiting, dialing_countDial, ite_self, Nat.zero_add]
      omega
  | some id =>
    refine ⟨⟨h.dials, h.connections, h.dialed, ?_⟩, ?_⟩
    · intro r hr
      rcases List.mem_append.mp hr with hr | hr
      · exact h.connected r hr
      · rw [List.mem_singleton.mp hr]
        by_contra hout
        rw [LinearMap.get_eq_none_iff.mpr hout] at hget
        cases hget
    · intro p
      simp only [waiting, List.countP_append, List.countP_singleton, decide_eq_true_eq]
      omega

def dialErrors (r : DialRequest Peer) (message : String) : List (Event Peer) :=
  List.replicate (r.count + 1) (.outgoingStream r.peer (.error (.io (.other message))))

/-- A failed dial of a request queues an error for each stream of it. -/
theorem dialFailure_cases (peer : Option Peer) (connection : ConnectionId) (error : DialError) :
    (b.onSwarmEvent (.dialFailure peer connection error) = b ∧
      ∀ message, error = .other message →
        ∀ r ∈ b.dialRequests, r.connection ≠ some connection ∧ some r.peer ≠ peer) ∨
    ∃ r message, error = .other message ∧ r ∈ b.dialRequests ∧
      (r.connection = some connection ∨ some r.peer = peer) ∧
      b.onSwarmEvent (.dialFailure peer connection error) =
        { b with events := b.events ++ dialErrors r message } := by
  cases hfind : b.dialRequests.find? fun r =>
      r.connection = some connection ∨ some r.peer = peer with
  | none =>
    refine .inl ⟨?_, ?_⟩
    · simp only [onSwarmEvent, hfind]
    · intro message _ r hr
      simpa using List.find?_eq_none.mp hfind r hr
  | some r =>
    cases error with
    | dialPeerConditionFalse =>
      refine .inl ⟨?_, nofun⟩
      simp only [onSwarmEvent, hfind]
    | other message =>
      have hmatch := List.find?_some hfind
      refine .inr ⟨r, message, rfl, List.mem_of_find?_eq_some hfind, of_decide_eq_true hmatch, ?_⟩
      simp only [onSwarmEvent, hfind, dialErrors]

theorem countP_extractIf (requests : List (Peer × ConnectionId)) :
    (extractIf (fun r => r.1 = q) requests).2.countP (fun r => r.1 = p) +
      (if q = p then (extractIf (fun r => r.1 = q) requests).1.length else 0) =
        requests.countP fun r => r.1 = p := by
  unfold extractIf
  by_cases hq : q = p
  · subst hq
    have hnone : (requests.filter fun r => !decide (r.1 = q)).countP (fun r => r.1 = q) = 0 := by
      rw [List.countP_eq_zero]
      intro r hr
      simpa using (List.mem_filter.mp hr).2
    rw [hnone, if_pos rfl, Nat.zero_add, List.countP_eq_length_filter]
  · rw [if_neg hq, Nat.add_zero, List.countP_filter]
    refine List.countP_congr ?_
    intro r _
    simp only [Bool.and_eq_true, decide_eq_true_eq, Bool.not_eq_true', decide_eq_false_iff_not,
      and_iff_left_iff_imp]
    rintro rfl rfl
    exact hq rfl

theorem Apart.connectionClosed (h : Apart b) (peer : Peer) :
    Apart (b.onSwarmEvent (.connectionClosed peer)) ∧
      (∀ p, (b.onSwarmEvent (.connectionClosed peer)).waiting p = b.waiting p) ∧
      (b.onSwarmEvent (.connectionClosed peer)).events = b.events := by
  obtain ⟨hkeys, hremoved⟩ := LinearMap.keys_remove h.connections peer
  have hstreams : ∀ r ∈ (extractIf (fun r => r.1 = peer) b.streamRequests).2,
      r.1 ∈ (b.connectedPeers.remove peer).keys := by
    intro r hr
    obtain ⟨hmem, hne⟩ := List.mem_filter.mp hr
    exact (hremoved r.1).mpr ⟨h.connected r hmem, by simpa using hne⟩
  have hcount := fun p => countP_extractIf (q := peer) (p := p) b.streamRequests
  simp only [onSwarmEvent]
  cases hlen : (extractIf (fun r => r.1 = peer) b.streamRequests).1.length with
  | zero =>
    refine ⟨⟨h.dials, hkeys, ?_, hstreams⟩, ?_, rfl⟩
    · intro p hp hmem
      exact h.dialed p hp ((hremoved p).mp hmem).1
    · intro p
      have hp := hcount p
      simp only [hlen, ite_self, Nat.add_zero] at hp
      simp only [waiting, hp]
  | succ additional =>
    -- a peer with stream requests is connected, so it is not dialed
    have hnew : peer ∉ b.dialRequests.map (·.peer) := by
      intro hdialed
      obtain ⟨r, hr⟩ := List.exists_mem_of_length_eq_add_one hlen
      obtain ⟨hmem, hpeer⟩ := List.mem_filter.mp hr
      exact h.dialed peer hdialed (of_decide_eq_true hpeer ▸ h.connected r hmem)
    refine ⟨⟨nodup_peers_countDial h.dials, hkeys, ?_, hstreams⟩, ?_, rfl⟩
    · intro p hp hmem
      obtain ⟨hmem, hne⟩ := (hremoved p).mp hmem
      rcases mem_peers_countDial.mp hp with rfl | hp
      · exact hne rfl
      · exact h.dialed p hp hmem
    · intro p
      have hp := hcount p
      simp only [hlen] at hp
      simp only [waiting, dialing_countDial, if_neg hnew]
      omega

theorem dialing_perm (h : requests.Perm requests') (p : Peer) :
    dialing p requests = dialing p requests' :=
  (h.map _).sum_eq

theorem Apart.connectionEstablished (h : Apart b) (peer : Peer) (connection : ConnectionId) :
    Apart (b.onSwarmEvent (.connectionEstablished peer connection)) ∧
      (∀ p, (b.onSwarmEvent (.connectionEstablished peer connection)).waiting p =
        b.waiting p) ∧
      (b.onSwarmEvent (.connectionEstablished peer connection)).events = b.events := by
  have hkeys := LinearMap.nodup_keys_insert h.connections peer connection
  have hold : ∀ r ∈ b.streamRequests, r.1 ∈ (b.connectedPeers.insert peer connection).keys := by
    intro r hr
    exact LinearMap.mem_keys_insert.mpr (.inr (h.connected r hr))
  simp only [onSwarmEvent]
  cases hfind : findAndRemove (fun r => r.peer = peer) b.dialRequests with
  | none =>
    have hnone := findAndRemove_eq_none hfind
    refine ⟨⟨h.dials, hkeys, ?_, hold⟩, fun p => rfl, rfl⟩
    intro p hp hmem
    rcases LinearMap.mem_keys_insert.mp hmem with rfl | hmem
    · obtain ⟨r, hr, rfl⟩ := List.mem_map.mp hp
      simpa using hnone r hr
    · exact h.dialed p hp hmem
  | some found =>
    obtain ⟨r, rest⟩ := found
    obtain ⟨hpeer, hperm⟩ := findAndRemove_some hfind
    have hr : r.peer = peer := of_decide_eq_true hpeer
    have hpeers := hperm.map (·.peer)
    obtain ⟨hout, hnodup⟩ := List.nodup_cons.mp (hpeers.nodup_iff.mp h.dials)
    refine ⟨⟨hnodup, hkeys, ?_, ?_⟩, ?_, rfl⟩
    · intro p hp hmem
      rcases LinearMap.mem_keys_insert.mp hmem with rfl | hmem
      · rw [← hr] at hp
        exact hout hp
      · exact h.dialed p (hpeers.mem_iff.mpr (List.mem_cons_of_mem _ hp)) hmem
    · intro s hs
      rcases List.mem_append.mp hs with hs | hs
      · exact hold s hs
      · rw [(List.mem_replicate.mp hs).2]
        exact LinearMap.mem_keys_insert.mpr (.inl rfl)
    · intro p
      have hp := dialing_perm hperm p
      simp only [waiting, hp, List.countP_append, List.countP_replicate, decide_eq_true_eq]
      simp only [dialing, List.map_cons, List.sum_cons, hr]
      omega

theorem Apart.promote_eq (h : Apart b) : b.promote = b := by
  have hnone : ∀ r ∈ b.dialRequests, b.connectedPeers.get r.peer = none := by
    intro r hr
    exact LinearMap.get_eq_none_iff.mpr (h.dialed r.peer (List.mem_map_of_mem hr))
  have hdials : (b.dialRequests.filter fun r => (b.connectedPeers.get r.peer).isNone) =
      b.dialRequests := by
    refine List.filter_eq_self.mpr ?_
    intro r hr
    rw [hnone r hr, Option.isNone_none]
  rw [promote, hdials, List.flatMap_eq_nil_iff.mpr, List.append_nil]
  intro r hr
  rw [hnone r hr]

theorem Apart.poll (h : Apart b) (connection : ConnectionId) :
    Apart (b.poll connection).1 ∧ ∀ p, (b.poll connection).1.waiting p +
      (Ledger.passes p (b.poll connection).2).toNat = b.waiting p := by
  simp only [Behaviour.poll, h.promote_eq]
  cases hdial : dialFirst connection b.dialRequests with
  | some found =>
    obtain ⟨peer, requests⟩ := found
    obtain ⟨hpeers, hcounts⟩ := dialFirst_spec hdial
    refine ⟨⟨?_, h.connections, ?_, h.connected⟩, ?_⟩
    · rw [hpeers]
      exact h.dials
    · rw [hpeers]
      exact h.dialed
    · intro p
      simp only [waiting, hcounts, Ledger.passes, Bool.toNat_false, Nat.add_zero]
  | none =>
    obtain hnil | ⟨init, ⟨peer, id⟩, hconcat⟩ := List.eq_nil_or_concat b.streamRequests
    · have hlast : b.streamRequests.getLast? = none := by rw [hnil, List.getLast?_nil]
      simp only [hlast]
      cases b.events.getLast? with
      | none => exact ⟨h, fun p => rfl⟩
      | some event =>
        exact ⟨⟨h.dials, h.connections, h.dialed, h.connected⟩, fun p => rfl⟩
    · rw [List.concat_eq_append] at hconcat
      simp only [hconcat, List.getLast?_append, List.getLast?_singleton, Option.some_or,
        List.dropLast_concat]
      refine ⟨⟨h.dials, h.connections, h.dialed, ?_⟩, ?_⟩
      · intro r hr
        refine h.connected r ?_
        rw [hconcat]
        exact List.mem_append_left _ hr
      · intro p
        simp only [waiting, hconcat, List.countP_append, List.countP_singleton, Ledger.passes,
          decide_eq_true_eq]
        by_cases hp : peer = p
        · simp [hp, Nat.add_assoc]
        · simp [hp]

theorem countP_dialErrors (r : DialRequest Peer) (message : String) (p : Peer) :
    (dialErrors r message).countP (Event.failsFor p) = if r.peer = p then r.count + 1 else 0 := by
  rw [dialErrors, List.countP_replicate]
  simp [Event.failsFor]

end Behaviour

end Requests

section Work

variable {b b' : Behaviour Peer} {connection : ConnectionId}

namespace Behaviour

/-- What a dial request may still cause: a dial, and a stream request for each
stream, which is popped again. -/
def dialWork (requests : List (DialRequest Peer)) : ℕ :=
  (requests.map fun r => 2 * (r.count + 1) + r.connection.isNone.toNat).sum

def work (b : Behaviour Peer) : ℕ :=
  dialWork b.dialRequests + b.streamRequests.length + b.events.length

theorem work_promote (b : Behaviour Peer) : b.promote.work ≤ b.work := by
  have hmoved : ∀ requests, (promote { b with dialRequests := requests }).work ≤
      work { b with dialRequests := requests } := by
    intro requests
    induction requests with
    | nil => simp [promote, work, dialWork]
    | cons r requests ih =>
      simp only [work, promote, dialWork, List.length_append] at ih ⊢
      cases hget : b.connectedPeers.get r.peer with
      | none =>
        simp only [List.filter_cons, hget, Option.isNone_none, if_true, List.map_cons,
          List.sum_cons, List.flatMap_cons, List.nil_append]
        omega
      | some id =>
        simp only [List.filter_cons, hget, Option.isNone_some, Bool.false_eq_true, if_false,
          List.map_cons, List.sum_cons, List.flatMap_cons, List.length_append,
          List.length_replicate]
        omega
  exact hmoved b.dialRequests

omit [DecidableEq Peer] in
theorem dialWork_dialFirst {requests requests' : List (DialRequest Peer)} {q : Peer}
    (h : dialFirst connection requests = some (q, requests')) :
    dialWork requests' < dialWork requests := by
  induction requests generalizing requests' with
  | nil => cases h
  | cons r requests ih =>
    unfold dialFirst at h
    split_ifs at h with hnone
    · cases h
      simp [dialWork, hnone]
    · obtain ⟨⟨q', rest⟩, hrest, heq⟩ := Option.map_eq_some_iff.mp h
      cases heq
      have hless := ih hrest
      simp only [dialWork, List.map_cons, List.sum_cons] at hless ⊢
      omega

/-- A poll that does not tell to wait has done some of the work. -/
theorem work_poll {out : Poll (ToSwarm Peer (Event Peer))}
    (h : b.poll connection = (b', out)) : out = .pending ∨ b'.work < b.work := by
  have hle := b.work_promote
  simp only [poll] at h
  split at h
  · next hdial =>
    cases h
    have hless := dialWork_dialFirst hdial
    simp only [work] at hle ⊢
    exact .inr (by omega)
  split at h
  · next hlast =>
    cases h
    have hless := length_dropLast_of_getLast? hlast
    simp only [work] at hle ⊢
    exact .inr (by omega)
  split at h
  · next hlast =>
    cases h
    have hless := length_dropLast_of_getLast? hlast
    simp only [work] at hle ⊢
    exact .inr (by omega)
  · cases h
    exact .inl rfl

end Behaviour

end Work

section Outcomes

variable {l l' : Ledger Peer} {a : Action Peer}

namespace Ledger

/-- What holds as long as no dial failed. -/
structure Sound (l : Ledger Peer) : Prop where
  apart : l.behaviour.Apart
  balance : ∀ p, l.created p = l.behaviour.waiting p + l.passed p + l.failed p
  unreported : ∀ p, l.reported p = false

theorem Sound.settled (h : Sound l) : Settled l := by
  refine ⟨h.balance, ?_⟩
  intro p hp
  rw [h.unreported p] at hp
  cases hp

theorem Sound.fresh : Sound ({} : Ledger Peer) := by
  refine ⟨⟨List.nodup_nil, List.nodup_nil, ?_, ?_⟩, fun p => rfl, fun p => rfl⟩
  · intro p hp
    cases hp
  · intro r hr
    cases hr

/-- A swarm event that queues nothing. -/
theorem Sound.quiet (h : Sound l) {event : FromSwarm Peer}
    (hapart : (l.behaviour.onSwarmEvent event).Apart)
    (hwaiting : ∀ p, (l.behaviour.onSwarmEvent event).waiting p = l.behaviour.waiting p)
    (hevents : (l.behaviour.onSwarmEvent event).events = l.behaviour.events) :
    Sound (l.step (.swarm event)) := by
  refine ⟨hapart, ?_, ?_⟩
  · intro p
    simp only [step, hevents, List.drop_length, List.countP_nil, Nat.add_zero, hwaiting]
    exact h.balance p
  · intro p
    simp only [step, hevents, List.drop_length, List.any_nil, Bool.or_false]
    exact h.unreported p

theorem Sound.step (h : Sound l) (hok : NoneDialed l a) (hstep : Step l a l') : Sound l' := by
  cases hstep
  cases a with
  | createStream peer =>
    obtain ⟨hapart, hwaiting⟩ := h.apart.createStream peer
    refine ⟨hapart, ?_, ?_⟩
    · intro p
      have hp := h.balance p
      simp only [Ledger.step, hwaiting, Function.update_apply]
      by_cases hpeer : p = peer
      · subst hpeer
        simp only [if_true]
        omega
      · simp only [hpeer, Ne.symm hpeer, if_false, Nat.add_zero]
        exact hp
    · intro p
      simp only [Ledger.step, Function.update_apply, h.unreported, ite_self]
  | swarm event =>
    cases event with
    | dialFailure peer connection error =>
      rcases l.behaviour.dialFailure_cases peer connection error with
        ⟨heq, -⟩ | ⟨r, message, rfl, hr, hmatch, -⟩
      · apply h.quiet
        · rw [heq]
          exact h.apart
        · intro p
          rw [heq]
        · rw [heq]
      · obtain ⟨hconnection, hpeer⟩ := hok peer connection message rfl r hr
        rcases hmatch with hmatch | hmatch
        · exact absurd hmatch hconnection
        · exact absurd hmatch hpeer
    | connectionClosed peer =>
      obtain ⟨hapart, hwaiting, hevents⟩ := h.apart.connectionClosed peer
      exact h.quiet hapart hwaiting hevents
    | connectionEstablished peer connection =>
      obtain ⟨hapart, hwaiting, hevents⟩ := h.apart.connectionEstablished peer connection
      exact h.quiet hapart hwaiting hevents
  | handler peer event =>
    exact ⟨⟨h.apart.dials, h.apart.connections, h.apart.dialed, h.apart.connected⟩, h.balance,
      h.unreported⟩
  | poll connection =>
    obtain ⟨hapart, hwaiting⟩ := h.apart.poll connection
    refine ⟨hapart, ?_, h.unreported⟩
    intro p
    have hp := h.balance p
    have hpoll := hwaiting p
    simp only [Ledger.step]
    omega

/-- The streams of a failed dial are counted twice. -/
theorem Sound.noneDialed (h : Sound l) (hstep : Step l a l') (hafter : Settled l') :
    NoneDialed l a := by
  rintro peer connection message rfl
  cases hstep
  rcases l.behaviour.dialFailure_cases peer connection (.other message) with
    ⟨-, hnone⟩ | ⟨r, message', -, -, -, heq⟩
  · exact hnone message rfl
  · have hbefore := h.balance r.peer
    have hsum := hafter.balance r.peer
    simp only [Ledger.step, heq, List.drop_left, Behaviour.countP_dialErrors, if_true] at hsum
    have hwaiting : ∀ events,
        Behaviour.waiting { l.behaviour with events := events } r.peer =
          l.behaviour.waiting r.peer := fun events => rfl
    rw [hwaiting] at hsum
    omega

/-- Every stream has one outcome throughout a run exactly if no dial request
fails in it. -/
theorem settled_iff_noneDialed {actions : List (Action Peer)}
    (h : Run Step ({} : Ledger Peer) actions l) :
    (∀ actions' l', actions' <+: actions → Run Step ({} : Ledger Peer) actions' l' → Settled l') ↔
      Run (guarded NoneDialed Step) ({} : Ledger Peer) actions l := by
  refine Run.forall_iff_guarded (I := Sound) ?_ Sound.fresh ?_ ?_ ?_ h
  · intro s a t u ht hu
    exact ht.trans hu.symm
  · intro t ht
    exact ht.settled
  · intro t a u ht hok hstep
    exact ht.step hok hstep
  · intro t a u ht hstep hu
    exact ht.noneDialed hstep hu

def runOf (actions : List (Action Unit)) : Ledger Unit := actions.foldl step {}

theorem run_runOf (actions : List (Action Unit)) : Run Step {} actions (runOf actions) := by
  apply Run.of_foldl
  intro l a
  rfl

/-- A peer is dialed, connected, and gets its stream. -/
def connected : List (Action Unit) :=
  [.createStream (), .poll 0, .swarm (.connectionEstablished () 0), .poll 1]

theorem settled_iff_noneDialed_connected :
    (runOf connected).passed () = 1 ∧ Settled (runOf connected) := by
  have hguarded : Run (guarded NoneDialed Step) {} connected (runOf connected) := by
    refine (run_runOf connected).guard ?_
    rintro _ hmem _ peer connection message rfl
    simp [connected] at hmem
  exact ⟨by decide +kernel,
    (settled_iff_noneDialed (run_runOf connected)).mpr hguarded _ _ List.prefix_rfl
      (run_runOf connected)⟩

/-- A peer is dialed in vain. -/
def refused : List (Action Unit) :=
  [.createStream (), .poll 0, .swarm (.dialFailure (some ()) 0 (.other "refused"))]

/-- The stream is reported to have failed and waits on. -/
theorem failed_dial_waits :
    ¬ ∀ (actions : List (Action Unit)) (l : Ledger Unit),
      Run Step ({} : Ledger Unit) actions l → Settled l := by
  intro h
  have hresolved := (h refused _ (run_runOf refused)).resolved () (by decide +kernel)
  revert hresolved
  decide +kernel

end Ledger

end Outcomes

end OrionNetwork.Streaming
