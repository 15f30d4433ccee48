import OrionNetwork.NodeStaker
import OrionNetwork.Dht

/-!
# Routes of the staked nodes

A server reads the list of nodes from the contract once, puts all of them in
its routing table and follows the events from then on. The contract tells
stakes apart by the hashes of their keys, the table tells routes apart by the
node id that a stake names, so the two agree as long as no two stakes name the
same id.
-/
namespace OrionNetwork.StakeMirror
open Codec BlockHash Collections Runs NodeStaker Dht SortedVectors

inductive Component where
  | ip4 (octets : Bytes)
  | ip6 (octets : Bytes)
  | tcp (port : ℕ)
  deriving DecidableEq

abbrev Multiaddr := List Component

def portOf (high low : UInt8) : ℕ := 256 * high.toNat + low.toNat

def unpackNodeAddr : NodeAddress → Multiaddr
  | .ip4 bytes => [.ip4 (bytes.toList.take 4), .tcp (portOf (bytes.get 4) (bytes.get 5))]
  | .ip6 bytes => [.ip6 (bytes.toList.take 16), .tcp (portOf (bytes.get 16) (bytes.get 17))]

def unpackNodeId (keys : Keys) (id : Ed) : Option Ed :=
  if keys.tryFromBytes id then some id else none

/-- An id that is no key is logged and the event ignored. -/
def handleStakeEvent (keys : Keys) (table : RoutingTable Multiaddr) :
    Event → RoutingTable Multiaddr
  | .joined identity addr =>
    match unpackNodeId keys identity with
    | none => table
    | some pk => table.insert (.new pk (unpackNodeAddr addr))
  | .reclaimed identity =>
    match unpackNodeId keys identity with
    | none => table
    | some pk => (table.remove (keys.toPeerId pk)).1
  | .addrChanged identity addr =>
    match unpackNodeId keys identity with
    | none => table
    | some pk => table.insert (.new pk (unpackNodeAddr addr))

/-- The table of a new server. An id that is no key keeps it from starting. -/
def serverNew (keys : Keys) (nodeList : List (NodeData × NodeAddress)) :
    Option (RoutingTable Multiaddr) :=
  (nodeList.mapM fun entry => (unpackNodeId keys entry.1.id).map fun pk =>
    Route.new pk (unpackNodeAddr entry.2)).bind RoutingTable.empty.bulkInsert

/-- The event of a message, if it did not panic. -/
def emitted (w : World) (c : Call) : Option Event :=
  match c.message with
  | .join data addr => (w.staker.join (w.env c) data addr).map (·.2)
  | .vote _ _ _ => none
  | .changeAddr identity addr =>
    if c.value ≠ 0 then none else (w.staker.changeAddr (w.env c) identity addr).map (·.2)
  | .reclaim identity =>
    if c.value ≠ 0 then none else (w.staker.reclaim (w.env c) identity).map (·.2.2)

/-- The contract and the table of a server, once there is one. -/
structure System where
  world : World
  table : Option (RoutingTable Multiaddr)

inductive Action where
  | call (c : Call)
  | start

namespace System

def fresh (endowment : ℕ) : System := ⟨.fresh endowment, none⟩

/-- A server may start at any point, with the list of that moment. -/
def step (keys : Keys) (s : System) : Action → System
  | .call c =>
    { world := (s.world.execute c).getD s.world
      table := s.table.map fun table =>
        match emitted s.world c with
        | none => table
        | some event => handleStakeEvent keys table event }
  | .start => { s with table := s.world.staker.list.bind (serverNew keys) }

def Step (keys : Keys) (s : System) (a : Action) (s' : System) : Prop := s' = s.step keys a

end System

def routeOf (entry : NodeData × NodeAddress) : Route Multiaddr :=
  .new entry.1.id (unpackNodeAddr entry.2)

/-- One route for each node of the current list, and no other. -/
def System.Mirrors (s : System) : Prop :=
  ∀ table, s.table = some table →
    ∃ nodes, s.world.staker.list = some nodes ∧ table.routes.Perm (nodes.map routeOf)

/-- What the list and the events tell about a stake. -/
def seats (s : Staker) (id : NodeIdentity) : Option (Ed × NodeAddress) :=
  (s.stakes id).map fun stake => (stake.id, stake.addr)

def seatRoute (seat : Ed × NodeAddress) : Route Multiaddr := .new seat.1 (unpackNodeAddr seat.2)

/-- No two stakes name the same id. -/
def Distinct (s : Staker) : Prop :=
  ∀ id id' seat seat', seats s id = some seat → seats s id' = some seat' →
    seat.1 = seat'.1 → id = id'

/-- What a step must meet: an id that joins while a server follows is a key
that no current stake names, and no id is on the list twice when a server starts.
A join that the contract turns down may name anything. -/
def Unshared (keys : Keys) (s : System) : Action → Prop
  | .call c => ∀ data addr, c.message = .join data addr → c.value = stakeAmount →
      s.world.staker.stakes ⟨data.sign, data.enc⟩ = none → s.table ≠ none →
        keys.tryFromBytes data.id = true ∧
          ∀ id stake, s.world.staker.stakes id = some stake → stake.id ≠ data.id
  | .start => Distinct s.world.staker

section Contract

variable {s s' : Staker} {w : World} {c : Call}

/-- The list is the domain of the stakes. -/
structure Listed (s : Staker) : Prop where
  nodup : s.stakeList.Nodup
  mem : ∀ id, id ∈ s.stakeList ↔ seats s id ≠ none

/-- What a message may do to the stakes, with the event it emits. -/
inductive Effect (s : Staker) : Option Event → Staker → Prop where
  | none (s' : Staker) (hseats : seats s' = seats s) (hlist : s'.stakeList = s.stakeList) :
      Effect s none s'
  | joined (s' : Staker) (id : NodeIdentity) (seat : Ed × NodeAddress) (hfree : seats s id = none)
      (hseats : seats s' = Function.update (seats s) id (some seat))
      (hlist : s'.stakeList = s.stakeList ++ [id]) :
      Effect s (some (.joined seat.1 seat.2)) s'
  | addrChanged (s' : Staker) (id : NodeIdentity) (seat : Ed × NodeAddress) (addr : NodeAddress)
      (hseat : seats s id = some seat)
      (hseats : seats s' = Function.update (seats s) id (some (seat.1, addr)))
      (hlist : s'.stakeList = s.stakeList) :
      Effect s (some (.addrChanged seat.1 addr)) s'
  | reclaimed (s' : Staker) (id : NodeIdentity) (seat : Ed × NodeAddress)
      (hseat : seats s id = some seat) (hseats : seats s' = Function.update (seats s) id none)
      (hlist : (id ∉ s.stakeList ∧ s'.stakeList = s.stakeList) ∨
        s.stakeList.Perm (id :: s'.stakeList)) :
      Effect s (some (.reclaimed seat.1)) s'

theorem seats_update {id : NodeIdentity} (stake : Option Stake)
    (h : s'.stakes = Function.update s.stakes id stake) :
    seats s' = Function.update (seats s) id (stake.map fun st => (st.id, st.addr)) := by
  funext other
  by_cases hid : other = id
  · subst hid
    simp [seats, h]
  · simp [seats, h, Function.update_of_ne hid]

theorem vote_effect {env : Env} {identity target : NodeIdentity} {rating : ℤ}
    (h : s.vote env identity target rating = some s') : Effect s none s' := by
  obtain ⟨stake, targetStake, sum, hstake, htarget, -, -, -, -, -, rfl⟩ := vote_cases h
  refine .none _ ?_ rfl
  funext id
  simp only [seats, Function.update_apply]
  split_ifs with hid hid'
  · rw [hid, htarget]
    rfl
  · rw [hid', hstake]
    rfl
  · rfl

theorem join_effect {env : Env} {data : NodeData} {addr : NodeAddress} {event : Event}
    (h : s.join env data addr = some (s', event)) : Effect s (some event) s' := by
  obtain ⟨-, hfree, rfl, hlist, stake, -, -, hid, haddr, hstakes⟩ := join_cases h
  refine .joined s' ⟨data.sign, data.enc⟩ (data.id, addr) ?_ ?_ hlist
  · rw [seats, hfree, Option.map_none]
  · rw [seats_update (some stake) hstakes, Option.map_some, hid, haddr]

theorem changeAddr_effect {env : Env} {identity : NodeIdentity} {addr : NodeAddress}
    {event : Event} (h : s.changeAddr env identity addr = some (s', event)) :
    Effect s (some event) s' := by
  obtain ⟨stake, hstake, -, rfl, rfl⟩ := changeAddr_cases h
  refine .addrChanged _ identity (stake.id, stake.addr) addr ?_ ?_ rfl
  · rw [seats, hstake, Option.map_some]
  · exact seats_update (some { stake with addr := addr }) rfl

theorem reclaim_effect {env : Env} {identity : NodeIdentity} {value : ℕ} {event : Event}
    (h : s.reclaim env identity = some (s', value, event)) : Effect s (some event) s' := by
  obtain ⟨stake, hstake, -, -, -, rfl, hstakes, hlist⟩ := reclaim_cases h
  refine .reclaimed s' identity (stake.id, stake.addr) ?_ (seats_update none hstakes) hlist
  rw [seats, hstake, Option.map_some]

theorem call_effect (w : World) (c : Call) :
    Effect w.staker (emitted w c) ((w.execute c).getD w).staker := by
  obtain ⟨caller, timestamp, value, message⟩ := c
  cases message with
  | join data addr =>
    simp only [World.execute, emitted]
    cases h : w.staker.join (w.env ⟨caller, timestamp, value, .join data addr⟩) data addr with
    | none => exact .none _ rfl rfl
    | some r => exact join_effect h
  | vote identity target rating =>
    simp only [World.execute, emitted]
    split_ifs
    · exact .none _ rfl rfl
    · cases h : w.staker.vote (w.env ⟨caller, timestamp, value, .vote identity target rating⟩)
          identity target rating with
      | none => exact .none _ rfl rfl
      | some r => exact vote_effect h
  | changeAddr identity addr =>
    simp only [World.execute, emitted]
    split_ifs
    · exact .none _ rfl rfl
    · cases h : w.staker.changeAddr (w.env ⟨caller, timestamp, value, .changeAddr identity addr⟩)
          identity addr with
      | none => exact .none _ rfl rfl
      | some r => exact changeAddr_effect h
  | reclaim identity =>
    simp only [World.execute, emitted]
    split_ifs
    · exact .none _ rfl rfl
    · cases h : w.staker.reclaim (w.env ⟨caller, timestamp, value, .reclaim identity⟩)
          identity with
      | none => exact .none _ rfl rfl
      | some r => exact reclaim_effect h

end Contract

section Table

variable {keys : Keys} {s s' : Staker} {table : RoutingTable Multiaddr}

/-- The table has the routes of the stakes. -/
structure Faithful (keys : Keys) (s : Staker) (table : RoutingTable Multiaddr) : Prop where
  sorted : Sorted table
  valid : ∀ id seat, seats s id = some seat → keys.tryFromBytes seat.1 = true
  distinct : Distinct s
  routes : ∀ r, r ∈ table.routes ↔ ∃ id seat, seats s id = some seat ∧ r = seatRoute seat

theorem Listed.effect {event : Option Event} (h : Listed s) (heffect : Effect s event s') :
    Listed s' := by
  cases heffect with
  | none _ hseats hlist => exact ⟨hlist ▸ h.nodup, by rw [hlist, hseats]; exact h.mem⟩
  | joined _ id seat hfree hseats hlist =>
    have hnew : id ∉ s.stakeList := fun hmem => (h.mem id).mp hmem hfree
    refine ⟨?_, ?_⟩
    · rw [hlist]
      exact List.nodup_append.mpr ⟨h.nodup, List.nodup_singleton id, by
        rintro a ha _ hb rfl
        exact hnew (List.mem_singleton.mp hb ▸ ha)⟩
    · intro other
      rw [hlist, hseats, List.mem_append, List.mem_singleton, h.mem, Function.update_apply]
      split_ifs with hid
      · simp [hid]
      · simp [hid]
  | addrChanged _ id seat addr hseat hseats hlist =>
    refine ⟨hlist ▸ h.nodup, ?_⟩
    intro other
    rw [hlist, hseats, h.mem, Function.update_apply]
    split_ifs with hid
    · simp [hid, hseat]
    · rfl
  | reclaimed _ id seat hseat hseats hlist =>
    have hmem : id ∈ s.stakeList := (h.mem id).mpr (by rw [hseat]; simp)
    rcases hlist with ⟨hout, -⟩ | hperm
    · exact absurd hmem hout
    obtain ⟨hout, hnodup⟩ := List.nodup_cons.mp (hperm.nodup_iff.mp h.nodup)
    refine ⟨hnodup, ?_⟩
    intro other
    have hother := (hperm.mem_iff (a := other)).symm.trans (h.mem other)
    rw [List.mem_cons] at hother
    rw [hseats, Function.update_apply]
    split_ifs with hid
    · simp [hid, hout]
    · rw [← hother]
      simp [hid]

theorem seatRoute_key {seat seat' : Ed × NodeAddress} :
    (seatRoute seat).key = (seatRoute seat').key ↔ seat.1 = seat'.1 := by
  constructor
  · intro h
    exact ofHash_injective (BitVec.eq_of_toNat_eq h)
  · intro h
    rw [seatRoute, seatRoute, Route.key, Route.key, Route.new, Route.new, h]

/-- A seat that is filled gets its route. -/
theorem Faithful.update (h : Faithful keys s table) {id : NodeIdentity} {seat : Ed × NodeAddress}
    (hvalid : keys.tryFromBytes seat.1 = true)
    (hother : ∀ id' seat', seats s id' = some seat' → seat'.1 = seat.1 → id' = id)
    (hsame : ∀ seat', seats s id = some seat' → seat'.1 = seat.1)
    (hseats : seats s' = Function.update (seats s) id (some seat)) :
    Faithful keys s' (table.insert (seatRoute seat)) := by
  obtain ⟨hsorted, hroutes⟩ := insert_spec h.sorted (seatRoute seat)
  have hcases : ∀ id' seat', seats s' id' = some seat' →
      (id' = id ∧ seat' = seat) ∨ (id' ≠ id ∧ seats s id' = some seat') := by
    intro id' seat' hseat
    rw [hseats, Function.update_apply] at hseat
    split_ifs at hseat with hid
    · exact .inl ⟨hid, (Option.some.inj hseat).symm⟩
    · exact .inr ⟨hid, hseat⟩
  refine ⟨hsorted, ?_, ?_, ?_⟩
  · intro id' seat' hseat
    rcases hcases id' seat' hseat with ⟨-, rfl⟩ | ⟨-, hseat⟩
    · exact hvalid
    · exact h.valid id' seat' hseat
  · intro id₁ id₂ seat₁ seat₂ h₁ h₂ heq
    rcases hcases id₁ seat₁ h₁ with ⟨rfl, rfl⟩ | ⟨hne₁, h₁⟩ <;>
      rcases hcases id₂ seat₂ h₂ with ⟨rfl, rfl⟩ | ⟨hne₂, h₂⟩
    · rfl
    · exact (hother id₂ seat₂ h₂ heq.symm).symm
    · exact hother id₁ seat₁ h₁ heq
    · exact h.distinct id₁ id₂ seat₁ seat₂ h₁ h₂ heq
  · intro r
    rw [hroutes, h.routes]
    constructor
    · rintro (rfl | ⟨⟨id', seat', hseat, rfl⟩, hne⟩)
      · exact ⟨id, seat, by rw [hseats, Function.update_self], rfl⟩
      · refine ⟨id', seat', ?_, rfl⟩
        have hid : id' ≠ id := by
          rintro rfl
          exact hne (seatRoute_key.mpr (hsame seat' hseat))
        rw [hseats, Function.update_of_ne hid, hseat]
    · rintro ⟨id', seat', hseat, rfl⟩
      rcases hcases id' seat' hseat with ⟨-, rfl⟩ | ⟨hne, hseat⟩
      · exact .inl rfl
      · refine .inr ⟨⟨id', seat', hseat, rfl⟩, ?_⟩
        intro hkey
        exact hne (hother id' seat' hseat (seatRoute_key.mp hkey))

theorem Faithful.reclaim (h : Faithful keys s table) {id : NodeIdentity}
    {seat : Ed × NodeAddress} (hseat : seats s id = some seat)
    (hseats : seats s' = Function.update (seats s) id none) :
    Faithful keys s' (table.remove (keys.toPeerId seat.1)).1 := by
  obtain ⟨hsorted, hroutes⟩ := remove_spec h.sorted (keys.toPeerId seat.1)
  have hkept : ∀ id' seat', seats s' id' = some seat' → id' ≠ id ∧ seats s id' = some seat' := by
    intro id' seat' hseat'
    rw [hseats, Function.update_apply] at hseat'
    split_ifs at hseat' with hid
    exact ⟨hid, hseat'⟩
  refine ⟨hsorted, ?_, ?_, ?_⟩
  · intro id' seat' hseat'
    exact h.valid id' seat' (hkept id' seat' hseat').2
  · intro id₁ id₂ seat₁ seat₂ h₁ h₂
    exact h.distinct id₁ id₂ seat₁ seat₂ (hkept _ _ h₁).2 (hkept _ _ h₂).2
  · intro r
    rw [hroutes, h.routes, tryPeerIdToEd_toPeerId]
    constructor
    · rintro ⟨⟨id', seat', hseat', rfl⟩, hne⟩
      refine ⟨id', seat', ?_, rfl⟩
      have hid : id' ≠ id := by
        rintro rfl
        rw [hseat] at hseat'
        cases hseat'
        exact hne _ rfl rfl
      rw [hseats, Function.update_of_ne hid, hseat']
    · rintro ⟨id', seat', hseat', rfl⟩
      obtain ⟨hne, hseat'⟩ := hkept id' seat' hseat'
      refine ⟨⟨id', seat', hseat', rfl⟩, ?_⟩
      rintro _ ⟨⟩ hid
      exact hne (h.distinct id' id seat' seat hseat' hseat (ofHash_injective hid))

/-- A followed event keeps the table up to date. -/
theorem Faithful.effect {event : Event} (h : Faithful keys s table)
    (heffect : Effect s (some event) s')
    (hjoin : ∀ ed addr, event = .joined ed addr → keys.tryFromBytes ed = true ∧
      ∀ id seat, seats s id = some seat → seat.1 ≠ ed) :
    Faithful keys s' (handleStakeEvent keys table event) := by
  cases heffect with
  | joined _ id seat hfree hseats hlist =>
    obtain ⟨hvalid, hnew⟩ := hjoin seat.1 seat.2 rfl
    simp only [handleStakeEvent, unpackNodeId, hvalid, if_true]
    refine h.update hvalid ?_ ?_ hseats
    · intro id' seat' hseat heq
      exact absurd heq (hnew id' seat' hseat)
    · intro seat' hseat
      rw [hfree] at hseat
      cases hseat
  | addrChanged _ id seat addr hseat hseats hlist =>
    have hvalid := h.valid id seat hseat
    simp only [handleStakeEvent, unpackNodeId, hvalid, if_true]
    have hother : ∀ id' seat', seats s id' = some seat' → seat'.1 = seat.1 → id' = id :=
      fun id' seat' hseat' heq => h.distinct id' id seat' seat hseat' hseat heq
    have hsame : ∀ seat', seats s id = some seat' → seat'.1 = seat.1 := by
      intro seat' hseat'
      rw [hseat] at hseat'
      cases hseat'
      rfl
    refine h.update ?_ ?_ ?_ hseats
    · exact hvalid
    · exact hother
    · exact hsame
  | reclaimed _ id seat hseat hseats hlist =>
    simp only [handleStakeEvent, unpackNodeId, h.valid id seat hseat, if_true]
    exact h.reclaim hseat hseats

theorem list_eq (h : Listed s) : ∃ nodes, s.list = some nodes ∧
    nodes.map routeOf = (s.stakeList.filterMap (seats s)).map seatRoute := by
  have hall : ∀ id ∈ s.stakeList, seats s id ≠ none := fun id hid => (h.mem id).mp hid
  unfold Staker.list
  generalize s.stakeList = ids at hall
  induction ids with
  | nil => exact ⟨[], rfl, rfl⟩
  | cons id ids ih =>
    obtain ⟨nodes, hnodes, hroutes⟩ := ih fun id hid => hall id (List.mem_cons_of_mem _ hid)
    obtain ⟨seat, hseat⟩ := Option.ne_none_iff_exists'.mp (hall id List.mem_cons_self)
    obtain ⟨stake, hstake, rfl⟩ := Option.map_eq_some_iff.mp hseat
    refine ⟨(⟨id.sign, id.enc, stake.id⟩, stake.addr) :: nodes, ?_, ?_⟩
    · rw [List.mapM_cons, hnodes, hstake]
      rfl
    · rw [List.map_cons, hroutes, List.filterMap_cons_some hseat, List.map_cons]
      rfl

theorem seatRoutes_nodup (h : Listed s) (hdistinct : Distinct s) :
    (((s.stakeList.filterMap (seats s)).map seatRoute).map Route.key).Nodup := by
  rw [List.map_map, List.map_filterMap]
  refine h.nodup.filterMap ?_
  intro id id' key hkey hkey'
  obtain ⟨seat, hseat, rfl⟩ := Option.map_eq_some_iff.mp hkey
  obtain ⟨seat', hseat', heq⟩ := Option.map_eq_some_iff.mp hkey'
  exact hdistinct id id' seat seat' hseat hseat' (seatRoute_key.mp heq.symm)

theorem mem_seatRoutes (h : Listed s) (r : Route Multiaddr) :
    r ∈ (s.stakeList.filterMap (seats s)).map seatRoute ↔
      ∃ id seat, seats s id = some seat ∧ r = seatRoute seat := by
  rw [List.mem_map]
  constructor
  · rintro ⟨seat, hseat, rfl⟩
    obtain ⟨id, -, hid⟩ := List.mem_filterMap.mp hseat
    exact ⟨id, seat, hid, rfl⟩
  · rintro ⟨id, seat, hseat, rfl⟩
    have hmem : id ∈ s.stakeList := (h.mem id).mpr (by rw [hseat]; simp)
    exact ⟨seat, List.mem_filterMap.mpr ⟨id, hmem, hseat⟩, rfl⟩

theorem Faithful.perm (h : Faithful keys s table) (hlisted : Listed s) :
    table.routes.Perm ((s.stakeList.filterMap (seats s)).map seatRoute) := by
  have hnodup := (seatRoutes_nodup hlisted h.distinct).of_map
  refine (List.perm_ext_iff_of_nodup h.sorted.nodup hnodup).mpr ?_
  intro r
  rw [h.routes, mem_seatRoutes hlisted]

/-- The ids that a server starts with are all keys. -/
theorem unpacked {nodes : List (NodeData × NodeAddress)} {routes : List (Route Multiaddr)}
    (h : (nodes.mapM fun entry => (unpackNodeId keys entry.1.id).map fun pk =>
      Route.new pk (unpackNodeAddr entry.2)) = some routes) :
    routes = nodes.map routeOf ∧ ∀ entry ∈ nodes, keys.tryFromBytes entry.1.id = true := by
  induction nodes generalizing routes with
  | nil =>
    cases h
    exact ⟨rfl, by simp⟩
  | cons entry nodes ih =>
    rw [List.mapM_cons, Option.bind_eq_bind, Option.bind_eq_some_iff] at h
    obtain ⟨route, hroute, h⟩ := h
    rw [Option.bind_eq_bind, Option.bind_eq_some_iff] at h
    obtain ⟨rest, hrest, h⟩ := h
    cases h
    obtain ⟨rfl, hvalid⟩ := ih hrest
    unfold unpackNodeId at hroute
    split_ifs at hroute with hkey
    · cases hroute
      refine ⟨rfl, ?_⟩
      intro entry' hmem
      rcases List.mem_cons.mp hmem with rfl | hmem
      · exact hkey
      · exact hvalid entry' hmem
    · cases hroute

theorem Faithful.start (hlisted : Listed s) (hdistinct : Distinct s)
    (h : s.list.bind (serverNew keys) = some table) : Faithful keys s table := by
  obtain ⟨nodes, hlist, hroutes⟩ := list_eq hlisted
  rw [hlist, Option.bind_some, serverNew, Option.bind_eq_some_iff] at h
  obtain ⟨routes, hunpack, hbulk⟩ := h
  obtain ⟨rfl, hvalid⟩ := unpacked hunpack
  have hnodup : ((nodes.map routeOf).map Route.key).Nodup := by
    rw [hroutes]
    exact seatRoutes_nodup hlisted hdistinct
  obtain ⟨hsorted, hperm⟩ := bulkInsert_spec hbulk hnodup
  refine ⟨hsorted, ?_, hdistinct, ?_⟩
  · intro id seat hseat
    have hmem : seatRoute seat ∈ nodes.map routeOf := by
      rw [hroutes, mem_seatRoutes hlisted]
      exact ⟨id, seat, hseat, rfl⟩
    obtain ⟨entry, hentry, heq⟩ := List.mem_map.mp hmem
    have hid : entry.1.id = seat.1 := ofHash_injective (congrArg Route.id heq)
    rw [← hid]
    exact hvalid entry hentry
  · intro r
    rw [hperm.mem_iff, hroutes, mem_seatRoutes hlisted]

end Table

section Following

variable {keys : Keys} {s s' : System} {a : Action}

structure Following (keys : Keys) (s : System) : Prop where
  listed : Listed s.world.staker
  faithful : ∀ table, s.table = some table → Faithful keys s.world.staker table

theorem Following.fresh (endowment : ℕ) : Following keys (.fresh endowment) := by
  refine ⟨⟨List.nodup_nil, ?_⟩, ?_⟩
  · intro id
    simp [System.fresh, World.fresh, Staker.new, seats]
  · intro table h
    cases h

/-- The joined event carries the id of an accepted message. -/
theorem emitted_joined {w : World} {c : Call} {ed : Ed} {addr : NodeAddress}
    (h : emitted w c = some (.joined ed addr)) :
    ∃ data, c.message = .join data addr ∧ data.id = ed ∧ c.value = stakeAmount ∧
      w.staker.stakes ⟨data.sign, data.enc⟩ = none := by
  unfold emitted at h
  split at h
  · next data addr' hmessage =>
    obtain ⟨r, hr, heq⟩ := Option.map_eq_some_iff.mp h
    obtain ⟨hvalue, hfree, hevent, -⟩ := join_cases hr
    rw [hevent] at heq
    cases heq
    exact ⟨data, hmessage, rfl, hvalue, hfree⟩
  · cases h
  · split_ifs at h
    obtain ⟨r, hr, heq⟩ := Option.map_eq_some_iff.mp h
    obtain ⟨stake, -, -, hevent, -⟩ := changeAddr_cases hr
    rw [hevent] at heq
    cases heq
  · split_ifs at h
    obtain ⟨r, hr, heq⟩ := Option.map_eq_some_iff.mp h
    obtain ⟨stake, -, -, -, -, hevent, -⟩ := reclaim_cases hr
    rw [hevent] at heq
    cases heq

theorem Following.step (h : Following keys s) (hok : Unshared keys s a)
    (hstep : System.Step keys s a s') : Following keys s' := by
  cases hstep
  cases a with
  | call c =>
    have heffect := call_effect s.world c
    refine ⟨h.listed.effect heffect, ?_⟩
    intro table htable
    obtain ⟨old, hold, rfl⟩ := Option.map_eq_some_iff.mp htable
    have hfaithful := h.faithful old hold
    cases hevent : emitted s.world c with
    | none =>
      rw [hevent] at heffect
      cases heffect with
      | none _ hseats hlist =>
        refine ⟨hfaithful.sorted, ?_, ?_, ?_⟩
        · simpa only [System.step, hseats] using hfaithful.valid
        · simpa only [System.step, hseats, Distinct] using hfaithful.distinct
        · simpa only [System.step, hseats] using hfaithful.routes
    | some event =>
      rw [hevent] at heffect
      refine hfaithful.effect heffect ?_
      rintro ed addr rfl
      obtain ⟨data, hmessage, rfl, hvalue, hfree⟩ := emitted_joined hevent
      obtain ⟨hvalid, hnew⟩ := hok data addr hmessage hvalue hfree (by rw [hold]; simp)
      refine ⟨hvalid, ?_⟩
      intro id seat hseat
      obtain ⟨stake, hstake, rfl⟩ := Option.map_eq_some_iff.mp hseat
      exact hnew id stake hstake
  | start =>
    refine ⟨h.listed, ?_⟩
    intro table htable
    exact Faithful.start h.listed hok htable

/-- While ids are not shared, the table is the list. -/
theorem table_mirrors_list (keys : Keys) {endowment : ℕ} {actions : List Action} {s : System}
    (h : Run (guarded (Unshared keys) (System.Step keys)) (.fresh endowment) actions s) :
    s.Mirrors := by
  have hfollow : Following keys s :=
    h.stateInvariant (Following.fresh endowment) fun t a u ht hstep => ht.step hstep.1 hstep.2
  intro table htable
  obtain ⟨nodes, hlist, hroutes⟩ := list_eq hfollow.listed
  refine ⟨nodes, hlist, ?_⟩
  rw [hroutes]
  exact (hfollow.faithful table htable).perm hfollow.listed

/-- The zero key, which is used below, is a point of the curve. -/
def sampleKeys : Keys where
  tryFromBytes _ := true
  toPeerId key := ⟨[8, 1, 18, 32] ++ key.bytes⟩
  ends _ := ⟨[8, 1, 18, 32], rfl⟩

def one : Hash := ⟨1 :: List.replicate 31 0, by simp⟩

def localhost : NodeAddress := .ip4 ⟨[127, 0, 0, 1, 31, 144], rfl⟩

def joinAs (sign id : Hash) : Action :=
  .call ⟨.zero, 0, stakeAmount, .join ⟨sign, .zero, id⟩ localhost⟩

def runOf (actions : List Action) : System := actions.foldl (System.step sampleKeys) (.fresh 0)

theorem table_mirrors_list_joined :
    (runOf [.start, joinAs .zero .zero]).table.map (·.routes.length) = some 1 ∧
      (runOf [.start, joinAs .zero .zero]).Mirrors := by
  refine ⟨by decide +kernel, ?_⟩
  have hstart : Unshared sampleKeys (.fresh 0) .start := by
    intro id id' seat seat' hseat
    cases hseat
  have hjoin : Unshared sampleKeys (runOf [.start]) (joinAs .zero .zero) := by
    intro data addr _ _ _ _
    refine ⟨rfl, ?_⟩
    intro id stake hstake
    cases hstake
  exact table_mirrors_list sampleKeys
    ((Run.single ⟨hstart, rfl⟩).append (Run.single ⟨hjoin, rfl⟩))

/-- Two stakes that name one key share a route. -/
theorem shared_id_not_mirrored : ¬ ∀ (keys : Keys) (endowment : ℕ) (actions : List Action)
    (s : System), Run (System.Step keys) (.fresh endowment) actions s → s.Mirrors := by
  intro h
  have hrun : Run (System.Step sampleKeys) (.fresh 0)
      ([.start] ++ [joinAs .zero .zero] ++ [joinAs one .zero])
      (runOf [.start, joinAs .zero .zero, joinAs one .zero]) :=
    ((Run.single rfl).append (Run.single rfl)).append (Run.single rfl)
  have hone : (runOf [.start, joinAs .zero .zero, joinAs one .zero]).table.map
      (·.routes.length) = some 1 := by decide +kernel
  have htwo : (runOf [.start, joinAs .zero .zero, joinAs one .zero]).world.staker.list.map
      (·.length) = some 2 := by decide +kernel
  obtain ⟨table, htable, hlen⟩ := Option.map_eq_some_iff.mp hone
  obtain ⟨nodes, hnodes, hperm⟩ := h _ _ _ _ hrun table htable
  rw [hnodes, Option.map_some, Option.some_inj] at htwo
  have hsame := hperm.length_eq
  rw [List.length_map, hlen, htwo] at hsame
  cases hsame

end Following

end OrionNetwork.StakeMirror
