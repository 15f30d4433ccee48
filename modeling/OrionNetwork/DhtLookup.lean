import OrionNetwork.Dht
import OrionNetwork.OnionPacket

/-!
# Looking up peers

The routing table cuts a peer id to the last 32 bytes of its digest. Peer ids reach the
table from outside: a node that takes off its layer of an onion packet dials the peer it
finds under it, and dialing asks the table for an address. Here the lookups are written
with the points at which they panic.
-/
namespace OrionNetwork.Lookup
open Codec BlockHash SortedVectors Dht

inductive Panic where
  | subtractWithOverflow
  | indexOutOfBounds
  deriving DecidableEq

variable {Addr : Type*}

/-- The last 32 bytes. Without overflow checks the range starts behind the end, which
panics as well. -/
def tryPeerIdToEd (id : PeerId) : Except Panic (Option Hash) :=
  if id.digest.length < 32 then .error .subtractWithOverflow else .ok (Dht.tryPeerIdToEd id)

def get (t : RoutingTable Addr) (id : PeerId) : Except Panic (Option Addr) :=
  match tryPeerIdToEd id with
  | .error e => .error e
  | .ok none => .ok none
  | .ok (some id) =>
    match binarySearchByKey Route.key t.routes (U256.ofHash id).toNat with
    | .error _ => .ok none
    | .ok index =>
      match t.routes[index]? with
      | none => .error .indexOutOfBounds
      | some route => .ok (some route.addr)

def remove (t : RoutingTable Addr) (id : PeerId) :
    Except Panic (RoutingTable Addr × Option (Route Addr)) :=
  match tryPeerIdToEd id with
  | .error e => .error e
  | .ok none => .ok (t, none)
  | .ok (some id) =>
    match binarySearchByKey Route.key t.routes (U256.ofHash id).toNat with
    | .error _ => .ok (t, none)
    | .ok index =>
      match t.routes[index]? with
      | none => .error .indexOutOfBounds
      | some route => .ok (⟨t.routes.eraseIdx index⟩, some route)

/-- An address is looked up when none is given. -/
def handlePendingOutboundConnection (t : RoutingTable Addr) (maybePeer : Option PeerId)
    (addresses : List Addr) : Except Panic (List Addr) :=
  if addresses.isEmpty then
    match maybePeer with
    | none => .ok []
    | some peer =>
      match get t peer with
      | .error e => .error e
      | .ok none => .ok []
      | .ok (some addr) => .ok [addr]
  else .ok []

/-- No lookup panics, and an address that is found belongs to the end of the digest. -/
def Safe (t : RoutingTable Addr) (id : PeerId) : Prop :=
  (∃ found, get t id = .ok found ∧ ∀ addr, found = some addr → ∃ route ∈ t.routes,
    route.addr = addr ∧ ∃ last : Hash, route.id = .ofHash last ∧ last.bytes <:+ id.digest) ∧
  (∃ left, remove t id = .ok left) ∧
  ∀ addresses, ∃ addrs, handlePendingOutboundConnection t (some id) addresses = .ok addrs

section Refinement

variable {t : RoutingTable Addr} {id : PeerId}

theorem tryPeerIdToEd_short (h : id.digest.length < 32) :
    tryPeerIdToEd id = .error .subtractWithOverflow :=
  if_pos h

theorem tryPeerIdToEd_long (h : 32 ≤ id.digest.length) :
    ∃ last : Hash, tryPeerIdToEd id = .ok (some last) ∧ Dht.tryPeerIdToEd id = some last ∧
      last.bytes <:+ id.digest := by
  have hlast : Dht.tryPeerIdToEd id = some ⟨id.digest.drop (id.digest.length - 32), by
      rw [List.length_drop]; omega⟩ := dif_pos h
  refine ⟨_, ?_, hlast, List.drop_suffix _ _⟩
  rw [tryPeerIdToEd, if_neg (not_lt.mpr h), hlast]

theorem get_eq (h : 32 ≤ id.digest.length) : get t id = .ok (t.get id) := by
  obtain ⟨last, hchecked, hlast, -⟩ := tryPeerIdToEd_long h
  unfold get RoutingTable.get
  rw [hchecked, hlast]
  simp only
  cases hsearch : binarySearchByKey Route.key t.routes (U256.ofHash last).toNat with
  | error i => rfl
  | ok i =>
    obtain ⟨route, hroute, -⟩ := bisect_ok hsearch
    simp only [hroute, Option.map_some]

theorem remove_eq (h : 32 ≤ id.digest.length) : remove t id = .ok (t.remove id) := by
  obtain ⟨last, hchecked, hlast, -⟩ := tryPeerIdToEd_long h
  unfold remove RoutingTable.remove
  rw [hchecked, hlast]
  simp only
  cases hsearch : binarySearchByKey Route.key t.routes (U256.ofHash last).toNat with
  | error i => rfl
  | ok i =>
    obtain ⟨route, hroute, -⟩ := bisect_ok hsearch
    simp only [hroute]

/-- Only an equal id is found, also in a table that is not sorted. -/
theorem get_some (h : 32 ≤ id.digest.length) {addr : Addr} (hget : t.get id = some addr) :
    ∃ route ∈ t.routes, route.addr = addr ∧
      ∃ last : Hash, route.id = .ofHash last ∧ last.bytes <:+ id.digest := by
  obtain ⟨last, -, hlast, hends⟩ := tryPeerIdToEd_long h
  rw [RoutingTable.get, hlast] at hget
  simp only at hget
  cases hsearch : binarySearchByKey Route.key t.routes (U256.ofHash last).toNat with
  | error i =>
    rw [hsearch] at hget
    cases hget
  | ok i =>
    obtain ⟨route, hroute, hkey⟩ := bisect_ok hsearch
    rw [hsearch] at hget
    simp only [hroute, Option.map_some] at hget
    refine ⟨route, List.mem_of_getElem? hroute, Option.some_injective _ hget, last, ?_, hends⟩
    exact BitVec.eq_of_toNat_eq hkey

theorem handlePendingOutboundConnection_ok (h : 32 ≤ id.digest.length) (addresses : List Addr) :
    ∃ addrs, handlePendingOutboundConnection t (some id) addresses = .ok addrs := by
  unfold handlePendingOutboundConnection
  split_ifs
  · simp only [get_eq h]
    cases t.get id with
    | none => exact ⟨_, rfl⟩
    | some addr => exact ⟨_, rfl⟩
  · exact ⟨_, rfl⟩

end Refinement

/-- Lookups are safe exactly for the peer ids whose digest has 32 bytes at least, whatever
the table holds. -/
theorem safe_iff_length (t : RoutingTable Addr) (id : PeerId) : Safe t id ↔ 32 ≤ id.digest.length := by
  constructor
  · rintro ⟨⟨found, hfound, -⟩, -, -⟩
    by_contra hshort
    rw [get, tryPeerIdToEd_short (not_le.mp hshort)] at hfound
    cases hfound
  · intro h
    refine ⟨⟨_, get_eq h, ?_⟩, ⟨_, remove_eq h⟩, handlePendingOutboundConnection_ok h⟩
    intro addr hget
    exact get_some h hget

section Example

open Onion

/-- The peer ids that are identity hashes. -/
abbrev InlinePeerId := { id : PeerId // id.digest.length ≤ 42 }

/-- The code of the identity hash, the length and the digest. -/
def toBytes (id : InlinePeerId) : Bytes :=
  0 :: UInt8.ofNat id.val.digest.length :: id.val.digest

def fromBytes : Bytes → Option InlinePeerId
  | 0 :: len :: digest =>
    if h : digest.length ≤ 42 then
      if digest.length = len.toNat then some ⟨⟨digest⟩, h⟩ else none
    else none
  | _ => none

theorem fromBytes_toBytes (id : InlinePeerId) : fromBytes (toBytes id) = some id := by
  obtain ⟨⟨digest⟩, h⟩ := id
  have hlen : (UInt8.ofNat digest.length).toNat = digest.length := by
    rw [UInt8.toNat_ofNat']
    exact Nat.mod_eq_of_lt (lt_of_le_of_lt h (by decide))
  simp only [toBytes, fromBytes, dif_pos h, hlen, if_true]

/-- The suite with these peer ids. -/
def multihashSuite : Suite :=
  { maskSuite with
    PeerId := InlinePeerId
    peerToBytes := toBytes
    peerFromBytes := fromBytes }

theorem multihashSuite_lawful : multihashSuite.Lawful where
  dec_enc := maskSuite_lawful.dec_enc
  diffieHellman_comm := maskSuite_lawful.diffieHellman_comm
  length_encrypt := maskSuite_lawful.length_encrypt
  decrypt_encrypt := maskSuite_lawful.decrypt_encrypt
  fromBytes_toBytes := fromBytes_toBytes
  length_toBytes id := by
    change (toBytes id).length < 256
    have hlen := id.property
    simp only [toBytes, List.length_cons]
    omega

def multihashPair (byte : UInt8) : KeyPair multihashSuite := ⟨repeated 1184 byte, repeated 32 byte⟩

/-- A digest of one byte. -/
def shortId : InlinePeerId := ⟨⟨[2]⟩, Nat.le_of_ble_eq_true rfl⟩

/-- A client asks the third node to go on to the peer with the short digest. -/
def shortHop : Bytes :=
  addHop (multihashPair 5) ((multihashPair 3).publicKey, shortId) ⟨repeated 32 1, repeated 12 0⟩
    [] ++ (multihashPair 5).publicKey.intoBytes.val

/-- The packet is accepted, and dialing the peer under its layer panics. -/
theorem short_peer_id_panics :
    ∃ p, peelInitial (multihashPair 3) shortHop = .ok (some p) ∧ p.next = some shortId ∧
      handlePendingOutboundConnection (.empty : RoutingTable Unit) (some shortId.val) [] =
        .error .subtractWithOverflow ∧
      ¬Safe (.empty : RoutingTable Unit) shortId.val := by
  refine ⟨_, peelInitial_addHop multihashSuite_lawful _ _ _ _ _, rfl, rfl, ?_⟩
  rintro ⟨⟨found, hfound, -⟩, -, -⟩
  cases hfound

end Example

end OrionNetwork.Lookup
