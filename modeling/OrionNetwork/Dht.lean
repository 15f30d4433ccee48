import OrionNetwork.ChatReplica
import OrionNetwork.SortedVectors

/-!
# The routing table

Routes are kept sorted by id, read as a number modulo `2 ^ 256`. The nodes
closest to a key are found by walking away from it in both directions at once.
The two walks may meet on either side of the wrap-around, so each of them takes
over the far end of the other's half once its own half is used up.
-/
namespace OrionNetwork.Dht
open Codec BlockHash ChatReplica SortedVectors

abbrev U256 := BitVec 256

/-- The first byte is the most significant one. -/
def U256.ofHash (h : Hash) : U256 :=
  BitVec.ofNat 256 (Nat.ofDigits 256 (h.bytes.map (·.toNat)).reverse)

def U256.bytes (x : U256) : Hash :=
  ⟨(List.range 32).map fun i => UInt8.ofNat (x.toNat >>> (8 * (31 - i))), by simp⟩

/-- The digest of its multihash. -/
structure PeerId where
  digest : Bytes
  deriving DecidableEq

/-- What the table takes from the networking library: which bytes are a point
of the curve, and the peer id of a key. It is the identity hash of an encoding
that ends in the key. -/
structure Keys where
  tryFromBytes : Hash → Bool
  toPeerId : Hash → PeerId
  ends : ∀ key, ∃ head, (toPeerId key).digest = head ++ key.bytes

/-- The last 32 bytes; a shorter digest panics. -/
def tryPeerIdToEd (id : PeerId) : Option Hash :=
  if h : 32 ≤ id.digest.length then
    some ⟨id.digest.drop (id.digest.length - 32), by rw [List.length_drop]; omega⟩
  else none

structure Route (Addr : Type*) where
  id : U256
  addr : Addr

variable {Addr : Type*}

namespace Route

def new (id : Hash) (addr : Addr) : Route Addr := ⟨.ofHash id, addr⟩

/-- Bytes that are no key panic. -/
def peerId (keys : Keys) (r : Route Addr) : Option PeerId :=
  if keys.tryFromBytes r.id.bytes then some (keys.toPeerId r.id.bytes) else none

def key (r : Route Addr) : ℕ := r.id.toNat

end Route

structure RoutingTable (Addr : Type*) where
  routes : List (Route Addr)

def shortestDistance (a b : U256) : U256 := if a - b < b - a then a - b else b - a

/-- The iterator of `closest_low`. `left` is walked from its end. -/
structure Closest (Addr : Type*) where
  id : U256
  left : List (Route Addr)
  right : List (Route Addr)
  leftPeek : Option (Route Addr)
  rightPeek : Option (Route Addr)

namespace Closest

/-- `left.next().or_else(|| right.next_back())` -/
def peekLeft (c : Closest Addr) : Closest Addr :=
  match c.left.getLast? with
  | some r => { c with left := c.left.dropLast, leftPeek := some r }
  | none => { c with right := c.right.dropLast, leftPeek := c.right.getLast? }

/-- `right.next().or_else(|| left.next_back())` -/
def peekRight (c : Closest Addr) : Closest Addr :=
  match c.right.head? with
  | some r => { c with right := c.right.tail, rightPeek := some r }
  | none => { c with left := c.left.tail, rightPeek := c.left.head? }

def next (c : Closest Addr) : Option (Route Addr × Closest Addr) :=
  match c.leftPeek, c.rightPeek with
  | some left, some right =>
    if shortestDistance c.id left.id < shortestDistance c.id right.id then some (left, c.peekLeft)
    else some (right, c.peekRight)
  -- this must be the last one
  | some either, none => some (either, { c with leftPeek := none, rightPeek := none })
  | none, some either => some (either, { c with leftPeek := none, rightPeek := none })
  | none, none => none

/-- The first `n` items. -/
def take : ℕ → Closest Addr → List (Route Addr)
  | 0, _ => []
  | n + 1, c =>
    match c.next with
    | none => []
    | some (r, c) => r :: take n c

end Closest

namespace RoutingTable

def empty : RoutingTable Addr := ⟨[]⟩

/-- The sort is stable. A table that has routes already panics. -/
def bulkInsert (t : RoutingTable Addr) (routes : List (Route Addr)) :
    Option (RoutingTable Addr) :=
  if t.routes = [] then
    some ⟨(t.routes ++ routes).mergeSort fun a b => decide (a.key ≤ b.key)⟩
  else none

def insert (t : RoutingTable Addr) (route : Route Addr) : RoutingTable Addr :=
  match binarySearchByKey Route.key t.routes route.key with
  | .ok i => ⟨t.routes.set i route⟩
  | .error i => ⟨t.routes.insertIdx i route⟩

def remove (t : RoutingTable Addr) (id : PeerId) : RoutingTable Addr × Option (Route Addr) :=
  match tryPeerIdToEd id with
  | none => (t, none)
  | some id =>
    match binarySearchByKey Route.key t.routes (U256.ofHash id).toNat with
    | .ok index => (⟨t.routes.eraseIdx index⟩, t.routes[index]?)
    | .error _ => (t, none)

def get (t : RoutingTable Addr) (id : PeerId) : Option Addr :=
  match tryPeerIdToEd id with
  | none => none
  | some id =>
    match binarySearchByKey Route.key t.routes (U256.ofHash id).toNat with
    | .ok index => t.routes[index]?.map Route.addr
    | .error _ => none

def closestLow (t : RoutingTable Addr) (id : U256) : Closest Addr :=
  let index := match binarySearchByKey Route.key t.routes id.toNat with
    | .ok i => i
    | .error i => i
  let c : Closest Addr := ⟨id, t.routes.take index, t.routes.drop index, none, none⟩
  c.peekLeft.peekRight

def closest (host : Host) (t : RoutingTable Addr) (data : Bytes) : Closest Addr :=
  t.closestLow (.ofHash (host.blake3 data))

end RoutingTable

/-- The peers responsible for a topic. -/
def replicatorsFor (host : Host) (keys : Keys) (t : RoutingTable Addr) (topic : Bytes) :
    Option (List PeerId) :=
  ((t.closest host topic).take (replicationFactor + 1)).mapM (Route.peerId keys)

/-- What a search relies on. -/
def Sorted (t : RoutingTable Addr) : Prop := Ascending Route.key t.routes

section Updates

variable {t : RoutingTable Addr}

theorem ofHash_injective : Function.Injective U256.ofHash := by
  intro a b h
  have hdigit : ∀ h : Hash, ∀ d ∈ (h.bytes.map (·.toNat)).reverse, d < 256 := by
    intro h d hd
    obtain ⟨byte, -, rfl⟩ := List.mem_map.mp (List.mem_reverse.mp hd)
    exact byte.toNat_lt
  have hlt : ∀ h : Hash, Nat.ofDigits 256 (h.bytes.map (·.toNat)).reverse < 2 ^ 256 := by
    intro h
    simpa [h.size] using Nat.ofDigits_lt_base_pow_length' (b := 254) (hdigit h)
  have hnat := congrArg BitVec.toNat h
  simp only [U256.ofHash, BitVec.toNat_ofNat, Nat.mod_eq_of_lt (hlt _)] at hnat
  have hdigits := Nat.ofDigits_inj_of_len_eq (by decide) (by simp [a.size, b.size])
    (hdigit a) (hdigit b) hnat
  apply Hash.ext_bytes
  refine List.map_injective_iff.mpr ?_ (List.reverse_injective hdigits)
  intro x y hxy
  exact UInt8.toNat_inj.mp hxy

theorem tryPeerIdToEd_toPeerId (keys : Keys) (key : Hash) :
    tryPeerIdToEd (keys.toPeerId key) = some key := by
  obtain ⟨head, hhead⟩ := keys.ends key
  have hlen : (keys.toPeerId key).digest.length = head.length + 32 := by
    rw [hhead, List.length_append, key.size]
  unfold tryPeerIdToEd
  rw [dif_pos (by omega), Option.some_inj]
  apply Hash.ext_bytes
  simp [hhead, key.size]

/-- Insertion replaces the route with the same id, if there is one. -/
theorem insert_spec (h : Sorted t) (route : Route Addr) :
    Sorted (t.insert route) ∧
      ∀ r, r ∈ (t.insert route).routes ↔ r = route ∨ r ∈ t.routes ∧ r.key ≠ route.key := by
  unfold Sorted at h ⊢
  unfold RoutingTable.insert
  split
  · next i hi =>
    obtain ⟨pre, x, post, hsplit, rfl, hkey⟩ := binarySearchByKey_ok hi
    rw [hsplit] at h
    have hothers : ∀ r, r ∈ pre ++ post ↔ r ∈ pre ++ x :: post ∧ r.key ≠ route.key := by
      intro r
      rw [h.mem_append_iff, hkey]
    rw [ascending_append, ascending_cons] at h
    obtain ⟨hpre, ⟨hx, hpost⟩, hcross⟩ := h
    simp only [hsplit, set_length_append]
    have hlow : ∀ y ∈ pre, y.key < route.key := fun y hy =>
      hkey ▸ hcross y hy x List.mem_cons_self
    have hhigh : ∀ y ∈ post, route.key < y.key := fun y hy => hkey ▸ hx y hy
    refine ⟨hpre.append_cons hpost hlow hhigh, ?_⟩
    intro r
    rw [← hothers, List.mem_append, List.mem_append, List.mem_cons, or_left_comm]
  · next i hi =>
    obtain ⟨pre, post, hsplit, rfl, hlow, hhigh⟩ := binarySearchByKey_error h hi
    rw [hsplit, ascending_append] at h
    obtain ⟨hpre, hpost, -⟩ := h
    have hothers : ∀ r ∈ pre ++ post, r.key ≠ route.key := by
      intro r hr
      rcases List.mem_append.mp hr with hr | hr
      · exact (hlow r hr).ne
      · exact (hhigh r hr).ne'
    simp only [hsplit, insertIdx_length_append]
    refine ⟨hpre.append_cons hpost hlow hhigh, ?_⟩
    intro r
    rw [and_iff_left_of_imp (hothers r), List.mem_append, List.mem_append, List.mem_cons,
      or_left_comm]

theorem remove_spec (h : Sorted t) (id : PeerId) :
    Sorted (t.remove id).1 ∧ ∀ r, r ∈ (t.remove id).1.routes ↔
      r ∈ t.routes ∧ ∀ ed, tryPeerIdToEd id = some ed → r.id ≠ .ofHash ed := by
  unfold RoutingTable.remove
  cases hed : tryPeerIdToEd id with
  | none => exact ⟨h, by simp⟩
  | some ed =>
    simp only
    split
    · next i hi =>
      obtain ⟨pre, x, post, hsplit, rfl, hkey⟩ := binarySearchByKey_ok hi
      have hx : x.id = .ofHash ed := BitVec.eq_of_toNat_eq hkey
      unfold Sorted at h ⊢
      rw [hsplit] at h
      simp only [hsplit, eraseIdx_length_append]
      refine ⟨h.sublist ((List.sublist_cons_self x post).append_left pre), ?_⟩
      intro r
      have hkeys : r.key ≠ x.key ↔ ∀ ed', some ed = some ed' → r.id ≠ .ofHash ed' := by
        rw [Route.key, Route.key, Ne, BitVec.toNat_inj, hx]
        simp
      rw [h.mem_append_iff, hkeys]
    · next i hi =>
      obtain ⟨pre, post, hsplit, rfl, hlow, hhigh⟩ := binarySearchByKey_error h hi
      refine ⟨h, fun r => ⟨fun hr => ⟨hr, ?_⟩, And.left⟩⟩
      rintro _ ⟨⟩ hid
      have hkey : r.key = (U256.ofHash ed).toNat := by rw [Route.key, hid]
      rw [hsplit] at hr
      rcases List.mem_append.mp hr with hr | hr
      · exact (hlow r hr).ne hkey
      · exact (hhigh r hr).ne' hkey

theorem bulkInsert_spec {routes : List (Route Addr)} {t' : RoutingTable Addr}
    (h : t.bulkInsert routes = some t') (hids : (routes.map Route.key).Nodup) :
    Sorted t' ∧ t'.routes.Perm routes := by
  unfold RoutingTable.bulkInsert at h
  split_ifs at h with hempty
  cases h
  rw [hempty, List.nil_append]
  have hperm := List.mergeSort_perm routes fun a b => decide (a.key ≤ b.key)
  refine ⟨?_, hperm⟩
  have hle : (routes.mergeSort fun a b => decide (a.key ≤ b.key)).Pairwise
      fun a b => decide (a.key ≤ b.key) = true :=
    List.pairwise_mergeSort (by simpa using fun a b c => Nat.le_trans)
      (by simpa using fun a b => Nat.le_total _ _) routes
  have hne := List.pairwise_map.mp ((hperm.map Route.key).nodup_iff.mpr hids)
  refine (hle.and hne).imp ?_
  rintro a b ⟨hab, hne⟩
  exact lt_of_le_of_ne (of_decide_eq_true hab) hne

/-- The tables that come about. A bulk insertion with two routes of one id is
the one way to a table that is not strictly sorted. -/
inductive Built : RoutingTable Addr → Prop where
  | empty : Built .empty
  | bulkInsert {routes : List (Route Addr)} {t : RoutingTable Addr}
      (hids : (routes.map Route.key).Nodup) : RoutingTable.empty.bulkInsert routes = some t → Built t
  | insert {t : RoutingTable Addr} (route : Route Addr) : Built t → Built (t.insert route)
  | remove {t : RoutingTable Addr} (id : PeerId) : Built t → Built (t.remove id).1

theorem Built.sorted (h : Built t) : Sorted t := by
  induction h with
  | empty => exact .nil
  | bulkInsert hids h => exact (bulkInsert_spec h hids).1
  | insert route _ ih => exact (insert_spec ih route).1
  | remove id _ ih => exact (remove_spec ih id).1

end Updates

section Enumeration

variable {c : Closest Addr}

namespace Closest

/-- What is still to be yielded, clockwise from the key. -/
def ring (c : Closest Addr) : List (Route Addr) :=
  c.rightPeek.toList ++ (c.right ++ c.left) ++ c.leftPeek.toList

/-- A peek stays empty only if nothing is left to fill it. -/
def Primed (c : Closest Addr) : Prop :=
  c.leftPeek = none ∨ c.rightPeek = none → c.left = [] ∧ c.right = []

theorem peekLeft_spec (c : Closest Addr) :
    c.peekLeft.id = c.id ∧ c.peekLeft.rightPeek = c.rightPeek ∧
      c.peekLeft.right ++ c.peekLeft.left ++ c.peekLeft.leftPeek.toList = c.right ++ c.left ∧
      (c.peekLeft.leftPeek = none → c.peekLeft.left = [] ∧ c.peekLeft.right = []) := by
  unfold peekLeft
  obtain hleft | ⟨left, l, hleft⟩ := List.eq_nil_or_concat c.left
  · obtain hright | ⟨right, r, hright⟩ := List.eq_nil_or_concat c.right
    · simp [hleft, hright]
    · simp [hleft, hright]
  · simp [hleft]

theorem peekRight_spec (c : Closest Addr) :
    c.peekRight.id = c.id ∧ c.peekRight.leftPeek = c.leftPeek ∧
      c.peekRight.rightPeek.toList ++ (c.peekRight.right ++ c.peekRight.left) =
        c.right ++ c.left ∧
      (c.peekRight.rightPeek = none → c.peekRight.left = [] ∧ c.peekRight.right = []) := by
  unfold peekRight
  cases hright : c.right with
  | nil =>
    cases hleft : c.left with
    | nil => simp
    | cons l left => simp
  | cons r right => simp

theorem take_exhausted (n : ℕ) (hl : c.leftPeek = none) (hr : c.rightPeek = none) :
    c.take n = [] := by
  cases n with
  | zero => rfl
  | succ n => simp only [take, next, hl, hr]

/-- The iterator takes the nearer end of the ring, the front one if they are
equally near. -/
theorem take_eq_drain (n : ℕ) (h : c.Primed) :
    c.take n = drain (fun r => (shortestDistance c.id r.id).toNat) n c.ring := by
  induction n generalizing c with
  | zero => rfl
  | succ n ih =>
    unfold take next
    cases hl : c.leftPeek with
    | none =>
      obtain ⟨hleft, hright⟩ := h (.inl hl)
      cases hr : c.rightPeek with
      | none => simp [ring, hl, hr, hleft, hright, drain]
      | some r =>
        simp [ring, hl, hr, hleft, hright, drain, take_exhausted]
    | some l =>
      cases hr : c.rightPeek with
      | none =>
        obtain ⟨hleft, hright⟩ := h (.inr hr)
        simp [ring, hl, hr, hleft, hright, drain, take_exhausted]
      | some r =>
        obtain ⟨hlid, hlr, hlring, hlprimed⟩ := c.peekLeft_spec
        obtain ⟨hrid, hrl, hrring, hrprimed⟩ := c.peekRight_spec
        have hpl : c.peekLeft.Primed := by
          rintro (hnone | hnone)
          · exact hlprimed hnone
          · rw [hlr, hr] at hnone
            cases hnone
        have hpr : c.peekRight.Primed := by
          rintro (hnone | hnone)
          · rw [hrl, hl] at hnone
            cases hnone
          · exact hrprimed hnone
        have hringl : c.peekLeft.ring = r :: (c.right ++ c.left) := by
          rw [ring, hlr, hr, List.append_assoc, hlring]
          rfl
        have hringr : c.peekRight.ring = c.right ++ c.left ++ [l] := by
          rw [ring, hrl, hl, hrring]
          rfl
        have hring : c.ring = r :: (c.right ++ c.left ++ [l]) := by
          rw [ring, hl, hr]
          simp
        simp only [hring, drain, List.getLast?_append, List.getLast?_singleton, Option.some_or,
          List.dropLast_concat, BitVec.lt_def]
        split_ifs
        · simp only [ih hpl, hlid, hringl]
        · simp only [ih hpr, hrid, hringr]

end Closest

/-- How far clockwise `r` is from `id`. -/
def offset (id : U256) (r : Route Addr) : ℕ := (r.id - id).toNat

theorem shortestDistance_toNat (id : U256) (r : Route Addr) :
    (shortestDistance id r.id).toNat = min (offset id r) (2 ^ 256 - offset id r) := by
  have hneg : (id - r.id).toNat = (2 ^ 256 - offset id r) % 2 ^ 256 := by
    rw [offset, BitVec.toNat_sub, BitVec.toNat_sub]
    have hid := id.isLt
    have hrid := r.id.isLt
    omega
  have hlt : offset id r < 2 ^ 256 := (r.id - id).isLt
  unfold shortestDistance
  split_ifs with hcmp
  · rw [BitVec.lt_def, hneg] at hcmp
    rw [hneg]
    change _ < offset id r at hcmp
    omega
  · rw [BitVec.lt_def, hneg] at hcmp
    change ¬ _ < offset id r at hcmp
    change offset id r = _
    omega

theorem unimodal_of_offset {id : U256} {l : List (Route Addr)}
    (h : l.Pairwise (offset id · < offset id ·)) :
    Unimodal (fun r => (shortestDistance id r.id).toNat) l := by
  intro a b c hsub
  have hsorted := h.sublist hsub
  have hab : offset id a < offset id b := List.rel_of_pairwise_cons hsorted (by simp)
  have hbc : offset id b < offset id c := List.rel_of_pairwise_cons hsorted.of_cons (by simp)
  simp only [shortestDistance_toNat]
  omega

theorem offset_eq (id : U256) (r : Route Addr) :
    offset id r = if id.toNat ≤ r.key then r.key - id.toNat else 2 ^ 256 + r.key - id.toNat := by
  have hid := id.isLt
  have hr := r.id.isLt
  rw [offset, BitVec.toNat_sub, Route.key]
  split_ifs <;> omega

/-- The walk starts where the table is cut at the key. -/
theorem closestLow_spec (t : RoutingTable Addr) (id : U256) :
    (t.closestLow id).Primed ∧ (t.closestLow id).id = id ∧ ∃ index,
      (binarySearchByKey Route.key t.routes id.toNat = .ok index ∨
        binarySearchByKey Route.key t.routes id.toNat = .error index) ∧
      (t.closestLow id).ring = t.routes.drop index ++ t.routes.take index := by
  obtain ⟨index, hsearch, heq⟩ : ∃ index,
      (binarySearchByKey Route.key t.routes id.toNat = .ok index ∨
        binarySearchByKey Route.key t.routes id.toNat = .error index) ∧
      t.closestLow id =
        (Closest.mk id (t.routes.take index) (t.routes.drop index) none none).peekLeft.peekRight := by
    unfold RoutingTable.closestLow
    cases h : binarySearchByKey Route.key t.routes id.toNat with
    | ok i => exact ⟨i, .inl rfl, rfl⟩
    | error i => exact ⟨i, .inr rfl, rfl⟩
  obtain ⟨hlid, -, hlring, hlprimed⟩ :=
    (Closest.mk id (t.routes.take index) (t.routes.drop index) none none).peekLeft_spec
  rw [heq]
  generalize (Closest.mk id (t.routes.take index) (t.routes.drop index) none none).peekLeft = c
    at hlid hlring hlprimed ⊢
  obtain ⟨hrid, hrl, hrring, hrprimed⟩ := c.peekRight_spec
  refine ⟨?_, hrid.trans hlid, index, hsearch, ?_⟩
  · rintro (hnone | hnone)
    · rw [hrl] at hnone
      obtain ⟨hleft, hright⟩ := hlprimed hnone
      rw [hleft, hright] at hrring
      simp only [List.append_nil, List.append_eq_nil_iff] at hrring
      exact ⟨hrring.2.2, hrring.2.1⟩
    · exact hrprimed hnone
  · rw [Closest.ring, hrring, hrl, hlring]

theorem ring_sorted {t : RoutingTable Addr} (h : Sorted t) (id : U256) :
    (t.closestLow id).ring.Pairwise (offset id · < offset id ·) := by
  obtain ⟨-, -, index, hsearch, hring⟩ := closestLow_spec t id
  have hsplit := h
  rw [Sorted, ← List.take_append_drop index t.routes, ascending_append] at hsplit
  obtain ⟨hpre, hpost, -⟩ := hsplit
  obtain ⟨hlow, hhigh⟩ : (∀ r ∈ t.routes.take index, r.key < id.toNat) ∧
      ∀ r ∈ t.routes.drop index, id.toNat ≤ r.key := by
    rcases hsearch with hsearch | hsearch
    · obtain ⟨pre, x, post, hcut, rfl, hkey⟩ := binarySearchByKey_ok hsearch
      rw [Sorted, hcut, ascending_append, ascending_cons] at h
      rw [hcut, List.take_left, List.drop_left, ← hkey]
      refine ⟨fun r hr => h.2.2 r hr x List.mem_cons_self, ?_⟩
      intro r hr
      rcases List.mem_cons.mp hr with rfl | hr
      · exact le_rfl
      · exact (h.2.1.1 r hr).le
    · obtain ⟨pre, post, hcut, rfl, hlow, hhigh⟩ := binarySearchByKey_error h hsearch
      rw [hcut, List.take_left, List.drop_left]
      exact ⟨hlow, fun r hr => (hhigh r hr).le⟩
  rw [hring, List.pairwise_append]
  refine ⟨hpost.imp_of_mem ?_, hpre.imp_of_mem ?_, ?_⟩
  · intro a b ha hb hab
    rw [offset_eq, offset_eq, if_pos (hhigh a ha), if_pos (hhigh b hb)]
    have := hhigh a ha
    omega
  · intro a b ha hb hab
    rw [offset_eq, offset_eq, if_neg (hlow a ha).not_ge, if_neg (hlow b hb).not_ge]
    have := id.isLt
    omega
  · intro a ha b hb
    rw [offset_eq, offset_eq, if_pos (hhigh a ha), if_neg (hlow b hb).not_ge]
    have := id.isLt
    have : a.key < 2 ^ 256 := a.id.isLt
    omega

theorem closestLow_take (t : RoutingTable Addr) (id : U256) (n : ℕ) :
    (t.closestLow id).take n =
      drain (fun r => (shortestDistance id r.id).toNat) n (t.closestLow id).ring := by
  obtain ⟨hprimed, hid, -⟩ := closestLow_spec t id
  rw [Closest.take_eq_drain n hprimed, hid]

/-- The walk goes through the whole table, the near routes first, and what it
finds first depends on the set of routes only. -/
theorem closestLow_enumerates (t : RoutingTable Addr) (h : Sorted t) (id : U256) :
    (∀ n, t.routes.length ≤ n →
      ((t.closestLow id).take n).Perm t.routes ∧
      ((t.closestLow id).take n).Pairwise fun a b =>
        shortestDistance id a.id ≤ shortestDistance id b.id) ∧
    (∀ n, (t.closestLow id).take n = ((t.closestLow id).take t.routes.length).take n) ∧
    (∀ t', Built t' → (∀ r, r ∈ t'.routes ↔ r ∈ t.routes) → ∀ host keys topic,
      replicatorsFor host keys t' topic = replicatorsFor host keys t topic) := by
  have hring : (t.closestLow id).ring.Perm t.routes := by
    obtain ⟨-, -, index, -, hring⟩ := closestLow_spec t id
    rw [hring]
    exact List.perm_append_comm.trans (.of_eq (List.take_append_drop index t.routes))
  refine ⟨?_, ?_, ?_⟩
  · intro n hn
    rw [closestLow_take]
    refine ⟨(drain_perm (hring.length_eq.trans_le hn)).trans hring, ?_⟩
    exact drain_sorted (hring.length_eq.trans_le hn) (unimodal_of_offset (ring_sorted h id))
  · intro n
    rw [closestLow_take, closestLow_take, take_drain hring.length_eq.le]
  · intro t' ht' hmem host keys topic
    cases t
    cases t'
    obtain rfl := ht'.sorted.eq_of_mem_iff h hmem
    rfl

def wrapAround : RoutingTable Unit :=
  ⟨[⟨2, ()⟩, ⟨BitVec.allOnes 256 >>> 1, ()⟩, ⟨BitVec.allOnes 256, ()⟩]⟩

theorem closestLow_enumerates_wrapAround :
    Sorted wrapAround ∧ ((wrapAround.closestLow 1).take 3).Perm wrapAround.routes ∧
      ((wrapAround.closestLow 1).take 3).map (·.id) =
        [2, BitVec.allOnes 256, BitVec.allOnes 256 >>> 1] := by
  have hsorted : Sorted wrapAround := by
    unfold Sorted
    decide +kernel
  exact ⟨hsorted, ((closestLow_enumerates wrapAround hsorted 1).1 3 le_rfl).1, by decide +kernel⟩

end Enumeration

section Lookup

variable {t : RoutingTable Addr} {m : U256 → Option Addr}

inductive Op (Addr : Type*) where
  | insert (route : Route Addr)
  | remove (id : PeerId)

def RoutingTable.apply (t : RoutingTable Addr) : Op Addr → RoutingTable Addr
  | .insert route => t.insert route
  | .remove id => (t.remove id).1

/-- A table that is filled at once and then updated. -/
def RoutingTable.build (routes : List (Route Addr)) (ops : List (Op Addr)) :
    Option (RoutingTable Addr) :=
  (RoutingTable.empty.bulkInsert routes).map fun t => ops.foldl .apply t

/-- The map a table stands for: the last address given to an id. -/
def assign (m : U256 → Option Addr) (r : Route Addr) : U256 → Option Addr :=
  Function.update m r.id (some r.addr)

def update (m : U256 → Option Addr) : Op Addr → U256 → Option Addr
  | .insert route => assign m route
  | .remove id =>
    match tryPeerIdToEd id with
    | none => m
    | some ed => Function.update m (.ofHash ed) none

/-- What is to be found for a peer. -/
def at? (m : U256 → Option Addr) (id : PeerId) : Option Addr :=
  (tryPeerIdToEd id).bind fun ed => m (.ofHash ed)

/-- The same in terms of the routes. -/
structure Represents (t : RoutingTable Addr) (m : U256 → Option Addr) : Prop where
  sorted : Sorted t
  mem : ∀ id addr, m id = some addr ↔ ⟨id, addr⟩ ∈ t.routes

theorem Represents.get (h : Represents t m) (id : PeerId) : t.get id = at? m id := by
  unfold RoutingTable.get at?
  cases hed : tryPeerIdToEd id with
  | none => rfl
  | some ed =>
    simp only [Option.bind_some]
    split
    · next i hi =>
      obtain ⟨pre, x, post, hsplit, rfl, hkey⟩ := binarySearchByKey_ok hi
      have hx : x.id = .ofHash ed := BitVec.eq_of_toNat_eq hkey
      have hmem : ⟨.ofHash ed, x.addr⟩ ∈ t.routes := by
        rw [← hx, hsplit]
        simp
      rw [(h.mem _ _).mpr hmem, hsplit]
      simp
    · next i hi =>
      obtain ⟨pre, post, hsplit, rfl, hlow, hhigh⟩ := binarySearchByKey_error h.sorted hi
      refine (Option.eq_none_iff_forall_ne_some.mpr ?_).symm
      intro addr haddr
      have hmem := (h.mem _ _).mp haddr
      rw [hsplit] at hmem
      rcases List.mem_append.mp hmem with hmem | hmem
      · exact (hlow _ hmem).false
      · exact (hhigh _ hmem).false

theorem Represents.insert (h : Represents t m) (route : Route Addr) :
    Represents (t.insert route) (assign m route) := by
  obtain ⟨hsorted, hroutes⟩ := insert_spec h.sorted route
  refine ⟨hsorted, ?_⟩
  intro id addr
  rw [hroutes, ← h.mem, assign, Function.update_apply]
  split_ifs with hid
  · subst hid
    cases route
    simp [Route.key, eq_comm]
  · have hne : (⟨id, addr⟩ : Route Addr) ≠ route := by
      rintro rfl
      exact hid rfl
    simp [Route.key, hne, BitVec.toNat_inj, hid]

theorem Represents.remove (h : Represents t m) (id : PeerId) :
    Represents (t.remove id).1 (update m (.remove id)) := by
  obtain ⟨hsorted, hroutes⟩ := remove_spec h.sorted id
  refine ⟨hsorted, ?_⟩
  intro other addr
  rw [hroutes, ← h.mem, update]
  cases hed : tryPeerIdToEd id with
  | none => simp
  | some ed =>
    simp only [Function.update_apply, Option.some.injEq, forall_eq']
    split_ifs with hid
    · simp [hid]
    · simp [hid]

theorem Represents.apply (h : Represents t m) (op : Op Addr) :
    Represents (t.apply op) (update m op) := by
  cases op with
  | insert route => exact h.insert route
  | remove id => exact h.remove id

theorem Represents.run (h : Represents t m) (ops : List (Op Addr)) :
    Represents (ops.foldl .apply t) (ops.foldl update m) := by
  induction ops generalizing t m with
  | nil => exact h
  | cons op ops ih => exact ih (h.apply op)

end Lookup

end OrionNetwork.Dht
