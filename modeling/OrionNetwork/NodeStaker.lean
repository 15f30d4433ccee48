import OrionNetwork.BlockHash
import OrionNetwork.Collections
import OrionNetwork.Runs

/-!
# The staking contract

Nodes join with a deposit, vote on each other and get the deposit back after a
while, less what their rating costs them. A message that panics has no effect.
Contracts are built with overflow checks, so arithmetic that overflows panics.
The balance is what the contract may transfer.
-/
namespace OrionNetwork.NodeStaker
open BlockHash Collections Runs

abbrev Ed := Hash
abbrev CryptoHash := Hash
abbrev AccountId := Hash
abbrev Timestamp := UInt64

def stakeAmount : ℕ := 1000000
def initVotePool : ℕ := 3
def stakeDurationMilis : ℕ := 1000 * 60 * 60 * 24 * 30
def baseSlash : ℕ := 2
def slashFactor : ℕ := 1

inductive NodeAddress where
  | ip4 (bytes : List.Vector UInt8 6)
  | ip6 (bytes : List.Vector UInt8 18)

structure Votes where
  pool : ℕ := initVotePool
  rating : ℕ := 0

structure NodeIdentity where
  sign : CryptoHash
  enc : CryptoHash
  deriving DecidableEq

structure NodeData where
  sign : CryptoHash
  enc : CryptoHash
  id : Ed

structure Stake where
  owner : AccountId
  amount : ℕ
  createdAt : Timestamp
  votes : Votes
  id : Ed
  addr : NodeAddress

/-- The shift loses what it moves out of 128 bits and panics from there on. -/
def Stake.applySlashes (s : Stake) : Option ℕ :=
  if s.votes.rating > 0 then
    if s.votes.rating * slashFactor ≥ 2 ^ 32 ∨ s.votes.rating * slashFactor ≥ 128 then none
    else some (s.amount - baseSlash <<< (s.votes.rating * slashFactor) % 2 ^ 128)
  else some s.amount

structure Staker where
  stakes : NodeIdentity → Option Stake
  stakeList : List NodeIdentity

inductive Event where
  | joined (identity : Ed) (addr : NodeAddress)
  | addrChanged (identity : Ed) (addr : NodeAddress)
  | reclaimed (identity : Ed)

/-- Who calls, when, and what is transferred along. -/
structure Env where
  caller : AccountId
  blockTimestamp : Timestamp
  transferredValue : ℕ
  balance : ℕ

namespace Staker

def new : Staker := ⟨fun _ => none, []⟩

def join (s : Staker) (env : Env) (data : NodeData) (addr : NodeAddress) :
    Option (Staker × Event) :=
  if env.transferredValue ≠ stakeAmount then none
  else
    let id : NodeIdentity := ⟨data.sign, data.enc⟩
    match s.stakes id with
    | some _ => none
    | none =>
      let stake : Stake := {
        amount := env.transferredValue
        owner := env.caller
        createdAt := env.blockTimestamp
        votes := {}
        id := data.id
        addr := addr }
      some (⟨Function.update s.stakes id (some stake), s.stakeList ++ [id]⟩, .joined data.id addr)

/-- The sign of `rating` changes only when its size is in the pool. -/
def vote (s : Staker) (env : Env) (identity target : NodeIdentity) (rating : ℤ) : Option Staker :=
  match s.stakes identity, s.stakes target with
  | some stake, some targetStake =>
    if stake.owner ≠ env.caller then none
    else if targetStake.owner = env.caller then none
    else if stake.votes.pool < rating.natAbs then none
    else
      let sum := (targetStake.votes.rating : ℤ) - rating
      if sum < 0 ∨ 2 ^ 32 ≤ sum then none
      else
        let stake := { stake with
          votes := { stake.votes with pool := stake.votes.pool - rating.natAbs } }
        let targetStake := { targetStake with
          votes := { targetStake.votes with rating := sum.toNat } }
        let stakes := Function.update s.stakes identity (some stake)
        some { s with stakes := Function.update stakes target (some targetStake) }
  | _, _ => none

/-- Entries that cannot be looked up panic. -/
def list (s : Staker) : Option (List (NodeData × NodeAddress)) :=
  s.stakeList.mapM fun id =>
    (s.stakes id).map fun stake => (⟨id.sign, id.enc, stake.id⟩, stake.addr)

def changeAddr (s : Staker) (env : Env) (identity : NodeIdentity) (addr : NodeAddress) :
    Option (Staker × Event) :=
  match s.stakes identity with
  | none => none
  | some stake =>
    if stake.owner ≠ env.caller then none
    else
      let stake := { stake with addr := addr }
      some ({ s with stakes := Function.update s.stakes identity (some stake) },
        .addrChanged stake.id addr)

/-- The contract afterwards and what it transferred to the caller. -/
def reclaim (s : Staker) (env : Env) (identity : NodeIdentity) : Option (Staker × ℕ × Event) :=
  match s.stakes identity with
  | none => none
  | some stake =>
    if stake.owner ≠ env.caller then none
    else if 2 ^ 64 ≤ stake.createdAt.toNat + stakeDurationMilis then none
    else if env.blockTimestamp.toNat < stake.createdAt.toNat + stakeDurationMilis then none
    else
      match stake.applySlashes with
      | none => none
      | some value =>
        if env.balance < value then none
        else
          let stakeList := match s.stakeList.findIdx? (· = identity) with
            | none => s.stakeList
            | some i => swapRemove s.stakeList i
          some (⟨Function.update s.stakes identity none, stakeList⟩, value, .reclaimed stake.id)

end Staker

inductive Message where
  | join (data : NodeData) (addr : NodeAddress)
  | vote (identity target : NodeIdentity) (rating : ℤ)
  | changeAddr (identity : NodeIdentity) (addr : NodeAddress)
  | reclaim (identity : NodeIdentity)

structure Call where
  caller : AccountId
  timestamp : Timestamp
  value : ℕ
  message : Message

/-- A deposit that was accepted. -/
structure Deposit where
  identity : NodeIdentity
  owner : AccountId
  time : Timestamp
  amount : ℕ

/-- A transfer out of the contract, with the number of the deposit it pays back. -/
structure Payout where
  deposit : ℕ
  receiver : AccountId
  time : Timestamp
  value : ℕ

/-- The contract on its chain. The last three fields are observations for the
proofs: all deposits and payouts so far, and the deposit behind each stake. -/
structure World where
  staker : Staker
  balance : ℕ
  deposits : List Deposit
  payouts : List Payout
  depositOf : NodeIdentity → Option ℕ

namespace World

def fresh (endowment : ℕ) : World := ⟨.new, endowment, [], [], fun _ => none⟩

def env (w : World) (c : Call) : Env := ⟨c.caller, c.timestamp, c.value, w.balance + c.value⟩

/-- The state after a message that did not panic. -/
def execute (w : World) (c : Call) : Option World :=
  match c.message with
  | .join data addr => (w.staker.join (w.env c) data addr).map fun r =>
    { staker := r.1
      balance := w.balance + c.value
      deposits := w.deposits ++ [⟨⟨data.sign, data.enc⟩, c.caller, c.timestamp, c.value⟩]
      payouts := w.payouts
      depositOf := Function.update w.depositOf ⟨data.sign, data.enc⟩ (some w.deposits.length) }
  -- no other message is payable
  | .vote identity target rating =>
    if c.value ≠ 0 then none
    else (w.staker.vote (w.env c) identity target rating).map fun s => { w with staker := s }
  | .changeAddr identity addr =>
    if c.value ≠ 0 then none
    else (w.staker.changeAddr (w.env c) identity addr).map fun r => { w with staker := r.1 }
  | .reclaim identity =>
    if c.value ≠ 0 then none
    else (w.staker.reclaim (w.env c) identity).map fun r =>
      { staker := r.1
        balance := w.balance - r.2.1
        deposits := w.deposits
        payouts := w.payouts ++
          [⟨(w.depositOf identity).getD w.deposits.length, c.caller, c.timestamp, r.2.1⟩]
        depositOf := Function.update w.depositOf identity none }

/-- A panic reverts everything. -/
def Step (w : World) (c : Call) (w' : World) : Prop := w' = (w.execute c).getD w

def amountAt (w : World) (id : NodeIdentity) : ℕ := ((w.staker.stakes id).map (·.amount)).getD 0

/-- The balance covers the stakes, however many of them are added up. -/
def Solvent (w : World) : Prop :=
  ∀ ids : Finset NodeIdentity, (∀ id ∈ ids, (w.staker.stakes id).isSome) →
    ∑ id ∈ ids, w.amountAt id ≤ w.balance

/-- The payout matches its deposit. -/
def PaysBack (w : World) (p : Payout) : Prop :=
  ∃ d, w.deposits[p.deposit]? = some d ∧ p.receiver = d.owner ∧ p.value ≤ d.amount ∧
    d.time.toNat + stakeDurationMilis ≤ p.time.toNat

/-- A stake is the one of its deposit, which has not been paid back. -/
def Backed (w : World) (id : NodeIdentity) (s : Stake) : Prop :=
  ∃ k d, w.depositOf id = some k ∧ w.deposits[k]? = some d ∧ d.identity = id ∧
    d.owner = s.owner ∧ d.time = s.createdAt ∧ d.amount = s.amount ∧ k ∉ w.payouts.map (·.deposit)

structure Invariant (w : World) : Prop where
  solvent : w.Solvent
  backed : ∀ id s, w.staker.stakes id = some s → w.Backed id s
  paysBack : ∀ p ∈ w.payouts, w.PaysBack p
  once : (w.payouts.map (·.deposit)).Nodup

end World

theorem applySlashes_le {s : Stake} {value : ℕ} (h : s.applySlashes = some value) :
    value ≤ s.amount := by
  unfold Stake.applySlashes at h
  split_ifs at h
  · cases h
    exact Nat.sub_le _ _
  · cases h
    exact le_rfl

/-- What votes and new addresses leave alone. -/
def Stake.terms (s : Stake) : AccountId × ℕ × Timestamp := (s.owner, s.amount, s.createdAt)

def SameTerms (a b : Staker) : Prop :=
  ∀ id, (b.stakes id).map Stake.terms = (a.stakes id).map Stake.terms

section Effects

variable {s s' : Staker} {env : Env}

theorem join_cases {data : NodeData} {addr : NodeAddress} {event : Event}
    (h : s.join env data addr = some (s', event)) :
    env.transferredValue = stakeAmount ∧ s.stakes ⟨data.sign, data.enc⟩ = none ∧
      event = .joined data.id addr ∧ s'.stakeList = s.stakeList ++ [⟨data.sign, data.enc⟩] ∧
      ∃ stake, stake.terms = (env.caller, env.transferredValue, env.blockTimestamp) ∧
        stake.votes = {} ∧ stake.id = data.id ∧ stake.addr = addr ∧
        s'.stakes = Function.update s.stakes ⟨data.sign, data.enc⟩ (some stake) := by
  unfold Staker.join at h
  split_ifs at h with hvalue
  simp only at h
  split at h
  · cases h
  · next hfree =>
    cases h
    exact ⟨not_not.mp hvalue, hfree, rfl, rfl, _, rfl, rfl, rfl, rfl, rfl⟩

/-- The voter owns its stake and not the one it votes on, so the two are not the
same. -/
theorem vote_cases {identity target : NodeIdentity} {rating : ℤ}
    (h : s.vote env identity target rating = some s') :
    ∃ stake targetStake sum, s.stakes identity = some stake ∧
      s.stakes target = some targetStake ∧ identity ≠ target ∧ stake.owner = env.caller ∧
      targetStake.owner ≠ env.caller ∧ rating.natAbs ≤ stake.votes.pool ∧
      ((sum : ℕ) : ℤ) = targetStake.votes.rating - rating ∧
      s' = { s with
        stakes := Function.update (Function.update s.stakes identity (some { stake with
            votes := { stake.votes with pool := stake.votes.pool - rating.natAbs } }))
          target (some { targetStake with votes := { targetStake.votes with rating := sum } }) } := by
  unfold Staker.vote at h
  split at h
  · next stake targetStake hstake htarget =>
    simp only at h
    split_ifs at h with howner hself hpool hsum
    cases h
    have hne : identity ≠ target := by
      rintro rfl
      rw [hstake] at htarget
      cases htarget
      exact howner hself
    exact ⟨stake, targetStake, _, hstake, htarget, hne, not_not.mp howner, hself,
      not_lt.mp hpool, Int.toNat_of_nonneg (by omega), rfl⟩
  · cases h

theorem changeAddr_cases {identity : NodeIdentity} {addr : NodeAddress} {event : Event}
    (h : s.changeAddr env identity addr = some (s', event)) :
    ∃ stake, s.stakes identity = some stake ∧ stake.owner = env.caller ∧
      event = .addrChanged stake.id addr ∧
      s' = { s with
        stakes := Function.update s.stakes identity (some { stake with addr := addr }) } := by
  unfold Staker.changeAddr at h
  split at h
  · cases h
  · next stake hstake =>
    split_ifs at h with howner
    cases h
    exact ⟨stake, hstake, not_not.mp howner, rfl, rfl⟩

/-- The entry of the list is exchanged for the last one, if there is one. -/
theorem reclaim_cases {identity : NodeIdentity} {value : ℕ} {event : Event}
    (h : s.reclaim env identity = some (s', value, event)) :
    ∃ stake, s.stakes identity = some stake ∧ stake.owner = env.caller ∧
      stake.createdAt.toNat + stakeDurationMilis ≤ env.blockTimestamp.toNat ∧
      value ≤ stake.amount ∧ event = .reclaimed stake.id ∧
      s'.stakes = Function.update s.stakes identity none ∧
      ((identity ∉ s.stakeList ∧ s'.stakeList = s.stakeList) ∨
        s.stakeList.Perm (identity :: s'.stakeList)) := by
  unfold Staker.reclaim at h
  split at h
  · cases h
  · next stake hstake =>
    split_ifs at h with howner hoverflow htime
    split at h
    · cases h
    · next payout hslash =>
      split_ifs at h
      cases h
      refine ⟨stake, hstake, not_not.mp howner, by omega, applySlashes_le hslash, rfl, rfl, ?_⟩
      cases hidx : s.stakeList.findIdx? (· = identity) with
      | none =>
        refine .inl ⟨?_, rfl⟩
        intro hmem
        simpa using List.findIdx?_eq_none_iff.mp hidx identity hmem
      | some i =>
        obtain ⟨hi, heq, -⟩ := List.findIdx?_eq_some_iff_getElem.mp hidx
        refine .inr (perm_swapRemove ?_)
        rw [List.getElem?_eq_getElem hi, of_decide_eq_true heq]

theorem map_terms_update {stakes : NodeIdentity → Option Stake} {id : NodeIdentity}
    {stake stake' : Stake} (hstake : stakes id = some stake) (hterms : stake'.terms = stake.terms)
    (other : NodeIdentity) :
    (Function.update stakes id (some stake') other).map Stake.terms =
      (stakes other).map Stake.terms := by
  by_cases hid : other = id
  · subst hid
    rw [Function.update_self, hstake, Option.map_some, Option.map_some, hterms]
  · rw [Function.update_of_ne hid]

theorem vote_sameTerms {identity target : NodeIdentity} {rating : ℤ}
    (h : s.vote env identity target rating = some s') : SameTerms s s' := by
  obtain ⟨stake, targetStake, sum, hstake, htarget, hne, -, -, -, -, rfl⟩ := vote_cases h
  intro id
  have hkept : ∀ v, Function.update s.stakes identity v target = some targetStake := by
    intro v
    rw [Function.update_of_ne hne.symm, htarget]
  exact (map_terms_update (hkept _) (by rfl) id).trans (map_terms_update hstake (by rfl) id)

theorem changeAddr_sameTerms {identity : NodeIdentity} {addr : NodeAddress} {event : Event}
    (h : s.changeAddr env identity addr = some (s', event)) : SameTerms s s' := by
  obtain ⟨stake, hstake, -, -, rfl⟩ := changeAddr_cases h
  intro id
  apply map_terms_update hstake
  rfl

end Effects

namespace World

variable {w w' : World} {c : Call}

theorem invariant_fresh (endowment : ℕ) : (fresh endowment).Invariant := by
  constructor
  · intro ids hids
    have hempty : ids = ∅ := by
      rw [Finset.eq_empty_iff_forall_notMem]
      intro id hid
      cases hids id hid
    rw [hempty]
    exact Nat.zero_le _
  · intro id s hs
    cases hs
  · intro p hp
    cases hp
  · exact List.nodup_nil

/-- Votes and new addresses. -/
theorem Invariant.of_sameTerms (h : w.Invariant) {s : Staker} (hsame : SameTerms w.staker s) :
    Invariant { w with staker := s } := by
  have hstake : ∀ id t, s.stakes id = some t →
      ∃ t', w.staker.stakes id = some t' ∧ t'.terms = t.terms := by
    intro id t ht
    have hid := hsame id
    rw [ht, Option.map_some] at hid
    obtain ⟨t', ht', hterms⟩ := Option.map_eq_some_iff.mp hid.symm
    exact ⟨t', ht', hterms⟩
  have hsome : ∀ id, (s.stakes id).isSome = (w.staker.stakes id).isSome := by
    intro id
    have hid := congrArg Option.isSome (hsame id)
    rwa [Option.isSome_map, Option.isSome_map] at hid
  have hamount : ∀ id, amountAt { w with staker := s } id = w.amountAt id := by
    intro id
    have hid := congrArg (Option.map fun t => t.2.1) (hsame id)
    rw [Option.map_map, Option.map_map] at hid
    exact congrArg (·.getD 0) hid
  constructor
  · intro ids hids
    have hle := h.solvent ids fun id hid => by rw [← hsome]; exact hids id hid
    rw [Finset.sum_congr rfl fun id _ => hamount id]
    exact hle
  · intro id t ht
    obtain ⟨t', ht', hterms⟩ := hstake id t ht
    obtain ⟨k, d, hk, hd, hid, howner, htime, hamount, hopen⟩ := h.backed id t' ht'
    unfold Stake.terms at hterms
    obtain ⟨ho, ha, hc⟩ : t'.owner = t.owner ∧ t'.amount = t.amount ∧ t'.createdAt = t.createdAt := by
      simpa using hterms
    exact ⟨k, d, hk, hd, hid, howner.trans ho, htime.trans hc, hamount.trans ha, hopen⟩
  · exact h.paysBack
  · exact h.once

theorem PaysBack.lt {p : Payout} (h : w.PaysBack p) : p.deposit < w.deposits.length := by
  obtain ⟨d, hd, -⟩ := h
  exact (List.getElem?_eq_some_iff.mp hd).1

/-- A new stake adds its own amount. -/
theorem Solvent.join (h : w.Solvent) {s : Staker} {id : NodeIdentity} {stake : Stake}
    (hstakes : s.stakes = Function.update w.staker.stakes id (some stake))
    {ids : Finset NodeIdentity} (hids : ∀ other ∈ ids, (s.stakes other).isSome) :
    ∑ other ∈ ids, ((s.stakes other).map (·.amount)).getD 0 ≤ w.balance + stake.amount := by
  have hother : ∀ other ∈ ids.erase id, s.stakes other = w.staker.stakes other := by
    intro other hmem
    rw [hstakes, Function.update_of_ne (Finset.ne_of_mem_erase hmem)]
  have hsub := h (ids.erase id) fun other hmem => by
    rw [← hother other hmem]
    exact hids other (Finset.mem_of_mem_erase hmem)
  have hsame : ∀ other ∈ ids.erase id,
      ((s.stakes other).map (·.amount)).getD 0 = w.amountAt other := by
    intro other hmem
    rw [hother other hmem]
    rfl
  rw [← Finset.sum_congr rfl hsame] at hsub
  by_cases hmem : id ∈ ids
  · rw [← Finset.add_sum_erase ids _ hmem]
    have hnew : ((s.stakes id).map (·.amount)).getD 0 = stake.amount := by
      rw [hstakes, Function.update_self]
      rfl
    omega
  · rw [Finset.erase_eq_of_notMem hmem] at hsub
    omega

/-- A stake that is gone leaves its amount. -/
theorem Solvent.reclaim (h : w.Solvent) {s : Staker} {id : NodeIdentity} {stake : Stake}
    (hstake : w.staker.stakes id = some stake)
    (hstakes : s.stakes = Function.update w.staker.stakes id none)
    {ids : Finset NodeIdentity} (hids : ∀ other ∈ ids, (s.stakes other).isSome) :
    ∑ other ∈ ids, ((s.stakes other).map (·.amount)).getD 0 ≤ w.balance - stake.amount := by
  have hnot : id ∉ ids := by
    intro hmem
    have hsome := hids id hmem
    rw [hstakes, Function.update_self] at hsome
    cases hsome
  have hother : ∀ other ∈ ids, s.stakes other = w.staker.stakes other := by
    intro other hmem
    have hne : other ≠ id := fun heq => hnot (heq ▸ hmem)
    rw [hstakes, Function.update_of_ne hne]
  have hall := h (insert id ids) fun other hmem => by
    rcases Finset.mem_insert.mp hmem with rfl | hmem
    · rw [hstake]
      rfl
    · rw [← hother other hmem]
      exact hids other hmem
  have hown : w.amountAt id = stake.amount := by
    unfold amountAt
    rw [hstake]
    rfl
  have hsame : ∀ other ∈ ids, ((s.stakes other).map (·.amount)).getD 0 = w.amountAt other := by
    intro other hmem
    rw [hother other hmem]
    rfl
  have hsum : ∑ other ∈ ids, ((s.stakes other).map (·.amount)).getD 0 =
      ∑ other ∈ ids, w.amountAt other := Finset.sum_congr rfl hsame
  rw [Finset.sum_insert hnot] at hall
  omega

/-- A deposit comes with what it adds to the stakes. -/
theorem Invariant.of_join (h : w.Invariant) {data : NodeData} {addr : NodeAddress}
    (hmessage : c.message = .join data addr) (hexecute : w.execute c = some w') :
    w'.Invariant := by
  unfold execute at hexecute
  simp only [hmessage] at hexecute
  obtain ⟨⟨s, event⟩, hjoin, rfl⟩ := Option.map_eq_some_iff.mp hexecute
  obtain ⟨-, hfree, -, -, stake, hterms, -, -, -, hstakes⟩ := join_cases hjoin
  obtain ⟨howner, hamount, htime⟩ : stake.owner = c.caller ∧ stake.amount = c.value ∧
      stake.createdAt = c.timestamp := by
    simpa [Stake.terms, env] using hterms
  have hother : ∀ id, id ≠ ⟨data.sign, data.enc⟩ → s.stakes id = w.staker.stakes id := by
    intro id hid
    rw [hstakes, Function.update_of_ne hid]
  have hold : ∀ {k : ℕ} {d : Deposit} (d' : Deposit), w.deposits[k]? = some d →
      (w.deposits ++ [d'])[k]? = some d := by
    intro k d d' hd
    rw [List.getElem?_append_left (List.getElem?_eq_some_iff.mp hd).1, hd]
  constructor
  · intro ids hids
    have hsum := h.solvent.join hstakes hids
    rw [hamount] at hsum
    exact hsum
  · intro id t ht
    by_cases hid : id = ⟨data.sign, data.enc⟩
    · subst hid
      change s.stakes _ = some t at ht
      rw [hstakes, Function.update_self] at ht
      cases ht
      refine ⟨w.deposits.length, _, Function.update_self _ _ _, List.getElem?_concat_length, rfl,
        howner.symm, htime.symm, hamount.symm, fun hmem => ?_⟩
      obtain ⟨p, hp, heq⟩ := List.mem_map.mp hmem
      have hlt := (h.paysBack p hp).lt
      omega
    · change s.stakes id = some t at ht
      rw [hother id hid] at ht
      obtain ⟨k, d, hk, hd, hrest⟩ := h.backed id t ht
      exact ⟨k, d, (Function.update_of_ne hid _ _).trans hk, hold _ hd, hrest⟩
  · intro p hp
    obtain ⟨d, hd, hrest⟩ := h.paysBack p hp
    exact ⟨d, hold _ hd, hrest⟩
  · exact h.once

/-- What is paid is no more than what the stakes lose. -/
theorem Invariant.of_reclaim (h : w.Invariant) {identity : NodeIdentity}
    (hmessage : c.message = .reclaim identity) (hexecute : w.execute c = some w') :
    w'.Invariant := by
  unfold execute at hexecute
  simp only [hmessage] at hexecute
  split_ifs at hexecute
  obtain ⟨⟨s, value, event⟩, hreclaim, rfl⟩ := Option.map_eq_some_iff.mp hexecute
  obtain ⟨stake, hstake, howner, htime, hvalue, -, hstakes, -⟩ := reclaim_cases hreclaim
  obtain ⟨k, d, hk, hd, hid, hdowner, hdtime, hdamount, hopen⟩ := h.backed identity stake hstake
  have hother : ∀ id, id ≠ identity → s.stakes id = w.staker.stakes id := by
    intro id hne
    rw [hstakes, Function.update_of_ne hne]
  have hgone : s.stakes identity = none := by
    rw [hstakes, Function.update_self]
  constructor
  · intro ids hids
    have hsum := h.solvent.reclaim hstake hstakes hids
    change ∑ id ∈ ids, ((s.stakes id).map (·.amount)).getD 0 ≤ w.balance - value
    omega
  · intro id t ht
    have hne : id ≠ identity := by
      rintro rfl
      change s.stakes id = some t at ht
      rw [hgone] at ht
      cases ht
    change s.stakes id = some t at ht
    rw [hother id hne] at ht
    obtain ⟨k', d', hk', hd', hid', hterms'⟩ := h.backed id t ht
    obtain ⟨howner', htime', hamount', hopen'⟩ := hterms'
    refine ⟨k', d', (Function.update_of_ne hne _ _).trans hk', hd', hid', howner', htime', hamount',
      fun hmem => ?_⟩
    change k' ∈ (w.payouts ++ [_]).map Payout.deposit at hmem
    rw [List.map_append, List.mem_append, hk] at hmem
    rcases hmem with hmem | hmem
    · exact hopen' hmem
    · -- the deposit would be that of both identities
      have heq : k' = k := by simpa using hmem
      subst heq
      rw [hd] at hd'
      cases hd'
      exact hne (hid'.symm.trans hid)
  · intro p hp
    rcases List.mem_append.mp hp with hp | hp
    · exact h.paysBack p hp
    · rw [List.mem_singleton, hk] at hp
      subst hp
      refine ⟨d, hd, howner.symm.trans hdowner.symm, by simpa [hdamount] using hvalue, ?_⟩
      rw [hdtime]
      exact htime
  · change ((w.payouts ++ [_]).map Payout.deposit).Nodup
    rw [List.map_append, List.nodup_append', hk]
    refine ⟨h.once, List.nodup_singleton _, ?_⟩
    intro i hi hi'
    have heq : i = k := by simpa using hi'
    exact hopen (heq ▸ hi)

theorem Invariant.step (h : w.Invariant) (hstep : w.Step c w') : w'.Invariant := by
  unfold Step at hstep
  subst hstep
  cases hexecute : w.execute c with
  | none => exact h
  | some w' =>
    rw [Option.getD_some]
    cases hmessage : c.message with
    | join data addr => exact h.of_join hmessage hexecute
    | vote identity target rating =>
      unfold execute at hexecute
      simp only [hmessage] at hexecute
      split_ifs at hexecute
      obtain ⟨s, hvote, rfl⟩ := Option.map_eq_some_iff.mp hexecute
      exact h.of_sameTerms (vote_sameTerms hvote)
    | changeAddr identity addr =>
      unfold execute at hexecute
      simp only [hmessage] at hexecute
      split_ifs at hexecute
      obtain ⟨⟨s, event⟩, hchange, rfl⟩ := Option.map_eq_some_iff.mp hexecute
      exact h.of_sameTerms (changeAddr_sameTerms hchange)
    | reclaim identity => exact h.of_reclaim hmessage hexecute

/-- The transfer of a reclaimed stake never exceeds the balance. -/
theorem Solvent.covers (h : w.Solvent) {id : NodeIdentity} {stake : Stake} {value : ℕ}
    (hstake : w.staker.stakes id = some stake) (hvalue : stake.applySlashes = some value) :
    value ≤ w.balance := by
  have hone := h {id} fun other hother => by
    rw [Finset.mem_singleton.mp hother, hstake]
    rfl
  rw [Finset.sum_singleton] at hone
  have hamount : w.amountAt id = stake.amount := by
    unfold amountAt
    rw [hstake]
    rfl
  have hle := applySlashes_le hvalue
  omega

/-- In every state of the contract the stakes are covered, and every deposit is
paid back at most once, to who made it, in time and in full at most. -/
theorem stakes_covered {endowment : ℕ} {calls : List Call}
    (h : Run Step (fresh endowment) calls w) :
    w.Solvent ∧
    (∀ id stake value, w.staker.stakes id = some stake → stake.applySlashes = some value →
      value ≤ w.balance) ∧
    (w.payouts.map (·.deposit)).Nodup ∧ ∀ p ∈ w.payouts, w.PaysBack p := by
  have hinv : w.Invariant := h.stateInvariant (invariant_fresh endowment)
    fun _ _ _ hw hstep => hw.step hstep
  refine ⟨hinv.solvent, ?_, hinv.once, hinv.paysBack⟩
  intro id stake value hstake hvalue
  exact hinv.solvent.covers hstake hvalue

section Example

def joinFirst : Call :=
  ⟨.zero, 0, stakeAmount, .join ⟨.zero, .zero, .zero⟩ (.ip4 (.replicate 6 0))⟩

/-- At the first moment it may. -/
def reclaimFirst : Call := ⟨.zero, .ofNat stakeDurationMilis, 0, .reclaim ⟨.zero, .zero⟩⟩

theorem stakes_covered_reclaimed :
    ∃ w, Run Step (fresh 0) [joinFirst, reclaimFirst] w ∧
      w.payouts.map (·.value) = [stakeAmount] ∧ w.Solvent ∧ ∀ p ∈ w.payouts, w.PaysBack p := by
  have hrun : Run Step (fresh 0) [joinFirst, reclaimFirst] _ :=
    .next reclaimFirst (.next joinFirst .start rfl) rfl
  have h := stakes_covered hrun
  refine ⟨_, hrun, ?_, h.1, h.2.2.2⟩
  simp [execute, joinFirst, reclaimFirst, fresh, Staker.new, Staker.join, Staker.reclaim, env,
    Stake.applySlashes, stakeDurationMilis]

end Example

end World

end OrionNetwork.NodeStaker
