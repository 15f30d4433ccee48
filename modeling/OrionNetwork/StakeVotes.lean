import OrionNetwork.StakeMirror

/-!
# The list of stakes and their votes

The contract keeps its stakes in a mapping and their keys in a vector, which
different statements of different messages update. A vote reads two stakes,
changes both copies and writes them back one after the other, so the second
write would undo the first if they were the same stake.
-/
namespace OrionNetwork.StakeVotes
open BlockHash Runs NodeStaker StakeMirror

/-- Votes only leave a pool. -/
def PoolsBounded (s : Staker) : Prop :=
  ∀ id stake, s.stakes id = some stake → stake.votes.pool ≤ initVotePool

/-- What an accepted vote does to the stakes. -/
structure Moved (s : Staker) (identity target : NodeIdentity) (rating : ℤ) (s' : Staker) :
    Prop where
  ne : identity ≠ target
  spent : ∃ stake : Stake, ∃ pool : ℕ, s.stakes identity = some stake ∧
    pool + rating.natAbs = stake.votes.pool ∧
    s'.stakes identity = some { stake with votes := ⟨pool, stake.votes.rating⟩ }
  received : ∃ stake : Stake, ∃ sum : ℕ, s.stakes target = some stake ∧
    (sum : ℤ) = stake.votes.rating + -rating ∧
    s'.stakes target = some { stake with votes := ⟨stake.votes.pool, sum⟩ }
  others : ∀ id, id ≠ identity → id ≠ target → s'.stakes id = s.stakes id
  stakeList : s'.stakeList = s.stakeList

section Votes

variable {s s' : Staker} {env : Env}

theorem moved_of_vote {identity target : NodeIdentity} {rating : ℤ}
    (h : s.vote env identity target rating = some s') : Moved s identity target rating s' := by
  obtain ⟨stake, targetStake, sum, hstake, htarget, hne, -, -, hpool, hsum, rfl⟩ := vote_cases h
  refine ⟨hne, ⟨stake, _, hstake, Nat.sub_add_cancel hpool, ?_⟩,
    ⟨targetStake, sum, htarget, hsum.trans (sub_eq_add_neg ..), ?_⟩, ?_, rfl⟩
  · exact (Function.update_of_ne hne ..).trans (Function.update_self ..)
  · exact Function.update_self ..
  · intro id hid hid'
    exact (Function.update_of_ne hid' ..).trans (Function.update_of_ne hid ..)

theorem PoolsBounded.update (h : PoolsBounded s) {id : NodeIdentity} {stake : Option Stake}
    (hstake : ∀ st, stake = some st → st.votes.pool ≤ initVotePool)
    (hs' : s'.stakes = Function.update s.stakes id stake) : PoolsBounded s' := by
  intro other st hst
  rw [hs', Function.update_apply] at hst
  split_ifs at hst
  · exact hstake st hst
  · exact h other st hst

theorem PoolsBounded.vote {identity target : NodeIdentity} {rating : ℤ} (h : PoolsBounded s)
    (hvote : s.vote env identity target rating = some s') : PoolsBounded s' := by
  have hmoved := moved_of_vote hvote
  obtain ⟨stake, pool, hstake, hpool, hvoter⟩ := hmoved.spent
  obtain ⟨targetStake, sum, htargetStake, -, htarget⟩ := hmoved.received
  intro id st hst
  by_cases hid : id = identity
  · rw [hid, hvoter] at hst
    cases hst
    have hbound := h identity stake hstake
    exact (Nat.le_add_right pool _).trans (hpool.le.trans hbound)
  by_cases hid' : id = target
  · rw [hid', htarget] at hst
    cases hst
    exact h target targetStake htargetStake
  · rw [hmoved.others id hid hid'] at hst
    exact h id st hst

theorem PoolsBounded.join {data : NodeData} {addr : NodeAddress} {event : Event}
    (h : PoolsBounded s) (hjoin : s.join env data addr = some (s', event)) : PoolsBounded s' := by
  obtain ⟨-, -, -, -, stake, -, hvotes, -, -, hs'⟩ := join_cases hjoin
  refine h.update ?_ hs'
  intro st hst
  cases hst
  rw [hvotes]

theorem PoolsBounded.changeAddr {identity : NodeIdentity} {addr : NodeAddress} {event : Event}
    (h : PoolsBounded s) (hchange : s.changeAddr env identity addr = some (s', event)) :
    PoolsBounded s' := by
  obtain ⟨stake, hstake, -, -, rfl⟩ := changeAddr_cases hchange
  refine h.update ?_ rfl
  intro st hst
  cases hst
  exact h identity stake hstake

theorem PoolsBounded.reclaim {identity : NodeIdentity} {value : ℕ} {event : Event}
    (h : PoolsBounded s) (hreclaim : s.reclaim env identity = some (s', value, event)) :
    PoolsBounded s' := by
  obtain ⟨-, -, -, -, -, -, hs', -⟩ := reclaim_cases hreclaim
  refine h.update ?_ hs'
  intro st hst
  cases hst

end Votes

section Stakes

variable {w w' : World} {c : Call}

theorem PoolsBounded.execute (h : PoolsBounded w.staker) (hexec : w.execute c = some w') :
    PoolsBounded w'.staker := by
  obtain ⟨caller, timestamp, value, message⟩ := c
  cases message with
  | join data addr =>
    obtain ⟨r, hr, rfl⟩ := Option.map_eq_some_iff.mp hexec
    exact h.join hr
  | vote identity target rating =>
    simp only [World.execute] at hexec
    split_ifs at hexec
    obtain ⟨r, hr, rfl⟩ := Option.map_eq_some_iff.mp hexec
    exact h.vote hr
  | changeAddr identity addr =>
    simp only [World.execute] at hexec
    split_ifs at hexec
    obtain ⟨r, hr, rfl⟩ := Option.map_eq_some_iff.mp hexec
    exact h.changeAddr hr
  | reclaim identity =>
    simp only [World.execute] at hexec
    split_ifs at hexec
    obtain ⟨r, hr, rfl⟩ := Option.map_eq_some_iff.mp hexec
    exact h.reclaim hr

/-- The invariant of the contract: its list and the pools. -/
structure Kept (s : Staker) : Prop where
  listed : Listed s
  pools : PoolsBounded s

theorem Kept.step (h : Kept w.staker) (hstep : World.Step w c w') : Kept w'.staker := by
  cases hstep
  refine ⟨h.listed.effect (call_effect w c), ?_⟩
  cases hexec : w.execute c with
  | none => exact h.pools
  | some u => exact h.pools.execute hexec

theorem Kept.run {endowment : ℕ} {calls : List Call}
    (h : Run World.Step (.fresh endowment) calls w) : Kept w.staker := by
  apply h.stateInvariant
  · refine ⟨(@Following.fresh sampleKeys endowment).listed, ?_⟩
    intro id stake hstake
    cases hstake
  · intro t c u ht hstep
    exact ht.step hstep

/-- In every state of the contract the list is the keys of the stakes, and an
accepted vote moves what it says and nothing else. -/
theorem stakes_listed_once {endowment : ℕ} {calls : List Call}
    (h : Run World.Step (.fresh endowment) calls w) :
    w.staker.stakeList.Nodup ∧
    (∀ id, id ∈ w.staker.stakeList ↔ w.staker.stakes id ≠ none) ∧
    w.staker.list ≠ none ∧
    PoolsBounded w.staker ∧
    ∀ c w' identity target rating, c.message = .vote identity target rating →
      w.execute c = some w' → Moved w.staker identity target rating w'.staker := by
  have hkept := Kept.run h
  refine ⟨hkept.listed.nodup, ?_, ?_, hkept.pools, ?_⟩
  · intro id
    rw [hkept.listed.mem, seats, ne_eq, ne_eq, Option.map_eq_none_iff]
  · obtain ⟨nodes, hnodes, -⟩ := list_eq hkept.listed
    rw [hnodes]
    exact Option.some_ne_none nodes
  · rintro ⟨caller, timestamp, value, message⟩ w' identity target rating rfl hexec
    simp only [World.execute] at hexec
    split_ifs at hexec
    obtain ⟨r, hr, rfl⟩ := Option.map_eq_some_iff.mp hexec
    exact moved_of_vote hr

def runOf (calls : List Call) : World :=
  calls.foldl (fun w c => (w.execute c).getD w) (.fresh 0)

/-- Two accounts join. -/
def joins : List Call :=
  [⟨.zero, 0, stakeAmount, .join ⟨.zero, .zero, .zero⟩ localhost⟩,
    ⟨one, 0, stakeAmount, .join ⟨one, .zero, one⟩ localhost⟩]

/-- The second of them votes against the first. -/
def against : Call := ⟨one, 0, 0, .vote ⟨one, .zero⟩ ⟨.zero, .zero⟩ (-2)⟩

theorem stakes_listed_once_voted :
    (runOf joins).staker.stakeList.length = 2 ∧
      Moved (runOf joins).staker ⟨one, .zero⟩ ⟨.zero, .zero⟩ (-2)
        (runOf (joins ++ [against])).staker := by
  have hfirst : Run World.Step (.fresh 0) (joins.take 1) (runOf (joins.take 1)) := .single rfl
  have hrun : Run World.Step (.fresh 0) joins (runOf joins) := hfirst.append (.single rfl)
  exact ⟨by decide +kernel,
    (stakes_listed_once hrun).2.2.2.2 against _ _ _ _ rfl rfl⟩

end Stakes

end OrionNetwork.StakeVotes
