import OrionNetwork.NodeStaker

/-!
# Slashing

The worse a node is rated, the less of its stake it gets back. What it loses doubles
with every vote against it, as a shift of a number of 128 bits. The shift drops the
one bit that is set when it is moved out of the number, and is not defined for more.
Votes come from stakes, and any number of them may be made.
-/
namespace OrionNetwork.Slashing
open BlockHash NodeStaker Runs

section Payouts

variable {s t : Stake}

theorem applySlashes_unrated (h : s.votes.rating = 0) : s.applySlashes = some s.amount := by
  rw [Stake.applySlashes, h, if_neg (lt_irrefl 0)]

theorem applySlashes_rated (hpos : 0 < s.votes.rating) (h : s.votes.rating ≤ 126) :
    s.applySlashes = some (s.amount - 2 ^ (s.votes.rating + 1)) := by
  have hfits : 2 ^ (s.votes.rating + 1) < 2 ^ 128 := Nat.pow_lt_pow_right (by decide) (by omega)
  rw [Stake.applySlashes, if_pos hpos, if_neg (by rw [slashFactor]; omega), slashFactor, mul_one,
    baseSlash, Nat.shiftLeft_eq, ← pow_succ', Nat.mod_eq_of_lt hfits]

/-- The bit is lost. -/
theorem applySlashes_lost (h : s.votes.rating = 127) : s.applySlashes = some s.amount := by
  rw [Stake.applySlashes, h]
  rfl

theorem applySlashes_undefined (h : 128 ≤ s.votes.rating) : s.applySlashes = none := by
  rw [Stake.applySlashes, if_pos (by omega), if_pos (by rw [slashFactor]; omega)]

/-- Both payouts are defined, and the worse rating does not get more. -/
def PaysNoMore (s t : Stake) : Prop :=
  ∃ p q, s.applySlashes = some p ∧ t.applySlashes = some q ∧ q ≤ p

theorem monotone_of_le (hamount : s.amount = t.amount) (hrating : s.votes.rating ≤ t.votes.rating)
    (h : t.votes.rating ≤ 126) : PaysNoMore s t := by
  rcases Nat.eq_zero_or_pos s.votes.rating with hs | hs
  · rcases Nat.eq_zero_or_pos t.votes.rating with ht | ht
    · exact ⟨_, _, applySlashes_unrated hs, applySlashes_unrated ht, hamount.ge⟩
    · refine ⟨_, _, applySlashes_unrated hs, applySlashes_rated ht h, ?_⟩
      rw [hamount]
      exact Nat.sub_le _ _
  · have ht : 0 < t.votes.rating := by omega
    refine ⟨_, _, applySlashes_rated hs (by omega), applySlashes_rated ht h, ?_⟩
    rw [hamount]
    exact Nat.sub_le_sub_left (Nat.pow_le_pow_right (by decide) (by omega)) _

theorem monotone_lost_iff (hamount : s.amount = t.amount) (hrating : s.votes.rating ≤ 127)
    (h : t.votes.rating = 127) :
    PaysNoMore s t ↔ s.votes.rating = 0 ∨ s.votes.rating = 127 ∨ t.amount = 0 := by
  have ht := applySlashes_lost h
  by_cases hs : 0 < s.votes.rating ∧ s.votes.rating ≤ 126
  · have hpow : 0 < 2 ^ (s.votes.rating + 1) := Nat.two_pow_pos _
    rw [PaysNoMore, applySlashes_rated hs.1 hs.2, ht, hamount]
    simp only [Option.some.injEq]
    constructor
    · rintro ⟨p, q, rfl, rfl, hle⟩
      omega
    · intro hcase
      exact ⟨_, _, rfl, rfl, by omega⟩
  · have hfull : s.applySlashes = some s.amount := by
      by_cases hzero : s.votes.rating = 0
      · exact applySlashes_unrated hzero
      · exact applySlashes_lost (by omega)
    constructor
    · intro _
      omega
    · intro _
      exact ⟨_, _, hfull, ht, hamount.ge⟩

end Payouts

/-- Of two stakes of one amount the worse rated one gets no more, and both get something
defined, exactly up to a rating of 126. At 127 nothing is taken off, and more is not defined. -/
theorem slashing_monotone_iff {s t : Stake} (hamount : s.amount = t.amount)
    (hrating : s.votes.rating ≤ t.votes.rating) :
    (∃ p q, s.applySlashes = some p ∧ t.applySlashes = some q ∧ q ≤ p) ↔
      t.votes.rating ≤ 126 ∨ t.votes.rating = 127 ∧
        (s.votes.rating = 0 ∨ s.votes.rating = 127 ∨ t.amount = 0) := by
  change PaysNoMore s t ↔ _
  rcases Nat.lt_trichotomy t.votes.rating 127 with hlow | hlost | hhigh
  · have hmonotone := monotone_of_le hamount hrating (by omega)
    constructor
    · intro _
      left
      omega
    · intro _
      exact hmonotone
  · rw [monotone_lost_iff hamount (by omega) hlost]
    constructor
    · intro hcase
      exact .inr ⟨hlost, hcase⟩
    · rintro (hlow | ⟨-, hcase⟩)
      · omega
      · exact hcase
  · constructor
    · rintro ⟨p, q, -, hq, -⟩
      rw [applySlashes_undefined hhigh] at hq
      cases hq
    · intro hcase
      omega

section Ratings

open World

def address : NodeAddress := .ip4 (.replicate 6 0)

/-- The node that is voted on. -/
def target : NodeIdentity := ⟨.zero, .zero⟩

theorem length_voterKey (n : ℕ) : (UInt8.ofNat n :: UInt8.ofNat (n / 2 ^ 8) ::
    UInt8.ofNat (n / 2 ^ 16) :: UInt8.ofNat (n / 2 ^ 24) :: List.replicate 28 1).length = 32 := rfl

/-- Account keys by number. -/
def voterKey (n : ℕ) : Hash := ⟨_, length_voterKey n⟩

def voter (n : ℕ) : NodeIdentity := ⟨voterKey n, .zero⟩

def joinTarget : Call := ⟨.zero, 0, stakeAmount, .join ⟨.zero, .zero, .zero⟩ address⟩

def joinVoter (n : ℕ) : Call :=
  ⟨voterKey n, 0, stakeAmount, .join ⟨voterKey n, .zero, voterKey n⟩ address⟩

def oppose (n : ℕ) : Call := ⟨voterKey n, 0, 0, .vote (voter n) target (-1)⟩

/-- So many stakers join and cast one vote each against the node. -/
def opposedBy (n : ℕ) : List Call :=
  joinTarget :: (List.range n).flatMap fun k => [joinVoter k, oppose k]

theorem voterKey_injective {m n : ℕ} (hm : m < 2 ^ 32) (hn : n < 2 ^ 32)
    (h : voterKey m = voterKey n) : m = n := by
  have hbytes := congrArg Hash.bytes h
  simp only [voterKey, List.cons.injEq, ← UInt8.toNat_inj, UInt8.toNat_ofNat'] at hbytes
  omega

theorem voterKey_ne_zero (n : ℕ) : voterKey n ≠ .zero := by
  intro h
  have hbytes := congrArg (fun hash => hash.bytes[31]?) h
  cases hbytes

/-- The rating so far and the stakers that have not joined. -/
structure Rated (w : World) (n : ℕ) : Prop where
  stake : ∃ stake, w.staker.stakes target = some stake ∧ stake.owner = .zero ∧
    stake.amount = stakeAmount ∧ stake.votes.rating = n
  free : ∀ k, n ≤ k → k < 2 ^ 32 → w.staker.stakes (voter k) = none

theorem voter_ne_target (n : ℕ) : voter n ≠ target := by
  intro h
  exact voterKey_ne_zero n (congrArg NodeIdentity.sign h)

/-- The stake of a staker that has just joined. -/
def joined (n : ℕ) : Stake := ⟨voterKey n, stakeAmount, 0, {}, voterKey n, address⟩

theorem execute_joinVoter {w : World} {n : ℕ} (hfree : w.staker.stakes (voter n) = none) :
    ∃ w', w.execute (joinVoter n) = some w' ∧
      w'.staker.stakes = Function.update w.staker.stakes (voter n) (some (joined n)) := by
  have hjoin : w.staker.stakes ⟨voterKey n, .zero⟩ = none := hfree
  simp only [execute, joinVoter, Staker.join, World.env, ne_eq, not_true_eq_false, if_false, hjoin]
  exact ⟨_, rfl, rfl⟩

theorem execute_oppose {w : World} {n rating : ℕ} {stake : Stake}
    (hmine : w.staker.stakes (voter n) = some (joined n))
    (htarget : w.staker.stakes target = some stake) (howner : stake.owner = .zero)
    (hrating : stake.votes.rating = rating) (hless : rating + 1 < 2 ^ 32) :
    ∃ w', w.execute (oppose n) = some w' ∧
      w'.staker.stakes = Function.update (Function.update w.staker.stakes (voter n)
        (some { joined n with votes := ⟨2, 0⟩ })) target
        (some { stake with votes := ⟨stake.votes.pool, rating + 1⟩ }) := by
  have hself : ¬stake.owner = voterKey n := by
    rw [howner]
    exact (voterKey_ne_zero n).symm
  have hsum : (stake.votes.rating : ℤ) - -1 = ((rating + 1 : ℕ) : ℤ) := by
    rw [hrating]
    omega
  have hrange : ¬(((rating + 1 : ℕ) : ℤ) < 0 ∨ 2 ^ 32 ≤ ((rating + 1 : ℕ) : ℤ)) := by omega
  simp only [execute, oppose, Staker.vote, hmine, htarget, World.env, ne_eq, not_true_eq_false,
    if_false]
  have howned : ¬¬(joined n).owner = voterKey n := not_not.mpr rfl
  have hpool : ¬(joined n).votes.pool < (-1 : ℤ).natAbs := by
    change ¬3 < 1
    omega
  rw [if_neg howned, if_neg hself, if_neg hpool, hsum, if_neg hrange]
  exact ⟨_, rfl, rfl⟩

theorem rated_succ {w : World} {n : ℕ} (hn : n + 1 < 2 ^ 32) (h : Rated w n) :
    ∃ w', Run Step w [joinVoter n, oppose n] w' ∧ Rated w' (n + 1) := by
  obtain ⟨⟨stake, hstake, howner, hamount, hrating⟩, hfree⟩ := h
  obtain ⟨w₁, hexec₁, hstakes₁⟩ := execute_joinVoter (hfree n le_rfl (by omega))
  have hmine : w₁.staker.stakes (voter n) = some (joined n) := by
    rw [hstakes₁, Function.update_self]
  have htarget : w₁.staker.stakes target = some stake := by
    rw [hstakes₁, Function.update_of_ne (voter_ne_target n).symm, hstake]
  obtain ⟨w₂, hexec₂, hstakes₂⟩ := execute_oppose hmine htarget howner hrating hn
  have hjoin : Step w (joinVoter n) w₁ := by
    rw [Step, hexec₁, Option.getD_some]
  have hoppose : Step w₁ (oppose n) w₂ := by
    rw [Step, hexec₂, Option.getD_some]
  refine ⟨w₂, (Run.single hjoin).append (Run.single hoppose), ?_, ?_⟩
  · rw [hstakes₂, Function.update_self]
    exact ⟨_, rfl, howner, hamount, rfl⟩
  · intro k hk hlt
    have hother : voter k ≠ voter n := by
      intro heq
      have hkn := voterKey_injective hlt (by omega) (congrArg NodeIdentity.sign heq)
      omega
    rw [hstakes₂, Function.update_of_ne (voter_ne_target k), Function.update_of_ne hother, hstakes₁,
      Function.update_of_ne hother, hfree k (by omega) hlt]

/-- Enough stakers make any rating of 32 bits. -/
theorem rated_opposedBy {n : ℕ} (hn : n < 2 ^ 32) :
    ∃ w, Run Step (fresh 0) (opposedBy n) w ∧ Rated w n := by
  induction n with
  | zero =>
    refine ⟨_, .single rfl, ⟨_, rfl, rfl, rfl, rfl⟩, ?_⟩
    intro k _ _
    exact Function.update_of_ne (voter_ne_target k) ..
  | succ n ih =>
    obtain ⟨w, hrun, hrated⟩ := ih (by omega)
    obtain ⟨w', hrun', hrated'⟩ := rated_succ hn hrated
    refine ⟨w', ?_, hrated'⟩
    have hcalls : opposedBy (n + 1) = opposedBy n ++ [joinVoter n, oppose n] := by
      rw [opposedBy, List.range_succ, List.flatMap_append, List.flatMap_singleton]
      rfl
    rw [hcalls]
    exact hrun.append hrun'

/-- One vote takes four units off the stake, and the second doubles that. -/
theorem slashing_monotone_iff_two : ∃ w₁ w₂ s t, Run Step (fresh 0) (opposedBy 1) w₁ ∧
    Run Step (fresh 0) (opposedBy 2) w₂ ∧ w₁.staker.stakes target = some s ∧
    w₂.staker.stakes target = some t ∧
    ∃ p q, s.applySlashes = some p ∧ t.applySlashes = some q ∧ q ≤ p := by
  have hone : 1 < 2 ^ 32 := by decide
  have htwo : 2 < 2 ^ 32 := by decide
  obtain ⟨w₁, hrun₁, ⟨s, hs, -, hamount₁, hrating₁⟩, -⟩ := rated_opposedBy hone
  obtain ⟨w₂, hrun₂, ⟨t, ht, -, hamount₂, hrating₂⟩, -⟩ := rated_opposedBy htwo
  refine ⟨w₁, w₂, s, t, hrun₁, hrun₂, hs, ht, ?_⟩
  exact (slashing_monotone_iff (hamount₁.trans hamount₂.symm) (by omega)).mpr (.inl (by omega))

/-- One vote costs something, 127 votes cost nothing, and with 128 votes the stake is lost. -/
theorem slashing_not_monotone : ∃ w₁ w₂ w₃ s t u, Run Step (fresh 0) (opposedBy 1) w₁ ∧
    Run Step (fresh 0) (opposedBy 127) w₂ ∧ Run Step (fresh 0) (opposedBy 128) w₃ ∧
    w₁.staker.stakes target = some s ∧ w₂.staker.stakes target = some t ∧
    w₃.staker.stakes target = some u ∧ s.applySlashes = some 999996 ∧
    t.applySlashes = some 1000000 ∧ u.applySlashes = none := by
  have hone : 1 < 2 ^ 32 := by decide
  have hlost : 127 < 2 ^ 32 := by decide
  have hmore : 128 < 2 ^ 32 := by decide
  obtain ⟨w₁, hrun₁, ⟨s, hs, -, hamount₁, hrating₁⟩, -⟩ := rated_opposedBy hone
  obtain ⟨w₂, hrun₂, ⟨t, ht, -, hamount₂, hrating₂⟩, -⟩ := rated_opposedBy hlost
  obtain ⟨w₃, hrun₃, ⟨u, hu, -, -, hrating₃⟩, -⟩ := rated_opposedBy hmore
  refine ⟨w₁, w₂, w₃, s, t, u, hrun₁, hrun₂, hrun₃, hs, ht, hu, ?_, ?_, ?_⟩
  · rw [applySlashes_rated (by omega) (by omega), hamount₁, hrating₁]
    rfl
  · rw [applySlashes_lost hrating₂, hamount₂]
    rfl
  · exact applySlashes_undefined hrating₃.ge

end Ratings

end OrionNetwork.Slashing
