import OrionNetwork.BlockHash
import OrionNetwork.Runs

/-!
# The contract of user names

An account registers the hashes of its keys and may hold one name. The name is
found from the account, from the hash of its signing key and the other way
round, each through a mapping of its own. A message that panics has no effect.

The mapping from signing keys is filled under the key that an account has when
it gets the name, and read under the key that it has later on.
-/
namespace OrionNetwork.UserNames
open BlockHash Runs

abbrev RawUserName := Hash
abbrev CryptoHash := Hash
abbrev AccountId := Hash

structure Profile where
  sign : CryptoHash
  enc : CryptoHash

abbrev Mapping (K V : Type) := K → Option V

namespace Mapping

variable {K V : Type} [DecidableEq K]

/-- Fails if there was a value. -/
def insertNew (m : Mapping K V) (k : K) (v : V) : Option (Mapping K V) :=
  match m k with
  | some _ => none
  | none => some (Function.update m k (some v))

/-- Fails if the value taken out is another one. -/
def takeExpected [DecidableEq V] (m : Mapping K V) (k : K) (v : V) : Option (Mapping K V) :=
  if m k = some v then some (Function.update m k none) else none

end Mapping

structure UserManager where
  usernameToOwner : Mapping RawUserName AccountId
  ownerToUsername : Mapping AccountId RawUserName
  identityToUsername : Mapping CryptoHash RawUserName
  identities : Mapping AccountId Profile

namespace UserManager

def new : UserManager := ⟨fun _ => none, fun _ => none, fun _ => none, fun _ => none⟩

def register (s : UserManager) (caller : AccountId) (data : Profile) : UserManager :=
  { s with identities := Function.update s.identities caller (some data) }

/-- The three insertions of a name for an account. -/
def assign (s : UserManager) (account : AccountId) (name : RawUserName) : Option UserManager := do
  let ownerToUsername ← Mapping.insertNew s.ownerToUsername account name
  let usernameToOwner ← Mapping.insertNew s.usernameToOwner name account
  let identity ← s.identities account
  let identityToUsername ← Mapping.insertNew s.identityToUsername identity.sign name
  some { s with
    ownerToUsername := ownerToUsername
    usernameToOwner := usernameToOwner
    identityToUsername := identityToUsername }

def pickName (s : UserManager) (caller : AccountId) (name : RawUserName) : Option UserManager :=
  s.assign caller name

def registerWithName (s : UserManager) (caller : AccountId) (name : RawUserName)
    (data : Profile) : Option UserManager :=
  (s.register caller data).pickName caller name

def giveUpName (s : UserManager) (caller : AccountId) (name : RawUserName) :
    Option UserManager := do
  let usernameToOwner ← Mapping.takeExpected s.usernameToOwner name caller
  let ownerToUsername ← Mapping.takeExpected s.ownerToUsername caller name
  let identity ← s.identities caller
  let identityToUsername ← Mapping.takeExpected s.identityToUsername identity.sign name
  some { s with
    ownerToUsername := ownerToUsername
    usernameToOwner := usernameToOwner
    identityToUsername := identityToUsername }

def transfereName (s : UserManager) (caller : AccountId) (name : RawUserName)
    (target : AccountId) : Option UserManager :=
  (s.giveUpName caller name).bind fun s => s.assign target name

def getProfile (s : UserManager) (account : AccountId) : Option Profile := s.identities account

def getProfileByName (s : UserManager) (name : RawUserName) : Option Profile :=
  (s.usernameToOwner name).bind s.identities

def getUsername (s : UserManager) (identity : CryptoHash) : Option RawUserName :=
  s.identityToUsername identity

end UserManager

inductive Message where
  | registerWithName (name : RawUserName) (data : Profile)
  | register (data : Profile)
  | pickName (name : RawUserName)
  | giveUpName (name : RawUserName)
  | transfereName (name : RawUserName) (target : AccountId)

structure Call where
  caller : AccountId
  message : Message

def execute (s : UserManager) (c : Call) : Option UserManager :=
  match c.message with
  | .registerWithName name data => s.registerWithName c.caller name data
  | .register data => some (s.register c.caller data)
  | .pickName name => s.pickName c.caller name
  | .giveUpName name => s.giveUpName c.caller name
  | .transfereName name target => s.transfereName c.caller name target

/-- A panic reverts everything. -/
def Step (s : UserManager) (c : Call) (s' : UserManager) : Prop := s' = (execute s c).getD s

/-- The account holds the name. -/
def Holds (s : UserManager) (a : AccountId) (n : RawUserName) : Prop :=
  s.ownerToUsername a = some n

/-- A held name is found from the current signing key of its holder and can be
given up, and nothing else is found. -/
structure Coherent (s : UserManager) : Prop where
  found : ∀ a n, Holds s a n → ∃ p, s.getProfile a = some p ∧ s.getUsername p.sign = some n
  givenUp : ∀ a n, Holds s a n → (s.giveUpName a n).isSome
  arises : ∀ identity n, s.getUsername identity = some n →
    ∃ a p, Holds s a n ∧ s.getProfile a = some p ∧ p.sign = identity

/-- An account that holds a name registers its signing key anew. -/
def KeepsSign (s : UserManager) (c : Call) : Prop :=
  ∀ data n p, c.message = .register data → Holds s c.caller n → s.getProfile c.caller = some p →
    data.sign = p.sign

section Effects

variable {s s' : UserManager} {a b : AccountId} {n m : RawUserName}

theorem insertNew_eq_some {K V : Type} [DecidableEq K] {f f' : Mapping K V} {k : K} {v : V} :
    Mapping.insertNew f k v = some f' ↔ f k = none ∧ Function.update f k (some v) = f' := by
  unfold Mapping.insertNew
  cases f k <;> simp

theorem takeExpected_eq_some {K V : Type} [DecidableEq K] [DecidableEq V] {f f' : Mapping K V}
    {k : K} {v : V} :
    Mapping.takeExpected f k v = some f' ↔ f k = some v ∧ Function.update f k none = f' := by
  unfold Mapping.takeExpected
  split_ifs with h <;> simp [h]

theorem assign_eq_some : s.assign a n = some s' ↔
    ∃ p, s.ownerToUsername a = none ∧ s.usernameToOwner n = none ∧ s.identities a = some p ∧
      s.identityToUsername p.sign = none ∧
      s' = ⟨Function.update s.usernameToOwner n (some a), Function.update s.ownerToUsername a (some n),
        Function.update s.identityToUsername p.sign (some n), s.identities⟩ := by
  unfold UserManager.assign
  simp only [Option.bind_eq_bind, Option.bind_eq_some_iff, insertNew_eq_some, Option.some_inj]
  constructor
  · rintro ⟨_, ⟨howner, rfl⟩, _, ⟨hname, rfl⟩, p, hp, _, ⟨hsign, rfl⟩, rfl⟩
    exact ⟨p, howner, hname, hp, hsign, rfl⟩
  · rintro ⟨p, howner, hname, hp, hsign, rfl⟩
    exact ⟨_, ⟨howner, rfl⟩, _, ⟨hname, rfl⟩, p, hp, _, ⟨hsign, rfl⟩, rfl⟩

theorem giveUpName_eq_some : s.giveUpName a n = some s' ↔
    ∃ p, s.usernameToOwner n = some a ∧ s.ownerToUsername a = some n ∧ s.identities a = some p ∧
      s.identityToUsername p.sign = some n ∧
      s' = ⟨Function.update s.usernameToOwner n none, Function.update s.ownerToUsername a none,
        Function.update s.identityToUsername p.sign none, s.identities⟩ := by
  unfold UserManager.giveUpName
  simp only [Option.bind_eq_bind, Option.bind_eq_some_iff, takeExpected_eq_some, Option.some_inj]
  constructor
  · rintro ⟨_, ⟨howner, rfl⟩, _, ⟨hname, rfl⟩, p, hp, _, ⟨hsign, rfl⟩, rfl⟩
    exact ⟨p, howner, hname, hp, hsign, rfl⟩
  · rintro ⟨p, howner, hname, hp, hsign, rfl⟩
    exact ⟨_, ⟨howner, rfl⟩, _, ⟨hname, rfl⟩, p, hp, _, ⟨hsign, rfl⟩, rfl⟩

theorem giveUpName_isSome : (s.giveUpName a n).isSome ↔
    s.usernameToOwner n = some a ∧ Holds s a n ∧
      ∃ p, s.identities a = some p ∧ s.identityToUsername p.sign = some n := by
  rw [Option.isSome_iff_exists]
  constructor
  · rintro ⟨s', h⟩
    obtain ⟨p, hname, howner, hp, hsign, -⟩ := giveUpName_eq_some.mp h
    exact ⟨hname, howner, p, hp, hsign⟩
  · rintro ⟨hname, howner, p, hp, hsign⟩
    exact ⟨_, giveUpName_eq_some.mpr ⟨p, hname, howner, hp, hsign, rfl⟩⟩

end Effects

section Coherence

variable {s s' : UserManager} {a b : AccountId} {n m : RawUserName}

theorem Coherent.owner (h : Coherent s) (hold : Holds s a n) : s.usernameToOwner n = some a :=
  (giveUpName_isSome.mp (h.givenUp a n hold)).1

/-- The profile that a name leads to is that of its holder. -/
theorem Coherent.getProfileByName (h : Coherent s) (hold : Holds s a n) :
    s.getProfileByName n = s.getProfile a := by
  rw [UserManager.getProfileByName, h.owner hold]
  rfl

/-- A name has one holder. -/
theorem Coherent.unique (h : Coherent s) (ha : Holds s a n) (hb : Holds s b n) : a = b := by
  have heq := (h.owner ha).symm.trans (h.owner hb)
  exact Option.some.inj heq

/-- Coherence in terms of the mappings. -/
theorem coherent_iff : Coherent s ↔
    (∀ a n, Holds s a n → s.usernameToOwner n = some a ∧
      ∃ p, s.identities a = some p ∧ s.identityToUsername p.sign = some n) ∧
    ∀ identity n, s.identityToUsername identity = some n →
      ∃ a p, Holds s a n ∧ s.identities a = some p ∧ p.sign = identity := by
  constructor
  · intro h
    exact ⟨fun a n hold => ⟨h.owner hold, h.found a n hold⟩, h.arises⟩
  · rintro ⟨hheld, harises⟩
    refine ⟨fun a n hold => (hheld a n hold).2, ?_, harises⟩
    intro a n hold
    exact giveUpName_isSome.mpr ⟨(hheld a n hold).1, hold, (hheld a n hold).2⟩

theorem Coherent.new : Coherent .new := by
  refine coherent_iff.mpr ⟨?_, ?_⟩
  · intro a n hold
    cases hold
  · intro identity n h
    cases h

theorem Coherent.assign (h : Coherent s) (hassign : s.assign a n = some s') : Coherent s' := by
  obtain ⟨p, howner, hname, hp, hsign, rfl⟩ := assign_eq_some.mp hassign
  -- neither the account nor the name nor the key is in use
  have hnotName : ∀ b, ¬ Holds s b n := by
    intro b hb
    rw [h.owner hb] at hname
    cases hname
  have hnotKey : ∀ b m q, Holds s b m → s.identities b = some q → q.sign ≠ p.sign := by
    intro b m q hb hq heq
    obtain ⟨q', hq', hfound⟩ := h.found b m hb
    cases hq.symm.trans hq'
    rw [UserManager.getUsername, heq, hsign] at hfound
    cases hfound
  have hheld : ∀ b m, Function.update s.ownerToUsername a (some n) b = some m →
      (b = a ∧ m = n) ∨ (b ≠ a ∧ Holds s b m) := by
    intro b m hb
    rw [Function.update_apply] at hb
    split_ifs at hb with heq
    · exact .inl ⟨heq, (Option.some.inj hb).symm⟩
    · exact .inr ⟨heq, hb⟩
  refine coherent_iff.mpr ⟨?_, ?_⟩
  · intro b m hb
    rcases hheld b m hb with ⟨rfl, rfl⟩ | ⟨hne, hold⟩
    · exact ⟨Function.update_self .., p, hp, Function.update_self ..⟩
    · have hm : m ≠ n := by
        rintro rfl
        exact hnotName b hold
      obtain ⟨q, hq, hfound⟩ := h.found b m hold
      refine ⟨?_, q, hq, ?_⟩
      · exact (Function.update_of_ne hm ..).trans (h.owner hold)
      · exact (Function.update_of_ne (hnotKey b m q hold hq) ..).trans hfound
  · intro identity m hm
    simp only [Function.update_apply] at hm
    split_ifs at hm with heq
    · cases hm
      exact ⟨a, p, Function.update_self .., hp, heq.symm⟩
    · obtain ⟨b, q, hb, hq, hqs⟩ := h.arises identity m hm
      have hne : b ≠ a := by
        rintro rfl
        rw [Holds, howner] at hb
        cases hb
      exact ⟨b, q, (Function.update_of_ne hne ..).trans hb, hq, hqs⟩

theorem Coherent.giveUpName (h : Coherent s) (hgive : s.giveUpName a n = some s') :
    Coherent s' := by
  obtain ⟨p, howner, hname, hp, hsign, rfl⟩ := giveUpName_eq_some.mp hgive
  have hheld : ∀ b m, Function.update s.ownerToUsername a none b = some m →
      b ≠ a ∧ Holds s b m := by
    intro b m hb
    rw [Function.update_apply] at hb
    split_ifs at hb with heq
    exact ⟨heq, hb⟩
  refine coherent_iff.mpr ⟨?_, ?_⟩
  · intro b m hb
    obtain ⟨hne, hold⟩ := hheld b m hb
    obtain ⟨q, hq, hfound⟩ := h.found b m hold
    have hm : m ≠ n := by
      rintro rfl
      exact hne (h.unique hold hname)
    have hkey : q.sign ≠ p.sign := by
      intro heq
      rw [UserManager.getUsername, heq, hsign] at hfound
      exact hm (Option.some.inj hfound).symm
    refine ⟨?_, q, hq, ?_⟩
    · exact (Function.update_of_ne hm ..).trans (h.owner hold)
    · exact (Function.update_of_ne hkey ..).trans hfound
  · intro identity m hm
    simp only [Function.update_apply] at hm
    split_ifs at hm with heq
    obtain ⟨b, q, hb, hq, hqs⟩ := h.arises identity m hm
    have hne : b ≠ a := by
      rintro rfl
      cases hq.symm.trans hp
      exact heq hqs.symm
    exact ⟨b, q, (Function.update_of_ne hne ..).trans hb, hq, hqs⟩

/-- Registering anew does no harm as long as it does not change the key under
which a held name is found. -/
theorem Coherent.register (h : Coherent s) {data : Profile}
    (hkeeps : ∀ n p, Holds s a n → s.identities a = some p → data.sign = p.sign) :
    Coherent (s.register a data) := by
  refine coherent_iff.mpr ⟨?_, ?_⟩
  · intro b m hb
    obtain ⟨q, hq, hfound⟩ := h.found b m hb
    refine ⟨h.owner hb, ?_⟩
    by_cases heq : b = a
    · subst heq
      refine ⟨data, Function.update_self .., ?_⟩
      rw [hkeeps m q hb hq]
      exact hfound
    · exact ⟨q, (Function.update_of_ne heq ..).trans hq, hfound⟩
  · intro identity m hm
    obtain ⟨b, q, hb, hq, hqs⟩ := h.arises identity m hm
    by_cases heq : b = a
    · subst heq
      exact ⟨b, data, hb, Function.update_self .., (hkeeps m q hb hq).trans hqs⟩
    · exact ⟨b, q, hb, (Function.update_of_ne heq ..).trans hq, hqs⟩

theorem Coherent.step {c : Call} (h : Coherent s) (hok : KeepsSign s c) (hstep : Step s c s') :
    Coherent s' := by
  cases hstep
  cases hexec : execute s c with
  | none => exact h
  | some t =>
    obtain ⟨caller, message⟩ := c
    change Coherent t
    cases message with
    | registerWithName name data =>
      -- a holder cannot pick a second name
      obtain ⟨p, howner, -⟩ := assign_eq_some.mp hexec
      refine Coherent.assign (h.register ?_) hexec
      intro n q hold
      rw [Holds] at hold
      exact absurd (howner.symm.trans hold) (by simp)
    | register data =>
      cases hexec
      exact h.register fun n p hold hp => hok data n p rfl hold hp
    | pickName name => exact h.assign hexec
    | giveUpName name => exact h.giveUpName hexec
    | transfereName name target =>
      obtain ⟨u, hgive, hassign⟩ := Option.bind_eq_some_iff.mp hexec
      exact (h.giveUpName hgive).assign hassign

theorem keepsSign_of_coherent {c : Call} (h : Coherent s) (hstep : Step s c s')
    (h' : Coherent s') : KeepsSign s c := by
  intro data n p hmessage hold hp
  obtain ⟨caller, message⟩ := c
  cases hmessage
  cases hstep
  obtain ⟨q, hq, hfound⟩ := h.found caller n hold
  cases hp.symm.trans hq
  -- the entry under the old key needs its account
  obtain ⟨b, q, hb, hq, hqs⟩ := h'.arises p.sign n hfound
  obtain rfl : b = caller := h.unique hb hold
  have hdata : (s.register b data).getProfile b = some data := Function.update_self ..
  cases hdata.symm.trans hq
  exact hqs

/-- Names are coherent throughout a run exactly if no account that holds a name
registers another signing key in it. -/
theorem coherent_iff_keepsSign {calls : List Call} {s : UserManager}
    (h : Run Step .new calls s) :
    (∀ calls' s', calls' <+: calls → Run Step .new calls' s' → Coherent s') ↔
      Run (guarded KeepsSign Step) .new calls s := by
  refine Run.forall_iff_guarded ?_ Coherent.new (fun _ ht => ht) ?_ ?_ h
  · intro s c t u ht hu
    exact ht.trans hu.symm
  · intro t c u ht hok hstep
    exact ht.step hok hstep
  · intro t c u ht hstep hu
    exact keepsSign_of_coherent ht hstep hu

def runOf (calls : List Call) : UserManager :=
  calls.foldl (fun s c => (execute s c).getD s) .new

def one : Hash := ⟨List.replicate 32 1, by simp⟩

def named : List Call :=
  [⟨.zero, .register ⟨.zero, .zero⟩⟩, ⟨.zero, .pickName .zero⟩, ⟨.zero, .register ⟨.zero, one⟩⟩]

theorem coherent_iff_keepsSign_named :
    (runOf named).ownerToUsername .zero = some .zero ∧ Coherent (runOf named) := by
  have hrun : Run Step .new named (runOf named) :=
    ((Run.single rfl).append (Run.single rfl)).append (Run.single rfl)
  have hfirst : KeepsSign .new ⟨.zero, .register ⟨.zero, .zero⟩⟩ := by
    intro data n p _ hold
    cases hold
  have hsecond : KeepsSign (runOf (named.take 1)) ⟨.zero, .pickName .zero⟩ := by
    intro data n p hmessage
    cases hmessage
  have hthird : KeepsSign (runOf (named.take 2)) ⟨.zero, .register ⟨.zero, one⟩⟩ := by
    intro data n p hmessage _ hp
    cases hmessage
    have hzero : (runOf (named.take 2)).getProfile .zero = some ⟨.zero, .zero⟩ := rfl
    cases hzero.symm.trans hp
    rfl
  have hguarded : Run (guarded KeepsSign Step) .new named (runOf named) :=
    ((Run.single ⟨hfirst, rfl⟩).append (Run.single ⟨hsecond, rfl⟩)).append
      (Run.single ⟨hthird, rfl⟩)
  exact ⟨by decide +kernel,
    (coherent_iff_keepsSign hrun).mpr hguarded named _ List.prefix_rfl hrun⟩

/-- The holder of a name takes another signing key. -/
theorem register_breaks_names :
    ¬ ∀ (calls : List Call) (s : UserManager), Run Step .new calls s → Coherent s := by
  intro h
  have hrun : Run Step .new
      ([⟨.zero, .register ⟨.zero, .zero⟩⟩] ++ [⟨.zero, .pickName .zero⟩] ++
        [⟨.zero, .register ⟨one, .zero⟩⟩])
      (runOf [⟨.zero, .register ⟨.zero, .zero⟩⟩, ⟨.zero, .pickName .zero⟩,
        ⟨.zero, .register ⟨one, .zero⟩⟩]) :=
    ((Run.single rfl).append (Run.single rfl)).append (Run.single rfl)
  have hgive := (h _ _ hrun).givenUp .zero .zero (by unfold Holds; decide +kernel)
  revert hgive
  decide +kernel

end Coherence

section Ownership

variable {s s' : UserManager} {a b : AccountId} {n m : RawUserName}

/-- The owner of a name and the name of an owner are each other's inverse. -/
def Bijective (s : UserManager) : Prop :=
  ∀ n a, s.usernameToOwner n = some a ↔ Holds s a n

theorem Bijective.assign (h : Bijective s) (hassign : s.assign a n = some s') : Bijective s' := by
  obtain ⟨p, howner, hname, -, -, rfl⟩ := assign_eq_some.mp hassign
  intro m b
  simp only [Holds, Function.update_apply]
  by_cases hm : m = n
  · subst hm
    by_cases hb : b = a
    · simp [hb]
    · have hnot : s.ownerToUsername b ≠ some m := by
        intro hold
        rw [(h m b).mpr hold] at hname
        cases hname
      simp [hb, Ne.symm hb, hnot]
  · by_cases hb : b = a
    · subst hb
      have hnot : s.usernameToOwner m ≠ some b := by
        intro hold
        rw [(h m b).mp hold] at howner
        cases howner
      simp [hm, Ne.symm hm, hnot]
    · have hother : s.usernameToOwner m = some b ↔ s.ownerToUsername b = some m := h m b
      simpa [hm, hb] using hother

theorem Bijective.giveUpName (h : Bijective s) (hgive : s.giveUpName a n = some s') :
    Bijective s' := by
  obtain ⟨p, hname, howner, -, -, rfl⟩ := giveUpName_eq_some.mp hgive
  intro m b
  simp only [Holds, Function.update_apply]
  by_cases hm : m = n
  · subst hm
    by_cases hb : b = a
    · simp [hb]
    · have hnot : s.ownerToUsername b ≠ some m := by
        intro hold
        have hsame := hname.symm.trans ((h m b).mpr hold)
        exact hb (Option.some.inj hsame).symm
      simp [hb, hnot]
  · by_cases hb : b = a
    · subst hb
      have hnot : s.usernameToOwner m ≠ some b := by
        intro hold
        have hsame := howner.symm.trans ((h m b).mp hold)
        exact hm (Option.some.inj hsame).symm
      simp [hm, hnot]
    · have hother : s.usernameToOwner m = some b ↔ s.ownerToUsername b = some m := h m b
      simpa [hm, hb] using hother

/-- Who owns which name, before and after a message that did not panic. -/
theorem Bijective.execute {c : Call} (h : Bijective s) (hexec : execute s c = some s') :
    Bijective s' ∧
      ∀ n a, s.usernameToOwner n = some a → c.caller ≠ a → s'.usernameToOwner n = some a := by
  obtain ⟨caller, message⟩ := c
  have hassigned : ∀ {t t' : UserManager} {b : AccountId} {m : RawUserName},
      t.assign b m = some t' → ∀ n a, t.usernameToOwner n = some a →
        t'.usernameToOwner n = some a := by
    intro t t' b m hassign n a hold
    obtain ⟨p, -, hname, -, -, rfl⟩ := assign_eq_some.mp hassign
    have hne : n ≠ m := by
      rintro rfl
      rw [hname] at hold
      cases hold
    exact (Function.update_of_ne hne ..).trans hold
  have hgiven : ∀ {t' : UserManager} {m : RawUserName}, s.giveUpName caller m = some t' →
      ∀ n a, s.usernameToOwner n = some a → caller ≠ a → t'.usernameToOwner n = some a := by
    intro t' m hgive n a hold hcaller
    obtain ⟨p, hname, -, -, -, rfl⟩ := giveUpName_eq_some.mp hgive
    have hne : n ≠ m := by
      rintro rfl
      exact hcaller (Option.some.inj (hname.symm.trans hold))
    exact (Function.update_of_ne hne ..).trans hold
  cases message with
  | registerWithName name data =>
    have hregistered : Bijective (s.register caller data) := h
    exact ⟨hregistered.assign hexec, fun n a hold _ => hassigned hexec n a hold⟩
  | register data =>
    cases hexec
    exact ⟨h, fun n a hold _ => hold⟩
  | pickName name => exact ⟨h.assign hexec, fun n a hold _ => hassigned hexec n a hold⟩
  | giveUpName name => exact ⟨h.giveUpName hexec, hgiven hexec⟩
  | transfereName name target =>
    obtain ⟨u, hgive, hassign⟩ := Option.bind_eq_some_iff.mp hexec
    refine ⟨(h.giveUpName hgive).assign hassign, ?_⟩
    intro n a hold hcaller
    exact hassigned hassign n a (hgiven hgive n a hold hcaller)

/-- In every state of the contract each name has one owner and each owner one
name, and a message of anyone but its owner leaves a name where it is. -/
theorem names_owned {calls : List Call} (h : Run Step .new calls s) :
    (∀ n a, s.usernameToOwner n = some a ↔ s.ownerToUsername a = some n) ∧
    ∀ c s', Step s c s' → ∀ n a, s.usernameToOwner n = some a → c.caller ≠ a →
      s'.usernameToOwner n = some a ∧ s'.ownerToUsername a = some n := by
  have hall : ∀ {t t' : UserManager} {c : Call}, Bijective t → Step t c t' → Bijective t' ∧
      ∀ n a, t.usernameToOwner n = some a → c.caller ≠ a → t'.usernameToOwner n = some a := by
    intro t t' c ht hstep
    cases hstep
    cases hexec : UserNames.execute t c with
    | none => exact ⟨ht, fun n a hold _ => hold⟩
    | some u => exact ht.execute hexec
  have hs : Bijective s := by
    refine h.stateInvariant ?_ fun t c u ht hstep => (hall ht hstep).1
    intro n a
    exact ⟨nofun, nofun⟩
  refine ⟨hs, ?_⟩
  intro c s' hstep n a hold hcaller
  obtain ⟨hbijective, hkept⟩ := hall hs hstep
  exact ⟨hkept n a hold hcaller, (hbijective n a).mp (hkept n a hold hcaller)⟩

/-- A second account tries to take the name. -/
theorem names_owned_taken :
    (runOf (named.take 2)).usernameToOwner .zero = some .zero ∧
      ((execute (runOf (named.take 2)) ⟨one, .registerWithName .zero ⟨one, one⟩⟩).getD
        (runOf (named.take 2))).usernameToOwner .zero = some .zero := by
  have hfirst : Run Step .new [⟨.zero, .register ⟨.zero, .zero⟩⟩] (runOf (named.take 1)) :=
    .single rfl
  have hrun : Run Step .new (named.take 2) (runOf (named.take 2)) := hfirst.append (.single rfl)
  have hold : (runOf (named.take 2)).usernameToOwner .zero = some .zero := by decide +kernel
  exact ⟨hold, ((names_owned hrun).2 _ _ rfl .zero .zero hold (by decide)).1⟩

end Ownership

end OrionNetwork.UserNames
