import OrionNetwork.Mailbox

/-!
# Stored profiles

A profile is created and its vault is replaced by requests that its owner signs.
Requests for a profile that a node does not have wait until the other replicators
answered, and each answer may put the profile they have in place of the one that
is stored. The handlers of mail touch the mailbox and nothing else of the record.
Events reach the waiting handlers in any order.
-/
namespace OrionNetwork.ProfileStore
open Codec BlockHash ChatReplica Collections Proofs Protocols Runs
open Mailbox (RequestOrigin SendMail frame)
open Rpc (CallId)

/-- Serialized keys and signatures are lists of bytes. -/
structure Profile extends Mailbox.Profile where
  sign : Bytes
  enc : Bytes
  lastSig : Bytes
  vaultVersion : Nonce
  vault : Bytes

/-- A profile as replicators send it. -/
structure BorrowedProfile where
  sign : List.Vector UInt8 929
  enc : List.Vector UInt8 1216
  lastSig : List.Vector UInt8 732
  vaultVersion : Nonce
  mailAction : Nonce
  vault : Vec UInt8
  mail : Vec UInt8

def borrowedProfile : Codec BorrowedProfile :=
  struct ⟨fun p => (p.sign, p.enc, p.lastSig, p.vaultVersion, p.mailAction, p.vault, p.mail),
      fun f => ⟨f.1, f.2.1, f.2.2.1, f.2.2.2.1, f.2.2.2.2.1, f.2.2.2.2.2.1, f.2.2.2.2.2.2⟩,
      fun _ => rfl, fun _ => rfl⟩
    (pair (array 929 u8) (pair (array 1216 u8) (pair (array 732 u8)
      (pair u64 (pair u64 (pair slice slice))))))

/-- `From<BorrowedProfile> for Profile`. -/
def BorrowedProfile.toProfile (p : BorrowedProfile) : Profile where
  sign := p.sign.toList
  enc := p.enc.toList
  lastSig := p.lastSig.toList
  vaultVersion := p.vaultVersion
  mailAction := p.mailAction
  vault := p.vault.val
  mail := p.mail.val

def Profile.isValid (host : Host) (scheme : Verify) (p : Profile) : Bool :=
  verify host scheme ⟨p.sign, p.vaultVersion, p.lastSig, .slice p.vault⟩

variable {Peer : Type}

structure Storage (Peer : Type) where
  profiles : Identity → Option Profile := fun _ => none
  online : Identity → Option (RequestOrigin Peer) := fun _ => none

namespace Storage

def insertProfile (st : Storage Peer) (who : Identity) (p : Profile) : Storage Peer :=
  { st with profiles := Function.update st.profiles who (some p) }

/-- The part of the storage that the handlers of mail work on. -/
def mailboxes (st : Storage Peer) : Mailbox.Storage Peer where
  profiles who := (st.profiles who).map (·.toProfile)
  online := st.online

/-- That part as they leave it. -/
def withMailboxes (st : Storage Peer) (m : Mailbox.Storage Peer) : Storage Peer where
  profiles who := (st.profiles who).bind fun p => (m.profiles who).map fun q => { p with toProfile := q }
  online := m.online

end Storage

/-- The requests that are retried. -/
inductive Request where
  | setVault (proof : Proof Bytes)
  | readMail (proof : Proof Unit)
  | sendMail (forWho : Identity) (mail : Bytes)
  | fetchProfile (identity : Identity)
  | fetchVault (identity : Identity)

inductive Answer where
  | setVault (result : Except SetVaultError Unit)
  | readMail (result : Except ReadMailError Bytes)
  | sendMail (result : Except SendMailError Unit)
  | fetchProfile (result : Except FetchProfileError (Bytes × Bytes))
  | fetchVault (result : Except FetchVaultError (Nonce × Nonce × Bytes))

/-- What a handler learns from the server around it: whether this node replicates
the topic, the calls to other replicators that could be made, whether a client
took a notification and the call that forwards a mail. -/
structure Outside where
  isValidTopic : Bool
  calls : List CallId
  notified : Bool
  requested : Option CallId

/-- `Retry<H>` with the profile of an identity as its topic. The mail that a
handler waits for is an observation for the proofs. -/
inductive Retry where
  | handling (handler : SendMail) (mail : Bytes)
  | restoring (topic : Identity) (pending : List CallId) (request : Request)

/-- A handler that has not returned. -/
structure HandlerInstance (Peer : Type) where
  origin : RequestOrigin Peer
  handler : Retry

inductive Event (Peer : Type) where
  | createProfile (proof : Proof Bytes) (enc : Bytes)
  | request (origin : RequestOrigin Peer) (request : Request) (out : Outside)
  | resume (i : ℕ) (event : Rpc.Event Peer) (out : Outside)

/-- `handed` is an observation for the proofs: the mail of each mailbox that was
returned to its owner or that another node delivered. -/
structure Node (Peer : Type) where
  storage : Storage Peer := {}
  handlers : List (HandlerInstance Peer) := []
  handed : Identity → Bytes := fun _ => []

section Handlers

variable (host : Host) (scheme : Verify)

def createProfile (st : Storage Peer) (proof : Proof Bytes) (enc : Bytes) :
    Storage Peer × Except CreateAccountError Unit :=
  if !verify host scheme ⟨proof.pk, proof.nonce, proof.signature, .slice proof.context⟩ then
    (st, .error .invalidProof)
  else
    let userId := host.blake3 proof.pk
    match st.profiles userId with
    | none =>
      (st.insertProfile userId {
        sign := proof.pk
        enc := enc
        lastSig := proof.signature
        vaultVersion := proof.nonce
        mailAction := proof.nonce
        vault := proof.context
        mail := [] }, .ok ())
    | some account =>
      if account.vaultVersion < proof.nonce then
        (st.insertProfile userId { account with
          vaultVersion := proof.nonce
          lastSig := proof.signature
          vault := proof.context }, .ok ())
      else (st, .error .alreadyExists)

def setVault (st : Storage Peer) (proof : Proof Bytes) : Storage Peer × Except SetVaultError Unit :=
  if !verify host scheme ⟨proof.pk, proof.nonce, proof.signature, .reminder proof.context⟩ then
    (st, .error .invalidProof)
  else
    let identity := host.blake3 proof.pk
    match st.profiles identity with
    | none => (st, .error .notFound)
    | some profile =>
      match advanceNonce profile.vaultVersion proof.nonce with
      | none => (st, .error .invalidAction)
      | some nonce =>
        (st.insertProfile identity { profile with
          vaultVersion := nonce
          lastSig := proof.signature
          vault := proof.context }, .ok ())

def fetchProfile (st : Storage Peer) (identity : Identity) :
    Except FetchProfileError (Bytes × Bytes) :=
  match st.profiles identity with
  | none => .error .notFound
  | some profile => .ok (profile.sign, profile.enc)

def fetchVault (st : Storage Peer) (identity : Identity) :
    Except FetchVaultError (Nonce × Nonce × Bytes) :=
  match st.profiles identity with
  | none => .error .notFound
  | some profile => .ok (profile.vaultVersion, profile.mailAction, profile.vault)

def Request.toPossibleTopic : Request → Identity
  | .setVault proof => host.blake3 proof.pk
  | .readMail proof => host.blake3 proof.pk
  | .sendMail forWho _ => forWho
  | .fetchProfile identity => identity
  | .fetchVault identity => identity

/-- The mail that a request carries. -/
def Request.mail : Request → Bytes
  | .sendMail _ mail => mail
  | .setVault _ | .readMail _ | .fetchProfile _ | .fetchVault _ => []

/-- `H::execute`. Only the handler of a mail may have to wait. -/
def execute [DecidableEq Peer] (st : Storage Peer) (origin : RequestOrigin Peer) (out : Outside) :
    Request → Storage Peer × Except SendMail Answer
  | .setVault proof =>
    let (st, r) := setVault host scheme st proof
    (st, .ok (.setVault r))
  | .readMail proof =>
    let (m, r) := Mailbox.readMail host scheme st.mailboxes origin proof
    (st.withMailboxes m, .ok (.readMail r))
  | .sendMail forWho mail =>
    let (m, r) := SendMail.execute st.mailboxes origin forWho mail out.notified out.requested
    (st.withMailboxes m, r.map .sendMail)
  | .fetchProfile identity => (st, .ok (.fetchProfile (fetchProfile st identity)))
  | .fetchVault identity => (st, .ok (.fetchVault (fetchVault st identity)))

/-- One reply to a handler that restores a profile. -/
def restore (st : Storage Peer) (identity : Identity) (reply : Bytes) : Storage Peer :=
  match (result borrowedProfile fetchProfileError).decode reply with
  | some (.ok profile, _) =>
    if host.blake3 profile.toProfile.sign ≠ identity then st
    else if !profile.toProfile.isValid host scheme then st
    else
      match st.profiles identity with
      | some existing =>
        if existing.vaultVersion ≥ profile.vaultVersion then st
        else st.insertProfile identity profile.toProfile
      | none => st.insertProfile identity profile.toProfile
  | _ => st

namespace Node

/-- A handler that has not returned is kept. -/
def settle (n : Node Peer) (origin : RequestOrigin Peer) (mail : Bytes)
    (observe : Answer → Identity → Bytes) : Except SendMail Answer → Node Peer
  | .ok answer => { n with handed := fun who => n.handed who ++ observe answer who }
  | .error h => { n with handlers := n.handlers ++ [⟨origin, .handling h mail⟩] }

/-- The mail that an executed request returns to the owner. -/
def returned : Request → Answer → Identity → Bytes
  | .readMail proof, .readMail (.ok mail) => Function.update (fun _ => []) (host.blake3 proof.pk) mail
  | _, _ => fun _ => []

/-- The mail that another node delivered, when the handler learns that it did. -/
def delivered (forWho : Identity) (mail : Bytes) : Answer → Identity → Bytes
  | .sendMail (.error .sentDirectly) => Function.update (fun _ => []) forWho (frame mail)
  | _ => fun _ => []

def execute [DecidableEq Peer] (n : Node Peer) (origin : RequestOrigin Peer) (out : Outside)
    (request : Request) : Node Peer :=
  let (st, r) := ProfileStore.execute host scheme n.storage origin out request
  { n with storage := st }.settle origin request.mail (returned host request) r

/-- `Retry::execute`. -/
def retry [DecidableEq Peer] (n : Node Peer) (origin : RequestOrigin Peer) (out : Outside)
    (request : Request) : Node Peer :=
  let topic := request.toPossibleTopic host
  if !out.isValidTopic then n
  else if (n.storage.profiles topic).isSome then n.execute host scheme origin out request
  else { n with handlers := n.handlers ++ [⟨origin, .restoring topic out.calls request⟩] }

def handling (n : Node Peer) (origin : RequestOrigin Peer) (h : SendMail) (mail : Bytes)
    (event : Rpc.Event Peer) : Node Peer :=
  let (m, r) := h.resume n.storage.mailboxes event
  { n with storage := n.storage.withMailboxes m }.settle origin mail (delivered h.forWho mail)
    (r.map .sendMail)

/-- A failed call is not handled. -/
def restoring [DecidableEq Peer] (n : Node Peer) (origin : RequestOrigin Peer) (out : Outside)
    (topic : Identity) (pending : List CallId) (request : Request) :
    Rpc.Event Peer → Except Panic (Node Peer)
  | .request _ _ _ =>
    .ok { n with handlers := n.handlers ++ [⟨origin, .restoring topic pending request⟩] }
  | .response _ call res =>
    match findAndRemove (fun d => d = call) pending with
    | none => .ok { n with handlers := n.handlers ++ [⟨origin, .restoring topic pending request⟩] }
    | some (_, pending) =>
      match res with
      | .error _ => .error (.todo "not yet implemented")
      | .ok reply =>
        let n := { n with storage := restore host scheme n.storage topic reply }
        if pending ≠ [] then
          .ok { n with handlers := n.handlers ++ [⟨origin, .restoring topic pending request⟩] }
        else .ok (n.execute host scheme origin out request)

/-- `Retry::resume` of one of the handlers. -/
def resume [DecidableEq Peer] (n : Node Peer) (i : ℕ) (event : Rpc.Event Peer) (out : Outside) :
    Except Panic (Node Peer) :=
  match n.handlers[i]? with
  | none => .ok n
  | some ⟨origin, handler⟩ =>
    let n := { n with handlers := n.handlers.eraseIdx i }
    match handler with
    | .handling h mail => .ok (n.handling origin h mail event)
    | .restoring topic pending request => n.restoring host scheme origin out topic pending request event

def handle [DecidableEq Peer] (n : Node Peer) : Event Peer → Except Panic (Node Peer)
  | .createProfile proof enc =>
    .ok { n with storage := (createProfile host scheme n.storage proof enc).1 }
  | .request origin request out => .ok (n.retry host scheme origin out request)
  | .resume i event out => n.resume host scheme i event out

def Step [DecidableEq Peer] (n : Node Peer) (e : Event Peer) (n' : Node Peer) : Prop :=
  n.handle host scheme e = .ok n'

end Node

end Handlers

section Effects

variable {host : Host} {scheme : Verify} {st : Storage Peer}

theorem profiles_insertProfile {who other : Identity} {p q : Profile}
    (h : (st.insertProfile who p).profiles other = some q) :
    (other = who ∧ q = p) ∨ st.profiles other = some q := by
  by_cases hother : other = who
  · subst hother
    left
    simp only [Storage.insertProfile, Function.update_self] at h
    exact ⟨rfl, (Option.some_injective _ h).symm⟩
  · right
    simpa only [Storage.insertProfile, Function.update_of_ne hother] using h

theorem profiles_withMailboxes {m : Mailbox.Storage Peer} {who : Identity} {p : Profile}
    (h : (st.withMailboxes m).profiles who = some p) :
    ∃ q, st.profiles who = some { p with toProfile := q } := by
  obtain ⟨p₀, hstored, hmail⟩ := Option.bind_eq_some_iff.mp h
  obtain ⟨q, -, rfl⟩ := Option.map_eq_some_iff.mp hmail
  exact ⟨p₀.toProfile, hstored⟩

/-- Whether a proof of a vault is accepted, whichever way the vault is passed. -/
def Signs (host : Host) (scheme : Verify) (proof : Proof Bytes) : Prop :=
  verify host scheme ⟨proof.pk, proof.nonce, proof.signature, .slice proof.context⟩ = true

theorem createProfile_cases (st : Storage Peer) (proof : Proof Bytes) (enc : Bytes) :
    let st' := (createProfile host scheme st proof enc).1
    st' = st ∨ (Signs host scheme proof ∧
      ((st.profiles (host.blake3 proof.pk) = none ∧
        st' = st.insertProfile (host.blake3 proof.pk) {
          sign := proof.pk
          enc := enc
          lastSig := proof.signature
          vaultVersion := proof.nonce
          mailAction := proof.nonce
          vault := proof.context
          mail := [] }) ∨
      ∃ account, st.profiles (host.blake3 proof.pk) = some account ∧
        account.vaultVersion < proof.nonce ∧
        st' = st.insertProfile (host.blake3 proof.pk) { account with
          vaultVersion := proof.nonce
          lastSig := proof.signature
          vault := proof.context })) := by
  simp only [createProfile]
  by_cases hsigned : Signs host scheme proof
  · unfold Signs at hsigned
    simp only [hsigned, Bool.not_true, Bool.false_eq_true, if_false]
    cases hstored : st.profiles (host.blake3 proof.pk) with
    | none => exact .inr ⟨hsigned, .inl ⟨rfl, rfl⟩⟩
    | some account =>
      simp only
      split_ifs with hnewer
      · exact .inr ⟨hsigned, .inr ⟨account, rfl, hnewer, rfl⟩⟩
      · exact .inl rfl
  · unfold Signs at hsigned
    rw [Bool.not_eq_true] at hsigned
    simp only [hsigned, Bool.not_false, if_true, true_or]

theorem setVault_cases (st : Storage Peer) (proof : Proof Bytes) :
    let st' := (setVault host scheme st proof).1
    st' = st ∨ (Signs host scheme proof ∧
      ∃ profile, st.profiles (host.blake3 proof.pk) = some profile ∧
        profile.vaultVersion < proof.nonce ∧
        st' = st.insertProfile (host.blake3 proof.pk) { profile with
          vaultVersion := proof.nonce
          lastSig := proof.signature
          vault := proof.context }) := by
  have hcontext : verify host scheme ⟨proof.pk, proof.nonce, proof.signature, .reminder proof.context⟩ =
      verify host scheme ⟨proof.pk, proof.nonce, proof.signature, .slice proof.context⟩ := rfl
  simp only [setVault, hcontext]
  by_cases hsigned : Signs host scheme proof
  · unfold Signs at hsigned
    simp only [hsigned, Bool.not_true, Bool.false_eq_true, if_false]
    cases hstored : st.profiles (host.blake3 proof.pk) with
    | none => exact .inl rfl
    | some profile =>
      simp only [advanceNonce]
      by_cases hnewer : proof.nonce > profile.vaultVersion
      · rw [if_pos hnewer]
        exact .inr ⟨hsigned, profile, rfl, hnewer, rfl⟩
      · rw [if_neg hnewer]
        exact .inl rfl
  · unfold Signs at hsigned
    rw [Bool.not_eq_true] at hsigned
    simp only [hsigned, Bool.not_false, if_true, true_or]

/-- What a reply says, and that it passes the tests that do not depend on what is
stored. -/
def Accepted (host : Host) (scheme : Verify) (identity : Identity) (reply : Bytes)
    (profile : BorrowedProfile) : Prop :=
  ∃ rest, (result borrowedProfile fetchProfileError).decode reply = some (.ok profile, rest) ∧
    host.blake3 profile.toProfile.sign = identity ∧ profile.toProfile.isValid host scheme = true

theorem restore_cases (st : Storage Peer) (identity : Identity) (reply : Bytes) :
    restore host scheme st identity reply = st ∨
      ∃ profile, Accepted host scheme identity reply profile ∧
        (∀ existing, st.profiles identity = some existing →
          existing.vaultVersion < profile.vaultVersion) ∧
        restore host scheme st identity reply = st.insertProfile identity profile.toProfile := by
  unfold restore
  split
  · next profile rest hdecode =>
    split_ifs with hsign hvalid
    · exact .inl rfl
    · exact .inl rfl
    · have haccepted : Accepted host scheme identity reply profile := by
        refine ⟨rest, hdecode, not_not.mp hsign, ?_⟩
        simpa using hvalid
      cases hstored : st.profiles identity with
      | none =>
        right
        exact ⟨profile, haccepted, nofun, rfl⟩
      | some existing =>
        simp only
        split_ifs with hold
        · exact .inl rfl
        · right
          refine ⟨profile, haccepted, ?_, rfl⟩
          intro other hother
          cases hother
          simpa using hold
  · exact .inl rfl

/-- A profile that passes the tests and is newer is taken. -/
theorem restore_of_accepted {identity : Identity} {reply : Bytes} {profile : BorrowedProfile}
    (h : Accepted host scheme identity reply profile)
    (hnewer : ∀ existing, st.profiles identity = some existing →
      existing.vaultVersion < profile.vaultVersion) :
    restore host scheme st identity reply = st.insertProfile identity profile.toProfile := by
  obtain ⟨rest, hdecode, hsign, hvalid⟩ := h
  unfold restore
  rw [hdecode]
  simp only [hsign, hvalid, ne_eq, not_true_eq_false, if_false, Bool.not_true, Bool.false_eq_true]
  cases hstored : st.profiles identity with
  | none => rfl
  | some existing =>
    simp only
    rw [if_neg]
    simpa using hnewer existing hstored

/-- A handler that restores goes on waiting, with the reply to one of its calls
taken in or not, or executes its request. -/
theorem restoring_cases [DecidableEq Peer] {n n' : Node Peer} {origin : RequestOrigin Peer}
    {out : Outside} {topic : Identity} {pending : List CallId} {request : Request}
    {event : Rpc.Event Peer}
    (h : n.restoring host scheme origin out topic pending request event = .ok n') :
    n' = { n with handlers := n.handlers ++ [⟨origin, .restoring topic pending request⟩] } ∨
      ∃ peer call reply, event = .response peer call (.ok reply) ∧ call ∈ pending ∧
        let restored := { n with storage := restore host scheme n.storage topic reply }
        n' = restored.execute host scheme origin out request ∨
          ∃ pending', n' = { restored with
            handlers := n.handlers ++ [⟨origin, .restoring topic pending' request⟩] } := by
  unfold Node.restoring at h
  split at h
  · cases h
    exact .inl rfl
  · next peer call res =>
    cases hcall : findAndRemove (fun d => d = call) pending with
    | none =>
      rw [hcall] at h
      cases h
      exact .inl rfl
    | some found =>
      obtain ⟨hsame, hperm⟩ := findAndRemove_some hcall
      have hmem : call ∈ pending := by
        rw [← of_decide_eq_true hsame]
        exact hperm.mem_iff.mpr List.mem_cons_self
      rw [hcall] at h
      cases res with
      | error e => cases h
      | ok reply =>
        refine .inr ⟨peer, call, reply, rfl, hmem, ?_⟩
        simp only at h
        split_ifs at h
        · cases h
          exact .inr ⟨found.2, rfl⟩
        · cases h
          exact .inl rfl

end Effects

section Authentic

variable {host : Host} {scheme : Verify} {st : Storage Peer} {known : Set Bytes}

/-- The entry belongs to its key, and its owner signed the vault it holds. -/
def Authentic (host : Host) (scheme : Verify) (who : Identity) (p : Profile) : Prop :=
  host.blake3 p.sign = who ∧ p.isValid host scheme = true

/-- Every entry is authentic, and its key is one of `known`. -/
def Storage.Authenticated (host : Host) (scheme : Verify) (known : Set Bytes) (st : Storage Peer) :
    Prop :=
  ∀ who p, st.profiles who = some p → Authentic host scheme who p ∧ p.sign ∈ known

/-- The keys of proofs. -/
def Request.keys : Request → Set Bytes
  | .setVault proof => {proof.pk}
  | .readMail proof => {proof.pk}
  | .sendMail _ _ | .fetchProfile _ | .fetchVault _ => ∅

def Retry.keys : Retry → Set Bytes
  | .handling _ _ => ∅
  | .restoring _ _ request => request.keys

/-- The key of the profile in a reply. -/
def replyKeys : Rpc.Event Peer → Set Bytes
  | .response _ _ (.ok reply) =>
    {key | ∃ profile rest, key = profile.toProfile.sign ∧
      (result borrowedProfile fetchProfileError).decode reply = some (.ok profile, rest)}
  | _ => ∅

/-- The keys that an event brings to the node. -/
def Event.keys : Event Peer → Set Bytes
  | .createProfile proof _ => {proof.pk}
  | .request _ req _ => req.keys
  | .resume _ event _ => replyKeys event

theorem authenticated_insertProfile {who : Identity} {p : Profile}
    (h : st.Authenticated host scheme known) (hp : Authentic host scheme who p) (hkey : p.sign ∈ known) :
    (st.insertProfile who p).Authenticated host scheme known := by
  intro other q hq
  rcases profiles_insertProfile hq with ⟨rfl, rfl⟩ | hq
  · exact ⟨hp, hkey⟩
  · exact h other q hq

theorem authenticated_withMailboxes (h : st.Authenticated host scheme known)
    (m : Mailbox.Storage Peer) : (st.withMailboxes m).Authenticated host scheme known := by
  intro who p hp
  obtain ⟨q, hq⟩ := profiles_withMailboxes hp
  exact h who { p with toProfile := q } hq

/-- A signed vault may replace the one of the profile it is addressed to: without
a collision the key of the proof is the key of the profile. -/
theorem authentic_update (hfree : Set.InjOn host.blake3 known) {proof : Proof Bytes} {p : Profile}
    (h : st.Authenticated host scheme known) (hkey : proof.pk ∈ known)
    (hsigned : Signs host scheme proof) (hstored : st.profiles (host.blake3 proof.pk) = some p) :
    Authentic host scheme (host.blake3 proof.pk) { p with
      vaultVersion := proof.nonce
      lastSig := proof.signature
      vault := proof.context } := by
  obtain ⟨⟨hidentity, -⟩, hsign⟩ := h _ p hstored
  have hsame : p.sign = proof.pk := hfree hsign hkey hidentity
  refine ⟨hidentity, ?_⟩
  unfold Profile.isValid
  rw [hsame]
  exact hsigned

theorem authenticated_createProfile (hfree : Set.InjOn host.blake3 known)
    (h : st.Authenticated host scheme known) {proof : Proof Bytes} (hkey : proof.pk ∈ known)
    (enc : Bytes) : (createProfile host scheme st proof enc).1.Authenticated host scheme known := by
  rcases createProfile_cases st proof enc with heq | ⟨hsigned, ⟨-, heq⟩ | ⟨p, hstored, -, heq⟩⟩
  · rw [heq]
    exact h
  · rw [heq]
    exact authenticated_insertProfile h ⟨rfl, hsigned⟩ hkey
  · rw [heq]
    exact authenticated_insertProfile h (authentic_update hfree h hkey hsigned hstored)
      (h _ p hstored).2

theorem authenticated_setVault (hfree : Set.InjOn host.blake3 known)
    (h : st.Authenticated host scheme known) {proof : Proof Bytes} (hkey : proof.pk ∈ known) :
    (setVault host scheme st proof).1.Authenticated host scheme known := by
  rcases setVault_cases st proof with heq | ⟨hsigned, p, hstored, -, heq⟩
  · rw [heq]
    exact h
  · rw [heq]
    exact authenticated_insertProfile h (authentic_update hfree h hkey hsigned hstored)
      (h _ p hstored).2

theorem authenticated_restore (h : st.Authenticated host scheme known) {identity : Identity}
    {reply : Bytes} (hkeys : ∀ profile, Accepted host scheme identity reply profile →
      profile.toProfile.sign ∈ known) :
    (restore host scheme st identity reply).Authenticated host scheme known := by
  rcases restore_cases st identity reply with heq | ⟨profile, haccepted, -, heq⟩
  · rw [heq]
    exact h
  · rw [heq]
    obtain ⟨-, -, htests⟩ := id haccepted
    exact authenticated_insertProfile h htests (hkeys profile haccepted)

theorem authenticated_execute [DecidableEq Peer] (hfree : Set.InjOn host.blake3 known)
    (h : st.Authenticated host scheme known) (origin : RequestOrigin Peer) (out : Outside)
    {request : Request} (hkeys : request.keys ⊆ known) :
    (execute host scheme st origin out request).1.Authenticated host scheme known := by
  cases request with
  | setVault proof => exact authenticated_setVault hfree h (hkeys rfl)
  | readMail proof => exact authenticated_withMailboxes h _
  | sendMail forWho mail => exact authenticated_withMailboxes h _
  | fetchProfile identity => exact h
  | fetchVault identity => exact h

namespace Node

/-- The requests of waiting handlers were seen before. -/
structure Authenticated (host : Host) (scheme : Verify) (known : Set Bytes) (n : Node Peer) : Prop where
  storage : n.storage.Authenticated host scheme known
  requests : ∀ h ∈ n.handlers, h.handler.keys ⊆ known

namespace Authenticated

variable {n : Node Peer}

/-- One more handler waits. -/
theorem wait (h : Authenticated host scheme known n) {waiting : HandlerInstance Peer}
    (hkeys : waiting.handler.keys ⊆ known) :
    Authenticated host scheme known { n with handlers := n.handlers ++ [waiting] } := by
  constructor
  · exact h.storage
  · intro other hmem
    rcases List.mem_append.mp hmem with hmem | hmem
    · exact h.requests other hmem
    · cases List.mem_singleton.mp hmem
      exact hkeys

theorem settle (h : Authenticated host scheme known n) (origin : RequestOrigin Peer) (mail : Bytes)
    (observe : Answer → Identity → Bytes) (r : Except SendMail Answer) :
    Authenticated host scheme known (n.settle origin mail observe r) := by
  cases r with
  | ok answer => exact ⟨h.storage, h.requests⟩
  | error handler => exact h.wait (Set.empty_subset _)

theorem execute [DecidableEq Peer] (hfree : Set.InjOn host.blake3 known)
    (h : Authenticated host scheme known n) (origin : RequestOrigin Peer) (out : Outside)
    {request : Request} (hkeys : request.keys ⊆ known) :
    Authenticated host scheme known (n.execute host scheme origin out request) := by
  have hexecuted : Authenticated host scheme known { n with
      storage := (ProfileStore.execute host scheme n.storage origin out request).1 } :=
    ⟨authenticated_execute hfree h.storage origin out hkeys, h.requests⟩
  exact hexecuted.settle origin _ _ _

theorem restoring [DecidableEq Peer] (hfree : Set.InjOn host.blake3 known)
    (h : Authenticated host scheme known n) (origin : RequestOrigin Peer) (out : Outside)
    {request : Request} (hrequest : request.keys ⊆ known) {topic : Identity} {pending : List CallId}
    {event : Rpc.Event Peer} (hevent : replyKeys event ⊆ known) {n' : Node Peer}
    (hn' : n.restoring host scheme origin out topic pending request event = .ok n') :
    Authenticated host scheme known n' := by
  rcases restoring_cases hn' with rfl | ⟨peer, call, reply, rfl, -, hcases⟩
  · exact h.wait hrequest
  · have hrestored : Authenticated host scheme known
        { n with storage := restore host scheme n.storage topic reply } := by
      refine ⟨authenticated_restore h.storage ?_, h.requests⟩
      rintro profile ⟨rest, hdecode, -⟩
      exact hevent ⟨profile, rest, rfl, hdecode⟩
    rcases hcases with rfl | ⟨pending', rfl⟩
    · exact hrestored.execute hfree origin out hrequest
    · exact hrestored.wait hrequest

theorem handling (h : Authenticated host scheme known n) (origin : RequestOrigin Peer)
    (handler : SendMail) (mail : Bytes) (event : Rpc.Event Peer) :
    Authenticated host scheme known (n.handling origin handler mail event) := by
  have hmail : Authenticated host scheme known { n with
      storage := n.storage.withMailboxes (handler.resume n.storage.mailboxes event).1 } :=
    ⟨authenticated_withMailboxes h.storage _, h.requests⟩
  exact hmail.settle origin _ _ _

theorem step [DecidableEq Peer] (hfree : Set.InjOn host.blake3 known)
    (h : Authenticated host scheme known n) {e : Event Peer} (hkeys : e.keys ⊆ known)
    {n' : Node Peer} (hstep : n.Step host scheme e n') : Authenticated host scheme known n' := by
  unfold Node.Step at hstep
  cases e with
  | createProfile proof enc =>
    cases hstep
    exact ⟨authenticated_createProfile hfree h.storage (hkeys rfl) enc, h.requests⟩
  | request origin request out =>
    cases hstep
    unfold Node.retry
    simp only
    split_ifs
    · exact h
    · exact h.execute hfree origin out hkeys
    · exact h.wait hkeys
  | resume i event out =>
    simp only [Node.handle, Node.resume] at hstep
    split at hstep
    · cases hstep
      exact h
    · next origin handler hi =>
      have hrequest : handler.keys ⊆ known := h.requests ⟨origin, handler⟩ (List.mem_of_getElem? hi)
      have herased : Authenticated host scheme known { n with handlers := n.handlers.eraseIdx i } :=
        ⟨h.storage, fun waiting hmem => h.requests waiting (List.mem_of_mem_eraseIdx hmem)⟩
      split at hstep
      · cases hstep
        exact herased.handling origin _ _ event
      · exact herased.restoring hfree origin out hrequest hkeys hstep

theorem run [DecidableEq Peer] (hfree : Set.InjOn host.blake3 known) {es : List (Event Peer)}
    (hrun : Run (Node.Step host scheme) {} es n) (hkeys : ∀ e ∈ es, e.keys ⊆ known) :
    Authenticated host scheme known n := by
  refine hrun.invariant (P := fun es n => (∀ e ∈ es, e.keys ⊆ known) →
    Authenticated host scheme known n) ?_ ?_ hkeys
  · intro _
    exact ⟨nofun, nofun⟩
  · intro es n e n' _ hbefore hstep hkeys
    have hn := hbefore fun e' he' => hkeys e' (List.mem_append_left _ he')
    exact hn.step hfree (hkeys e List.mem_concat_self) hstep

end Authenticated

end Node

/-- Every stored profile hashes to its identity and carries a signature of its
vault, whatever requests and replies came in. The hash function has no collision
among the keys that came in. -/
theorem stored_profiles_authentic [DecidableEq Peer] {es : List (Event Peer)} {n : Node Peer}
    (hrun : Run (Node.Step host scheme) {} es n)
    (hfree : Set.InjOn host.blake3 {key | ∃ e ∈ es, key ∈ e.keys}) {who : Identity} {p : Profile}
    (hp : n.storage.profiles who = some p) : host.blake3 p.sign = who ∧ p.isValid host scheme = true := by
  have hinv : n.Authenticated host scheme {key | ∃ e ∈ es, key ∈ e.keys} :=
    Node.Authenticated.run hfree hrun fun e he key hkey => ⟨e, he, hkey⟩
  exact (hinv.storage who p hp).1

end Authentic

def sampleKey : Bytes := List.replicate 929 7

def sampleIdentity : Identity :=
  ⟨[28, 39, 55, 75, 32, 135, 96, 159, 228, 238, 250, 191, 36, 233, 88, 106, 220, 97, 215, 42, 15, 2,
    104, 107, 75, 7, 105, 32, 174, 245, 16, 22], rfl⟩

/-- BLAKE3 on the key used below. -/
def sampleHost : Host where
  blake3 bytes := if bytes = sampleKey then sampleIdentity else Hash.zero
  overflowChecks := true

def sampleSignature : Bytes := List.replicate 732 1

def sampleEnc : Bytes := List.replicate 1216 3

/-- A scheme in which the key has made one signature, which is good for all data. -/
def sampleVerify : Verify := fun pk _ signature => pk == sampleKey && signature == sampleSignature

theorem blake3_sampleKey : sampleHost.blake3 sampleKey = sampleIdentity := by
  simp only [sampleHost, if_true]

theorem verify_sampleKey (nonce : Nonce) (context : ProofContext) :
    verify sampleHost sampleVerify ⟨sampleKey, nonce, sampleSignature, context⟩ = true := by
  simp only [verify, sampleVerify, beq_self_eq_true, Bool.and_self]

/-- The owner signs a vault with the version `nonce`. -/
def sampleProof (nonce : Nonce) (vault : Bytes) : Proof Bytes :=
  ⟨sampleKey, nonce, sampleSignature, vault⟩

/-- A profile is created and its vault is replaced. -/
def sampleEvents : List (Event Unit) :=
  [.createProfile (sampleProof 1 [10]) sampleEnc,
    .request (.client 0) (.setVault (sampleProof 2 [20])) ⟨true, [], false, none⟩]

theorem stored_profiles_authentic_vault :
    ∃ n p, Run (Node.Step sampleHost sampleVerify) {} sampleEvents n ∧
      n.storage.profiles sampleIdentity = some p ∧ p.vault = [20] ∧
      sampleHost.blake3 p.sign = sampleIdentity ∧ p.isValid sampleHost sampleVerify = true := by
  obtain ⟨n, p, hrun, hstored, hvault⟩ : ∃ n p,
      Run (Node.Step sampleHost sampleVerify) {} sampleEvents n ∧
        n.storage.profiles sampleIdentity = some p ∧ p.vault = [20] := by
    refine ⟨_, ⟨⟨1, []⟩, sampleKey, sampleEnc, sampleSignature, 2, [20]⟩,
      .next _ (.next _ .start rfl) rfl, ?_, rfl⟩
    simp [Node.retry, Node.execute, Node.settle, execute, createProfile, setVault, sampleProof,
      verify_sampleKey, blake3_sampleKey, Request.toPossibleTopic, Storage.insertProfile,
      advanceNonce]
  have hkey : ∀ e ∈ sampleEvents, ∀ key ∈ e.keys, key = sampleKey := by
    simp [sampleEvents, Event.keys, Request.keys, sampleProof]
  have hfree : Set.InjOn sampleHost.blake3 {key | ∃ e ∈ sampleEvents, key ∈ e.keys} := by
    rintro a ⟨e, he, ha⟩ b ⟨e', he', hb⟩ -
    rw [hkey e he a ha, hkey e' he' b hb]
  obtain ⟨hidentity, hvalid⟩ := stored_profiles_authentic hrun hfree hstored
  exact ⟨n, p, hrun, hstored, hvault, hidentity, hvalid⟩

end OrionNetwork.ProfileStore
