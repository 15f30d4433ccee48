import OrionNetwork.ProfileStore

/-!
# Restored profiles

A profile that another replicator sends is taken as a whole when its vault is
signed and newer, but the signature covers the vault and its version only. The
key that others encrypt with, the number of the last mail action and the mail are
what the replicator says. What a node has is safe as long as the replies agree
with it, and as long as a mailbox is not cleared for the sake of another mail.
-/
namespace OrionNetwork.ProfileRestore
open Codec BlockHash ChatReplica Protocols Runs ProfileStore
open Proofs (Proof Verify)
open Mailbox (RequestOrigin SendMail frame saysSentDirectly)
open Rpc (CallId)

variable {Peer : Type}

/-- Nothing of the profile `p` is lost in `p'` when `given` left its mailbox in
between. -/
structure Kept (given : Bytes) (p p' : Profile) : Prop where
  version : p.vaultVersion ≤ p'.vaultVersion
  action : p.mailAction ≤ p'.mailAction
  mail : p.mail <+: given ++ p'.mail
  enc : p'.enc = p.enc

namespace Kept

variable {p p' p'' : Profile} {given given' : Bytes}

theorem refl (p : Profile) : Kept [] p p :=
  ⟨UInt64.le_refl _, UInt64.le_refl _, List.prefix_rfl, rfl⟩

theorem trans (h : Kept given p p') (h' : Kept given' p' p'') : Kept (given ++ given') p p'' := by
  constructor
  · exact UInt64.le_trans h.version h'.version
  · exact UInt64.le_trans h.action h'.action
  · rw [List.append_assoc]
    exact h.mail.trans ((List.prefix_append_right_inj given).mpr h'.mail)
  · rw [h'.enc, h.enc]

end Kept

/-- Every profile is kept. -/
def Keeps (given : Identity → Bytes) (st st' : Storage Peer) : Prop :=
  ∀ who p, st.profiles who = some p → ∃ p', st'.profiles who = some p' ∧ Kept (given who) p p'

/-- The keys to encrypt with are the ones of the owners. -/
def Owned (owner : Identity → Bytes) (st : Storage Peer) : Prop :=
  ∀ who p, st.profiles who = some p → p.enc = owner who

section Storage

variable {st st' st'' : Storage Peer} {given given' owner : Identity → Bytes}

theorem Keeps.refl (st : Storage Peer) : Keeps (fun _ => []) st st := by
  intro who p hp
  exact ⟨p, hp, .refl p⟩

theorem Keeps.trans (h : Keeps given st st') (h' : Keeps given' st' st'') :
    Keeps (fun who => given who ++ given' who) st st'' := by
  intro who p hp
  obtain ⟨p', hp', hkept⟩ := h who p hp
  obtain ⟨p'', hp'', hkept'⟩ := h' who p' hp'
  exact ⟨p'', hp'', hkept.trans hkept'⟩

/-- Other profiles stay as they are. -/
theorem keeps_insertProfile {who : Identity} {p' : Profile} {left : Bytes}
    (h : ∀ p, st.profiles who = some p → Kept left p p') :
    Keeps (Function.update (fun _ => []) who left) st (st.insertProfile who p') := by
  intro other p hp
  by_cases hother : other = who
  · subst hother
    refine ⟨p', ?_, ?_⟩
    · simp only [Storage.insertProfile, Function.update_self]
    · rw [Function.update_self]
      exact h p hp
  · refine ⟨p, ?_, ?_⟩
    · simp only [Storage.insertProfile, Function.update_of_ne hother, hp]
    · rw [Function.update_of_ne hother]
      exact .refl p

theorem owned_insertProfile (h : Owned owner st) {who : Identity} {p : Profile}
    (hp : p.enc = owner who) : Owned owner (st.insertProfile who p) := by
  intro other q hq
  rcases profiles_insertProfile hq with ⟨rfl, rfl⟩ | hq
  · exact hp
  · exact h other q hq

theorem owned_withMailboxes (h : Owned owner st) (m : Mailbox.Storage Peer) :
    Owned owner (st.withMailboxes m) := by
  intro who p hp
  obtain ⟨q, hq⟩ := profiles_withMailboxes hp
  exact h who { p with toProfile := q } hq

theorem update_const_nil (who : Identity) :
    Function.update (fun _ : Identity => ([] : Bytes)) who [] = fun _ => [] :=
  Function.update_eq_self who _

/-- A profile that is stored gives way to one that keeps its mail. -/
theorem keeps_replaced {who : Identity} {p p' : Profile} (hp : st.profiles who = some p)
    (h : Kept [] p p') : Keeps (fun _ => []) st (st.insertProfile who p') := by
  rw [← update_const_nil who]
  apply keeps_insertProfile
  intro stored hstored
  rw [hp] at hstored
  cases hstored
  exact h

/-- The mailboxes are the only thing that changed, so it is enough to look at them. -/
theorem keeps_withMailboxes {m : Mailbox.Storage Peer}
    (h : ∀ who p, st.profiles who = some p → ∃ q, m.profiles who = some q ∧
      p.mailAction ≤ q.mailAction ∧ p.mail <+: given who ++ q.mail) :
    Keeps given st (st.withMailboxes m) := by
  intro who p hp
  obtain ⟨q, hq, haction, hmail⟩ := h who p hp
  refine ⟨{ p with toProfile := q }, ?_, ⟨UInt64.le_refl _, haction, hmail, rfl⟩⟩
  simp only [Storage.withMailboxes, hp, hq, Option.bind_some, Option.map_some]

theorem mailboxes_some {who : Identity} {p : Profile} (h : st.profiles who = some p) :
    st.mailboxes.profiles who = some p.toProfile := by
  simp only [Storage.mailboxes, h, Option.map_some]

end Storage

section Mail

variable {st : Mailbox.Storage Peer}

theorem sendMail_keeps [DecidableEq Peer] (st : Mailbox.Storage Peer) (origin : RequestOrigin Peer)
    (forWho : Identity) (mail : Bytes) (notified : Bool) (requested : Option CallId) {who : Identity}
    {q : Mailbox.Profile} (hq : st.profiles who = some q) :
    ∃ q', (SendMail.execute st origin forWho mail notified requested).1.profiles who = some q' ∧
      q.mailAction = q'.mailAction ∧ q.mail <+: q'.mail := by
  rcases Mailbox.execute_profiles st origin forWho mail notified requested with
    ⟨hsame, -, -⟩ | ⟨profile, hprofile, -, -, hprofiles, -⟩
  · rw [hsame]
    exact ⟨q, hq, rfl, List.prefix_rfl⟩
  · rw [hprofiles]
    by_cases hwho : who = forWho
    · subst hwho
      rw [hq] at hprofile
      cases hprofile
      rw [Function.update_self]
      exact ⟨_, rfl, rfl, List.prefix_append _ _⟩
    · rw [Function.update_of_ne hwho]
      exact ⟨q, hq, rfl, List.prefix_rfl⟩

theorem readMail_keeps (host : Host) (scheme : Verify) (st : Mailbox.Storage Peer)
    (origin : RequestOrigin Peer) (request : Proof Unit) :
    let r := Mailbox.readMail host scheme st origin request
    (∃ e, r = (st, .error e)) ∨
      ∃ q, st.profiles (host.blake3 request.pk) = some q ∧ q.mailAction < request.nonce ∧
        r.1.profiles =
          Function.update st.profiles (host.blake3 request.pk) (some ⟨request.nonce, []⟩) ∧
        r.2 = .ok q.mail := by
  simp only [Mailbox.readMail]
  split_ifs
  · exact .inl ⟨_, rfl⟩
  · cases hstored : st.profiles (host.blake3 request.pk) with
    | none => exact .inl ⟨_, rfl⟩
    | some q =>
      simp only [advanceNonce]
      by_cases hnewer : request.nonce > q.mailAction
      · rw [if_pos hnewer]
        exact .inr ⟨q, rfl, hnewer, rfl, rfl⟩
      · rw [if_neg hnewer]
        exact .inl ⟨_, rfl⟩

theorem resumeMail_cases (h : SendMail) (st : Mailbox.Storage Peer) (event : Rpc.Event Peer) :
    let r := h.resume st event
    (r.1.profiles = st.profiles ∧ (r.2 = .error h ∨ r.2 = .ok (.ok ()))) ∨
      (∃ peer reply, event = .response peer h.dm (.ok reply) ∧ saysSentDirectly reply) ∧
        r.2 = .ok (.error .sentDirectly) ∧
        r.1.profiles = Function.update st.profiles h.forWho
          ((st.profiles h.forWho).map fun q => { q with mail := [] }) := by
  cases event with
  | request peer call payload => exact .inl ⟨rfl, .inl rfl⟩
  | response peer call res =>
    simp only [SendMail.resume]
    split_ifs with hcall
    · exact .inl ⟨rfl, .inl rfl⟩
    · cases not_not.mp hcall
      cases res with
      | error e => exact .inl ⟨rfl, .inr rfl⟩
      | ok reply =>
        simp only
        split_ifs with hdirect
        · refine .inr ⟨⟨peer, reply, rfl, hdirect⟩, ?_⟩
          unfold SendMail.popPushedMail
          cases hstored : st.profiles h.forWho with
          | none =>
            refine ⟨rfl, ?_⟩
            simp only [Option.map_none]
            rw [← hstored, Function.update_eq_self]
          | some profile => exact ⟨rfl, rfl⟩
        · exact .inl ⟨rfl, .inr rfl⟩

end Mail

section Steps

variable {host : Host} {scheme : Verify} {owner : Identity → Bytes} {st : Storage Peer}

theorem createProfile_keeps (proof : Proof Bytes) (enc : Bytes) :
    Keeps (fun _ => []) st (createProfile host scheme st proof enc).1 := by
  rcases createProfile_cases st proof enc with heq | ⟨-, ⟨hnone, heq⟩ | ⟨p, hp, hnewer, heq⟩⟩
  · rw [heq]
    exact .refl st
  · rw [heq, ← update_const_nil (host.blake3 proof.pk)]
    apply keeps_insertProfile
    intro p hp
    rw [hnone] at hp
    cases hp
  · rw [heq]
    refine keeps_replaced hp ?_
    exact ⟨UInt64.le_of_lt hnewer, UInt64.le_refl _, List.prefix_rfl, rfl⟩

theorem createProfile_owned (h : Owned owner st) (proof : Proof Bytes) (enc : Bytes)
    (howner : Signs host scheme proof → st.profiles (host.blake3 proof.pk) = none →
      enc = owner (host.blake3 proof.pk)) :
    Owned owner (createProfile host scheme st proof enc).1 := by
  rcases createProfile_cases st proof enc with heq | ⟨hsigned, ⟨hnone, heq⟩ | ⟨p, hp, -, heq⟩⟩
  · rw [heq]
    exact h
  · rw [heq]
    exact owned_insertProfile h (howner hsigned hnone)
  · rw [heq]
    exact owned_insertProfile h (h _ p hp)

theorem setVault_keeps (proof : Proof Bytes) :
    Keeps (fun _ => []) st (setVault host scheme st proof).1 := by
  rcases setVault_cases st proof with heq | ⟨-, p, hp, hnewer, heq⟩
  · rw [heq]
    exact .refl st
  · rw [heq]
    refine keeps_replaced hp ?_
    exact ⟨UInt64.le_of_lt hnewer, UInt64.le_refl _, List.prefix_rfl, rfl⟩

theorem setVault_owned (h : Owned owner st) (proof : Proof Bytes) :
    Owned owner (setVault host scheme st proof).1 := by
  rcases setVault_cases st proof with heq | ⟨-, p, hp, -, heq⟩
  · rw [heq]
    exact h
  · rw [heq]
    exact owned_insertProfile h (h _ p hp)

/-- The reply agrees with what is stored in what the signature does not cover. A
profile that was not stored has the owner's key. -/
def Agrees (owner : Identity → Bytes) (st : Storage Peer) (identity : Identity)
    (reply : Profile) : Prop :=
  (st.profiles identity = none → reply.enc = owner identity) ∧
  ∀ p, st.profiles identity = some p → p.vaultVersion < reply.vaultVersion →
    reply.enc = p.enc ∧ p.mailAction ≤ reply.mailAction ∧ p.mail <+: reply.mail

theorem restore_keeps {identity : Identity} {reply : Bytes}
    (h : ∀ profile, Accepted host scheme identity reply profile →
      Agrees owner st identity profile.toProfile) :
    Keeps (fun _ => []) st (restore host scheme st identity reply) := by
  rcases restore_cases st identity reply with heq | ⟨profile, haccepted, hnewer, heq⟩
  · rw [heq]
    exact .refl st
  · rw [heq, ← update_const_nil identity]
    apply keeps_insertProfile
    intro p hp
    obtain ⟨henc, haction, hmail⟩ := (h profile haccepted).2 p hp (hnewer p hp)
    exact ⟨UInt64.le_of_lt (hnewer p hp), haction, hmail, henc⟩

theorem restore_owned (hst : Owned owner st) {identity : Identity} {reply : Bytes}
    (h : ∀ profile, Accepted host scheme identity reply profile →
      Agrees owner st identity profile.toProfile) :
    Owned owner (restore host scheme st identity reply) := by
  rcases restore_cases st identity reply with heq | ⟨profile, haccepted, hnewer, heq⟩
  · rw [heq]
    exact hst
  · rw [heq]
    apply owned_insertProfile hst
    cases hstored : st.profiles identity with
    | none => exact (h profile haccepted).1 hstored
    | some p =>
      rw [((h profile haccepted).2 p hstored (hnewer p hstored)).1]
      exact hst identity p hstored

/-- What left the mailboxes with the result of a handler. -/
def observed (observe : Answer → Identity → Bytes) : Except SendMail Answer → Identity → Bytes
  | .ok answer => observe answer
  | .error _ => fun _ => []

theorem execute_keeps [DecidableEq Peer] (origin : RequestOrigin Peer) (out : Outside)
    (request : ProfileStore.Request) :
    Keeps (observed (Node.returned host request) (execute host scheme st origin out request).2) st
      (execute host scheme st origin out request).1 := by
  cases request with
  | setVault proof => exact setVault_keeps proof
  | fetchProfile identity => exact .refl st
  | fetchVault identity => exact .refl st
  | sendMail forWho mail =>
    have hnothing : observed (Node.returned host (.sendMail forWho mail))
        (execute host scheme st origin out (.sendMail forWho mail)).2 = fun _ => [] := by
      cases (execute host scheme st origin out (.sendMail forWho mail)).2 <;> rfl
    rw [hnothing]
    apply keeps_withMailboxes
    intro who p hp
    obtain ⟨q, hstored, haction, hmail⟩ :=
      sendMail_keeps st.mailboxes origin forWho mail out.notified out.requested (mailboxes_some hp)
    exact ⟨q, hstored, haction ▸ UInt64.le_refl _, hmail⟩
  | readMail proof =>
    change Keeps (Node.returned host (.readMail proof)
      (.readMail (Mailbox.readMail host scheme st.mailboxes origin proof).2)) st
      (st.withMailboxes (Mailbox.readMail host scheme st.mailboxes origin proof).1)
    rcases readMail_keeps host scheme st.mailboxes origin proof with
      ⟨e, heq⟩ | ⟨q, hq, hnewer, hprofiles, hanswer⟩
    · rw [heq]
      apply keeps_withMailboxes
      intro who p hp
      exact ⟨p.toProfile, mailboxes_some hp, UInt64.le_refl _, List.prefix_rfl⟩
    · rw [hanswer]
      apply keeps_withMailboxes
      intro who p hp
      have hmail := mailboxes_some hp
      rw [hprofiles]
      simp only [Node.returned]
      by_cases hwho : who = host.blake3 proof.pk
      · subst hwho
        rw [hq] at hmail
        cases hmail
        rw [Function.update_self, Function.update_self]
        exact ⟨_, rfl, UInt64.le_of_lt hnewer, List.prefix_append _ _⟩
      · rw [Function.update_of_ne hwho, Function.update_of_ne hwho]
        exact ⟨p.toProfile, hmail, UInt64.le_refl _, List.prefix_rfl⟩

theorem execute_owned [DecidableEq Peer] (h : Owned owner st) (origin : RequestOrigin Peer)
    (out : Outside) (request : ProfileStore.Request) :
    Owned owner (execute host scheme st origin out request).1 := by
  cases request with
  | setVault proof => exact setVault_owned h proof
  | readMail proof => exact owned_withMailboxes h _
  | sendMail forWho mail => exact owned_withMailboxes h _
  | fetchProfile identity => exact h
  | fetchVault identity => exact h

/-- The mailbox of the recipient holds nothing but the mail. -/
def HoldsOnly (st : Storage Peer) (forWho : Identity) (mail : Bytes) : Prop :=
  ∀ p, st.profiles forWho = some p → p.mail = [] ∨ p.mail = frame mail

theorem resumeMail_keeps (handler : SendMail) (mail : Bytes) (event : Rpc.Event Peer)
    (h : ∀ peer reply, event = .response peer handler.dm (.ok reply) → saysSentDirectly reply →
      HoldsOnly st handler.forWho mail) :
    let r := handler.resume st.mailboxes event
    Keeps (observed (Node.delivered handler.forWho mail) (r.2.map .sendMail)) st
      (st.withMailboxes r.1) := by
  rcases resumeMail_cases handler st.mailboxes event with
    ⟨hprofiles, hresult⟩ | ⟨⟨peer, reply, hevent, hdirect⟩, hresult, hprofiles⟩
  · have hnothing : observed (Node.delivered handler.forWho mail)
        ((handler.resume st.mailboxes event).2.map .sendMail) = fun _ => [] := by
      rcases hresult with hresult | hresult <;> rw [hresult] <;> rfl
    simp only
    rw [hnothing]
    apply keeps_withMailboxes
    intro who p hp
    rw [hprofiles]
    exact ⟨p.toProfile, mailboxes_some hp, UInt64.le_refl _, List.prefix_rfl⟩
  · simp only
    rw [hresult]
    apply keeps_withMailboxes
    intro who p hp
    have hmail := mailboxes_some hp
    rw [hprofiles]
    simp only [Except.map, observed, Node.delivered]
    by_cases hwho : who = handler.forWho
    · subst hwho
      rw [Function.update_self, Function.update_self, hmail]
      refine ⟨_, rfl, UInt64.le_refl _, ?_⟩
      rcases h peer reply hevent hdirect p hp with hempty | hown
      · rw [hempty]
        exact List.nil_prefix
      · rw [hown]
        exact List.prefix_append _ _
    · rw [Function.update_of_ne hwho, Function.update_of_ne hwho]
      exact ⟨p.toProfile, hmail, UInt64.le_refl _, List.prefix_rfl⟩

end Steps

section Runs

variable {host : Host} {scheme : Verify} {owner : Identity → Bytes}

/-- What a handler needs of an event that it waits for: a reply that it restores a
profile from agrees with the node, and the mailbox that it clears after its mail
was delivered holds no other mail. -/
def Admits (host : Host) (scheme : Verify) (owner : Identity → Bytes) (st : Storage Peer)
    (event : Rpc.Event Peer) : Retry → Prop
  | .restoring topic pending _ => ∀ peer call reply, event = .response peer call (.ok reply) →
      call ∈ pending → ∀ profile, Accepted host scheme topic reply profile →
        Agrees owner st topic profile.toProfile
  | .handling handler mail => ∀ peer reply, event = .response peer handler.dm (.ok reply) →
      saysSentDirectly reply → HoldsOnly st handler.forWho mail

/-- Profiles are created with the keys of their owners, and events are admitted by
the handler that they are for. -/
def Admitted (host : Host) (scheme : Verify) (owner : Identity → Bytes) (n : Node Peer) :
    Event Peer → Prop
  | .createProfile proof enc => Signs host scheme proof →
      n.storage.profiles (host.blake3 proof.pk) = none → enc = owner (host.blake3 proof.pk)
  | .request _ _ _ => True
  | .resume i event _ => ∀ h, n.handlers[i]? = some h →
      Admits host scheme owner n.storage event h.handler

/-- Nothing is lost from `n` to `n'`. -/
def Progress (n n' : Node Peer) : Prop :=
  ∃ given : Identity → Bytes, (∀ who, n'.handed who = n.handed who ++ given who) ∧
    Keeps given n.storage n'.storage

theorem Progress.refl (n : Node Peer) : Progress n n :=
  ⟨fun _ => [], fun _ => (List.append_nil _).symm, .refl _⟩

theorem Progress.trans {n n' n'' : Node Peer} (h : Progress n n') (h' : Progress n' n'') :
    Progress n n'' := by
  obtain ⟨given, hgiven, hkeeps⟩ := h
  obtain ⟨given', hgiven', hkeeps'⟩ := h'
  refine ⟨fun who => given who ++ given' who, ?_, hkeeps.trans hkeeps'⟩
  intro who
  rw [hgiven', hgiven, List.append_assoc]

/-- Handlers and what was handed out do not matter to the storage. -/
theorem Progress.of_storage {n n' : Node Peer} (hhanded : n'.handed = n.handed)
    (h : Keeps (fun _ => []) n.storage n'.storage) : Progress n n' := by
  refine ⟨fun _ => [], ?_, h⟩
  intro who
  rw [hhanded, List.append_nil]

theorem progress_settle {n : Node Peer} {st : Storage Peer} (origin : RequestOrigin Peer)
    (mail : Bytes) {observe : Answer → Identity → Bytes} {r : Except SendMail Answer}
    (h : Keeps (observed observe r) n.storage st) :
    Progress n ({ n with storage := st }.settle origin mail observe r) := by
  cases r with
  | ok answer => exact ⟨observe answer, fun _ => rfl, h⟩
  | error handler => exact .of_storage rfl h

theorem storage_settle (n : Node Peer) (origin : RequestOrigin Peer) (mail : Bytes)
    (observe : Answer → Identity → Bytes) (r : Except SendMail Answer) :
    (n.settle origin mail observe r).storage = n.storage := by
  cases r <;> rfl

theorem progress_execute [DecidableEq Peer] (n : Node Peer) (origin : RequestOrigin Peer)
    (out : Outside) (request : ProfileStore.Request) :
    Progress n (n.execute host scheme origin out request) :=
  progress_settle origin _ (execute_keeps origin out request)

theorem owned_execute [DecidableEq Peer] {n : Node Peer} (h : Owned owner n.storage)
    (origin : RequestOrigin Peer) (out : Outside) (request : ProfileStore.Request) :
    Owned owner (n.execute host scheme origin out request).storage := by
  unfold Node.execute
  rw [storage_settle]
  exact execute_owned h origin out request

theorem restoring_progress [DecidableEq Peer] {n n' : Node Peer} (howned : Owned owner n.storage)
    {origin : RequestOrigin Peer} {out : Outside} {topic : Identity} {pending : List CallId}
    {request : ProfileStore.Request} {event : Rpc.Event Peer}
    (hok : Admits host scheme owner n.storage event (.restoring topic pending request))
    (h : n.restoring host scheme origin out topic pending request event = .ok n') :
    Owned owner n'.storage ∧ Progress n n' := by
  rcases restoring_cases h with rfl | ⟨peer, call, reply, rfl, hcall, hcases⟩
  · exact ⟨howned, .of_storage rfl (.refl _)⟩
  · have hagrees := hok peer call reply rfl hcall
    have hrestored := restore_owned howned hagrees
    have hkeeps := restore_keeps hagrees
    rcases hcases with rfl | ⟨pending', rfl⟩
    · have hprogress : Progress n
          { n with storage := restore host scheme n.storage topic reply } :=
        .of_storage rfl hkeeps
      exact ⟨owned_execute hrestored origin out request,
        hprogress.trans (progress_execute _ origin out request)⟩
    · exact ⟨hrestored, .of_storage rfl hkeeps⟩

theorem step_progress [DecidableEq Peer] {n n' : Node Peer} {e : Event Peer}
    (howned : Owned owner n.storage) (hok : Admitted host scheme owner n e)
    (hstep : n.Step host scheme e n') : Owned owner n'.storage ∧ Progress n n' := by
  unfold Node.Step at hstep
  cases e with
  | createProfile proof enc =>
    cases hstep
    exact ⟨createProfile_owned howned proof enc hok, .of_storage rfl (createProfile_keeps proof enc)⟩
  | request origin request out =>
    cases hstep
    unfold Node.retry
    simp only
    split_ifs
    · exact ⟨howned, .refl n⟩
    · exact ⟨owned_execute howned origin out request, progress_execute n origin out request⟩
    · exact ⟨howned, .of_storage rfl (.refl _)⟩
  | resume i event out =>
    simp only [Node.handle, Node.resume] at hstep
    split at hstep
    · cases hstep
      exact ⟨howned, .refl n⟩
    · next origin handler hi =>
      have hadmits := hok ⟨origin, handler⟩ hi
      -- the handler that is resumed is taken out first, which changes no storage
      have hprogress : ∀ {n'}, Progress { n with handlers := n.handlers.eraseIdx i } n' →
          Progress n n' := fun h => h
      split at hstep
      · next handler mail =>
        cases hstep
        have hkeeps := resumeMail_keeps handler mail event hadmits
        refine ⟨?_, hprogress (progress_settle origin mail hkeeps)⟩
        unfold Node.handling
        rw [storage_settle]
        exact owned_withMailboxes howned _
      · obtain ⟨howned', h⟩ := restoring_progress
          (n := { n with handlers := n.handlers.eraseIdx i }) howned hadmits hstep
        exact ⟨howned', hprogress h⟩

/-- In a run of admitted events a stored profile is neither rolled back nor taken
over: versions and mail actions do not decrease, mail stays in its mailbox until it
is handed out, and the key is the owner's. -/
theorem profiles_not_rolled_back [DecidableEq Peer] {es es' : List (Event Peer)} {n n' : Node Peer}
    (hrun : Run (guarded (Admitted host scheme owner) (Node.Step host scheme)) {} es n)
    (hrun' : Run (guarded (Admitted host scheme owner) (Node.Step host scheme)) n es' n')
    {who : Identity} {p : Profile} (hp : n.storage.profiles who = some p) :
    ∃ p', n'.storage.profiles who = some p' ∧ p.vaultVersion ≤ p'.vaultVersion ∧
      p.mailAction ≤ p'.mailAction ∧ n.handed who ++ p.mail <+: n'.handed who ++ p'.mail ∧
      p.enc = owner who ∧ p'.enc = owner who := by
  have howned : Owned owner n.storage := by
    refine hrun.stateInvariant (P := fun n => Owned owner n.storage) nofun ?_
    intro n e n' howned hstep
    exact (step_progress howned hstep.1 hstep.2).1
  have hprogress : Owned owner n'.storage ∧ Progress n n' := by
    refine hrun'.stateInvariant (P := fun n' => Owned owner n'.storage ∧ Progress n n')
      ⟨howned, .refl n⟩ ?_
    intro n₁ e n₂ ⟨howned₁, hprogress₁⟩ hstep
    obtain ⟨howned₂, hprogress₂⟩ := step_progress howned₁ hstep.1 hstep.2
    exact ⟨howned₂, hprogress₁.trans hprogress₂⟩
  obtain ⟨howned', given, hgiven, hkeeps⟩ := hprogress
  obtain ⟨p', hp', hkept⟩ := hkeeps who p hp
  refine ⟨p', hp', hkept.version, hkept.action, ?_, howned who p hp, howned' who p' hp'⟩
  rw [hgiven who, List.append_assoc]
  exact (List.prefix_append_right_inj _).mpr hkept.mail

end Runs

/-- The profile of the owner of `sampleKey` as a replicator may send it. -/
def sampleProfile (enc : List.Vector UInt8 1216) (version action : Nonce) (mail : Vec UInt8) :
    BorrowedProfile where
  sign := ⟨sampleKey, List.length_replicate⟩
  enc := enc
  lastSig := ⟨sampleSignature, List.length_replicate⟩
  vaultVersion := version
  mailAction := action
  vault := ⟨[], by decide⟩
  mail := mail

def sampleReply (profile : BorrowedProfile) : Bytes :=
  (result borrowedProfile fetchProfileError).toBytes (.ok profile)

theorem decode_sampleReply (profile : BorrowedProfile) :
    (result borrowedProfile fetchProfileError).decode (sampleReply profile) =
      some (.ok profile, []) := by
  have hbuilt : Built false (result borrowedProfile fetchProfileError) :=
    .result (.struct _ (.pair (.array _ .u8) (.pair (.array _ .u8) (.pair (.array _ .u8)
      (.pair .u64 (.pair .u64 (.pair .slice .slice))))))) (built_units (by decide) _)
  have hround := roundTrips_of_built hbuilt (.ok profile) [] nofun
  rwa [List.append_nil] at hround

theorem toProfile_sampleProfile (enc : List.Vector UInt8 1216) (version action : Nonce)
    (mail : Vec UInt8) :
    (sampleProfile enc version action mail).toProfile =
      ⟨⟨action, mail.val⟩, sampleKey, enc.toList, sampleSignature, version, []⟩ := rfl

theorem accepted_sampleReply (enc : List.Vector UInt8 1216) (version action : Nonce)
    (mail : Vec UInt8) :
    Accepted sampleHost sampleVerify sampleIdentity
      (sampleReply (sampleProfile enc version action mail))
      (sampleProfile enc version action mail) := by
  refine ⟨[], decode_sampleReply _, ?_⟩
  rw [toProfile_sampleProfile]
  exact ⟨blake3_sampleKey, verify_sampleKey _ _⟩

/-- A client asks for the vault of a profile that is not stored, so both other
replicators are asked for it. -/
def sampleAsk : Event ℕ :=
  .request (.client 0) (.fetchVault sampleIdentity) ⟨true, [1, 2], false, none⟩

/-- The replicator `peer` answers the call of the same number. -/
def sampleAnswer (peer : ℕ) (profile : BorrowedProfile) : Event ℕ :=
  .resume 0 (.response peer (UInt64.ofNat peer) (.ok (sampleReply profile))) ⟨true, [], false, none⟩

/-- One answer has arrived. -/
def sampleRestored (first : BorrowedProfile) : Node ℕ where
  storage := ({} : Storage ℕ).insertProfile sampleIdentity first.toProfile
  handlers := [⟨.client 0, .restoring sampleIdentity [2] (.fetchVault sampleIdentity)⟩]

/-- Both answers have arrived. -/
def sampleReplaced (first second : BorrowedProfile) : Node ℕ where
  storage := (sampleRestored first).storage.insertProfile sampleIdentity second.toProfile

section Samples

variable {first second : BorrowedProfile}

theorem step_sampleAsk : Node.Step sampleHost sampleVerify {} sampleAsk
    { handlers := [⟨.client 0, .restoring sampleIdentity [1, 2] (.fetchVault sampleIdentity)⟩] } :=
  rfl

theorem step_first
    (h : Accepted sampleHost sampleVerify sampleIdentity (sampleReply first) first) :
    Node.Step sampleHost sampleVerify
      { handlers := [⟨.client 0, .restoring sampleIdentity [1, 2] (.fetchVault sampleIdentity)⟩] }
      (sampleAnswer 1 first) (sampleRestored first) := by
  have hrestore : restore sampleHost sampleVerify ({} : Storage ℕ) sampleIdentity
      (sampleReply first) = ({} : Storage ℕ).insertProfile sampleIdentity first.toProfile :=
    restore_of_accepted h nofun
  unfold Node.Step sampleRestored
  rw [← hrestore]
  rfl

theorem step_second
    (h : Accepted sampleHost sampleVerify sampleIdentity (sampleReply second) second)
    (hnewer : first.vaultVersion < second.vaultVersion) :
    Node.Step sampleHost sampleVerify (sampleRestored first) (sampleAnswer 2 second)
      (sampleReplaced first second) := by
  have hrestore : restore sampleHost sampleVerify (sampleRestored first).storage sampleIdentity
      (sampleReply second) = (sampleReplaced first second).storage := by
    apply restore_of_accepted h
    intro existing hexisting
    rcases profiles_insertProfile hexisting with ⟨-, rfl⟩ | hnone
    · exact hnewer
    · cases hnone
  unfold Node.Step
  have hreplaced : sampleReplaced first second =
      { storage := restore sampleHost sampleVerify (sampleRestored first).storage sampleIdentity
          (sampleReply second) } := by
    rw [hrestore]
    rfl
  rw [hreplaced]
  rfl

theorem accepted_sampleReply_unique {identity : Identity} {profile : BorrowedProfile}
    (h : Accepted sampleHost sampleVerify identity (sampleReply first) profile) :
    profile = first := by
  obtain ⟨rest, hdecode, -⟩ := h
  rw [decode_sampleReply] at hdecode
  cases hdecode
  rfl

/-- An answer is admitted when what it says agrees with the storage. -/
theorem admitted_sampleAnswer {n : Node ℕ} {owner : Identity → Bytes} {peer : ℕ}
    {pending : List CallId}
    (hhandlers : n.handlers =
      [⟨.client 0, .restoring sampleIdentity pending (.fetchVault sampleIdentity)⟩])
    (h : Agrees owner n.storage sampleIdentity first.toProfile) :
    Admitted sampleHost sampleVerify owner n (sampleAnswer peer first) := by
  intro handler hhandler
  rw [hhandlers] at hhandler
  cases hhandler
  intro peer' call reply hevent hcall profile haccepted
  cases hevent
  rw [accepted_sampleReply_unique haccepted]
  exact h

theorem profiles_sampleRestored :
    (sampleRestored first).storage.profiles sampleIdentity = some first.toProfile := by
  simp only [sampleRestored, Storage.insertProfile, Function.update_self]

theorem profiles_sampleReplaced :
    (sampleReplaced first second).storage.profiles sampleIdentity = some second.toProfile := by
  simp only [sampleReplaced, Storage.insertProfile, Function.update_self]

end Samples

def sampleOwnerKey : List.Vector UInt8 1216 := ⟨sampleEnc, List.length_replicate⟩

def sampleOtherKey : List.Vector UInt8 1216 := ⟨List.replicate 1216 4, List.length_replicate⟩

/-- Five mail actions were made and one mail is stored. -/
def sampleHonest : BorrowedProfile := sampleProfile sampleOwnerKey 1 5 ⟨frame [9], by decide⟩

/-- Another mail arrived where the vault was replaced. -/
def sampleLater : BorrowedProfile :=
  sampleProfile sampleOwnerKey 2 5 ⟨frame [9] ++ frame [8], by decide⟩

/-- A replicator that saw the newer vault makes up the rest. -/
def sampleForged : BorrowedProfile := sampleProfile sampleOtherKey 2 0 ⟨[], by decide⟩

/-- Two replies that agree. -/
theorem profiles_not_rolled_back_agreeing :
    ∃ n n' : Node ℕ, ∃ p p',
      Run (Node.Step sampleHost sampleVerify) {} [sampleAsk, sampleAnswer 1 sampleHonest] n ∧
      Run (Node.Step sampleHost sampleVerify) n [sampleAnswer 2 sampleLater] n' ∧
      n.storage.profiles sampleIdentity = some p ∧ n'.storage.profiles sampleIdentity = some p' ∧
      p.vaultVersion ≤ p'.vaultVersion ∧ p.mailAction ≤ p'.mailAction ∧
      n.handed sampleIdentity ++ p.mail <+: n'.handed sampleIdentity ++ p'.mail ∧
      p'.enc = sampleEnc := by
  have hfirst : Run (guarded (Admitted sampleHost sampleVerify fun _ => sampleEnc)
      (Node.Step sampleHost sampleVerify)) {} [sampleAsk, sampleAnswer 1 sampleHonest]
      (sampleRestored sampleHonest) := by
    refine .next _ (.next _ .start ⟨trivial, step_sampleAsk⟩)
      ⟨admitted_sampleAnswer rfl ⟨?_, nofun⟩, step_first (accepted_sampleReply ..)⟩
    intro _
    rfl
  have hsecond : Run (guarded (Admitted sampleHost sampleVerify fun _ => sampleEnc)
      (Node.Step sampleHost sampleVerify)) (sampleRestored sampleHonest)
      [sampleAnswer 2 sampleLater] (sampleReplaced sampleHonest sampleLater) := by
    refine .next _ .start ⟨admitted_sampleAnswer rfl ⟨?_, ?_⟩,
      step_second (accepted_sampleReply ..) (by decide)⟩
    · intro hnone
      rw [profiles_sampleRestored] at hnone
      cases hnone
    · intro p hp _
      rw [profiles_sampleRestored] at hp
      cases hp
      exact ⟨rfl, by decide, List.prefix_append _ _⟩
  obtain ⟨p', hp', hversion, haction, hmail, -, henc⟩ :=
    profiles_not_rolled_back hfirst hsecond profiles_sampleRestored
  exact ⟨_, _, _, p', hfirst.unguard, hsecond.unguard, profiles_sampleRestored, hp', hversion, haction,
    hmail, henc⟩

/-- One replicator makes up a profile around a newer signed vault: the mail is gone,
the mail action is older and the key is another one. -/
theorem forged_profile_restored :
    (∃ n n' : Node ℕ, ∃ p p',
      Run (Node.Step sampleHost sampleVerify) {} [sampleAsk, sampleAnswer 1 sampleHonest] n ∧
      Run (Node.Step sampleHost sampleVerify) n [sampleAnswer 2 sampleForged] n' ∧
      n.storage.profiles sampleIdentity = some p ∧ n'.storage.profiles sampleIdentity = some p' ∧
      p'.mailAction < p.mailAction ∧ p.mail = frame [9] ∧ p'.mail = [] ∧
      n'.handed sampleIdentity = [] ∧ p.enc = sampleEnc ∧ p'.enc ≠ sampleEnc) ∧
    ¬ ∀ (es es' : List (Event ℕ)) (n n' : Node ℕ) (who : Identity) (p : Profile),
      Run (Node.Step sampleHost sampleVerify) {} es n →
      Run (Node.Step sampleHost sampleVerify) n es' n' → n.storage.profiles who = some p →
      ∃ p', n'.storage.profiles who = some p' ∧ p.vaultVersion ≤ p'.vaultVersion ∧
        p.mailAction ≤ p'.mailAction ∧ n.handed who ++ p.mail <+: n'.handed who ++ p'.mail ∧
        p'.enc = p.enc := by
  have hfirst : Run (Node.Step sampleHost sampleVerify) {} [sampleAsk, sampleAnswer 1 sampleHonest]
      (sampleRestored sampleHonest) :=
    .next _ (.next _ .start step_sampleAsk) (step_first (accepted_sampleReply ..))
  have hsecond : Run (Node.Step sampleHost sampleVerify) (sampleRestored sampleHonest)
      [sampleAnswer 2 sampleForged] (sampleReplaced sampleHonest sampleForged) :=
    .next _ .start (step_second (accepted_sampleReply ..) (by decide))
  have hkey : sampleForged.toProfile.enc ≠ sampleEnc := by
    intro heq
    have hhead := congrArg List.head? heq
    revert hhead
    decide
  constructor
  · exact ⟨_, _, _, _, hfirst, hsecond, profiles_sampleRestored, profiles_sampleReplaced, by decide,
      rfl, rfl, rfl, rfl, hkey⟩
  · intro hclaim
    obtain ⟨p', hp', -, -, -, henc⟩ := hclaim _ _ _ _ _ _ hfirst hsecond profiles_sampleRestored
    rw [profiles_sampleReplaced] at hp'
    cases hp'
    exact hkey henc

end OrionNetwork.ProfileRestore
