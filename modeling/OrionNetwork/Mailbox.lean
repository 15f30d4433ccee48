import OrionNetwork.Proofs
import OrionNetwork.Protocols
import OrionNetwork.Replicated
import OrionNetwork.Runs

/-!
# Mailboxes

Mail for a profile goes to where its owner reads mail from: a client of this
node, another node, or nowhere. What cannot be delivered stays in the mailbox of
the profile. Mail that another node is asked to deliver is put into the mailbox
first and the mailbox is cleared when that node did. Whether a client took the
notification and whether a request was sent is known from outside.
-/
namespace OrionNetwork.Mailbox
open Codec BlockHash ChatReplica Proofs Protocols Runs
open Rpc (CallId)
open Replicated (HandlerResult)

def mailBoxCap : ℕ := 1024 * 1024

abbrev PathId := UInt64

/-- What the mail of a profile is about. -/
structure Profile where
  mailAction : Nonce
  mail : Bytes

/-- A mail as it is written to a mailbox. -/
def frame (content : Bytes) : Bytes := encodeLen content.length ++ content

namespace Profile

/-- The mailbox is empty afterwards. -/
def readMail (p : Profile) : Profile × Bytes := ({ p with mail := [] }, p.mail)

def pushMail (p : Profile) (content : Bytes) : Profile := { p with mail := p.mail ++ frame content }

end Profile

inductive RequestOrigin (Peer : Type) where
  | client (path : PathId)
  | server (peer : Peer)
  deriving DecidableEq

structure Storage (Peer : Type) where
  profiles : Identity → Option Profile
  online : Identity → Option (RequestOrigin Peer)

structure SendMail where
  dm : CallId
  forWho : Identity

variable {Peer : Type}

namespace Storage

def insertProfile (st : Storage Peer) (who : Identity) (p : Profile) : Storage Peer :=
  { st with profiles := Function.update st.profiles who (some p) }

def removeOnline (st : Storage Peer) (who : Identity) : Storage Peer :=
  { st with online := Function.update st.online who none }

/-- What the mailbox holds. -/
def mailOf (st : Storage Peer) (who : Identity) : Bytes := ((st.profiles who).map (·.mail)).getD []

end Storage

/-- `notified` and `requested` are what the notification and the request return. -/
def SendMail.execute [DecidableEq Peer] (st : Storage Peer) (origin : RequestOrigin Peer)
    (forWho : Identity) (mail : Bytes) (notified : Bool) (requested : Option CallId) :
    Storage Peer × HandlerResult SendMail Unit SendMailError :=
  match st.profiles forWho with
  | none => (st, .ok (.error .notFound))
  | some profile =>
    if ¬profile.mail.length + mail.length < mailBoxCap then (st, .ok (.error .mailboxFull))
    else
      match st.online forWho with
      | none => (st.insertProfile forWho (profile.pushMail mail), .ok (.ok ()))
      | some (.client p) =>
        if RequestOrigin.client p = origin then (st, .ok (.error .sendingToSelf))
        else if notified then (st, .ok (.error .sentDirectly))
        else ((st.removeOnline forWho).insertProfile forWho (profile.pushMail mail), .ok (.ok ()))
      | some (.server _) =>
        let pushed := st.insertProfile forWho (profile.pushMail mail)
        match origin with
        | .server _ => (pushed.removeOnline forWho, .ok (.ok ()))
        | .client _ =>
          match requested with
          | some dm => (pushed, .error ⟨dm, forWho⟩)
          | none => (pushed, .ok (.ok ()))

def SendMail.clearPresence (h : SendMail) (st : Storage Peer) :
    Storage Peer × HandlerResult SendMail Unit SendMailError :=
  (st.removeOnline h.forWho, .ok (.ok ()))

/-- The whole mailbox goes. -/
def SendMail.popPushedMail (h : SendMail) (st : Storage Peer) :
    Storage Peer × HandlerResult SendMail Unit SendMailError :=
  match st.profiles h.forWho with
  | some profile => (st.insertProfile h.forWho { profile with mail := [] }, .ok (.error .sentDirectly))
  | none => (st, .ok (.error .sentDirectly))

/-- The answer says that the mail was delivered. -/
def saysSentDirectly (reply : Bytes) : Bool :=
  (result unit sendMailError).decode reply |>.map (·.1) |>.any fun
    | .error .sentDirectly => true
    | _ => false

def SendMail.resume (h : SendMail) (st : Storage Peer) (event : Rpc.Event Peer) :
    Storage Peer × HandlerResult SendMail Unit SendMailError :=
  match event with
  | .request _ _ _ => (st, .error h)
  | .response _ call res =>
    if call ≠ h.dm then (st, .error h)
    else
      match res with
      | .error _ => h.clearPresence st
      | .ok reply => if saysSentDirectly reply then h.popPushedMail st else h.clearPresence st

section ReadMail

variable (host : Host) (scheme : Verify)

def readMail (st : Storage Peer) (origin : RequestOrigin Peer) (request : Proof Unit) :
    Storage Peer × Except ReadMailError Bytes :=
  if !verify host scheme ⟨request.pk, request.nonce, request.signature, .mail⟩ then
    (st, .error .invalidProof)
  else
    let identity := host.blake3 request.pk
    match st.profiles identity with
    | none => (st, .error .notFound)
    | some profile =>
      match advanceNonce profile.mailAction request.nonce with
      | none => (st, .error .invalidAction)
      | some nonce =>
        let (profile, mail) := { profile with mailAction := nonce }.readMail
        let st := { st with online := Function.update st.online identity (some origin) }
        (st.insertProfile identity profile, .ok mail)

end ReadMail

inductive Event (Peer : Type) where
  | send (origin : RequestOrigin Peer) (forWho : Identity) (mail : Bytes) (notified : Bool)
      (requested : Option CallId)
  | resume (id : ℕ) (event : Rpc.Event Peer)
  | read (origin : RequestOrigin Peer) (request : Proof Unit)

/-- A node with the mails it was sent, numbered as they came. `mails`, `outcomes`,
`held` and `returned` are observations for the proofs: every mail with its
recipient, how its sending ended, which mails each mailbox holds in order and
which were read. -/
structure Node (Peer : Type) where
  storage : Storage Peer
  pending : List (ℕ × SendMail) := []
  mails : List (Identity × Bytes) := []
  outcomes : ℕ → Option (Except SendMailError Unit) := fun _ => none
  held : Identity → List ℕ := fun _ => []
  returned : List ℕ := []

namespace Node

/-- What a handler returned for the mail `id`. -/
def record (n : Node Peer) (id : ℕ) : HandlerResult SendMail Unit SendMailError → Node Peer
  | .ok outcome => { n with outcomes := Function.update n.outcomes id (some outcome) }
  | .error h => { n with pending := n.pending ++ [(id, h)] }

def send [DecidableEq Peer] (n : Node Peer) (origin : RequestOrigin Peer) (forWho : Identity)
    (mail : Bytes) (notified : Bool) (requested : Option CallId) : Node Peer :=
  let id := n.mails.length
  let (st, res) := SendMail.execute n.storage origin forWho mail notified requested
  record { n with
    storage := st
    mails := n.mails ++ [(forWho, mail)]
    -- the mailbox only ever grows by the mail that is sent
    held := if st.mailOf forWho = n.storage.mailOf forWho then n.held
      else Function.update n.held forWho (n.held forWho ++ [id]) } id res

def resume (n : Node Peer) (id : ℕ) (event : Rpc.Event Peer) : Option (Node Peer) :=
  match n.pending.find? (·.1 = id) with
  | none => none
  | some (_, h) =>
    let (st, res) := h.resume n.storage event
    some (record { n with
      storage := st
      pending := n.pending.filter (·.1 ≠ id)
      held := if st.mailOf h.forWho = [] then Function.update n.held h.forWho [] else n.held } id res)

def read (host : Host) (scheme : Verify) (n : Node Peer) (origin : RequestOrigin Peer)
    (request : Proof Unit) : Node Peer :=
  match readMail host scheme n.storage origin request with
  | (st, .error _) => { n with storage := st }
  | (st, .ok _) => { n with
    storage := st
    held := Function.update n.held (host.blake3 request.pk) []
    returned := n.returned ++ n.held (host.blake3 request.pk) }

def handle [DecidableEq Peer] (host : Host) (scheme : Verify) (n : Node Peer) :
    Event Peer → Option (Node Peer)
  | .send origin forWho mail notified requested =>
    some (n.send origin forWho mail notified requested)
  | .resume id event => n.resume id event
  | .read origin request => some (n.read host scheme origin request)

def Step [DecidableEq Peer] (host : Host) (scheme : Verify) (n : Node Peer) (e : Event Peer)
    (n' : Node Peer) : Prop :=
  n.handle host scheme e = some n'

/-- The mails are where the mailboxes are said to hold them. -/
def Holds (n : Node Peer) : Prop :=
  ∀ who, n.storage.mailOf who = (n.held who).flatMap fun id => frame ((n.mails[id]?.map (·.2)).getD [])

/-- A mail that was accepted and not read is in its mailbox once, and one that
was sent directly is not in it. -/
def Keeps (n : Node Peer) (id : ℕ) (forWho : Identity) : Prop :=
  (n.outcomes id = some (.ok ()) → id ∉ n.returned → (n.held forWho).count id = 1) ∧
    (n.outcomes id = some (.error .sentDirectly) → id ∉ n.held forWho)

/-- The mailbox that is cleared holds nothing but the mail that was delivered. -/
def ClearsOwn (n : Node Peer) (e : Event Peer) : Prop :=
  match e with
  | .resume id (.response _ call (.ok reply)) =>
    ∀ h, n.pending.find? (·.1 = id) = some (id, h) → call = h.dm → saysSentDirectly reply →
      ∀ other ∈ n.held h.forWho, other = id
  | _ => True

/-- All mailboxes empty, nothing sent. -/
def Fresh (n : Node Peer) : Prop :=
  (∀ who, n.storage.mailOf who = []) ∧ n = { storage := n.storage }

structure Invariant (n : Node Peer) : Prop where
  holds : n.Holds
  nodup : ∀ who, (n.held who).Nodup
  addressed : ∀ who, ∀ id ∈ n.held who, ∃ mail, n.mails[id]? = some (who, mail)
  sent : ∀ id, n.mails.length ≤ id → n.outcomes id = none
  accepted : ∀ id forWho mail, n.mails[id]? = some (forWho, mail) → n.outcomes id = some (.ok ()) →
    id ∈ n.returned ∨ id ∈ n.held forWho
  direct : ∀ id who, n.outcomes id = some (.error .sentDirectly) → id ∉ n.held who
  waiting : ∀ id h, (id, h) ∈ n.pending → n.outcomes id = none ∧
    (∃ mail, n.mails[id]? = some (h.forWho, mail)) ∧ (id ∈ n.returned ∨ id ∈ n.held h.forWho)

end Node

section Effects

variable {st : Storage Peer}

@[simp] theorem mailOf_insertProfile (who : Identity) (p : Profile) :
    (st.insertProfile who p).mailOf = Function.update st.mailOf who p.mail := by
  funext other
  by_cases h : other = who
  · subst h
    simp [Storage.mailOf, Storage.insertProfile]
  · simp [Storage.mailOf, Storage.insertProfile, h]

@[simp] theorem mailOf_removeOnline (who : Identity) : (st.removeOnline who).mailOf = st.mailOf := rfl

theorem mailOf_eq {who : Identity} {p : Profile} (h : st.profiles who = some p) :
    st.mailOf who = p.mail := by
  simp [Storage.mailOf, h]

/-- The client that is online is the sender or took the notification. -/
def Taken (st : Storage Peer) (origin : RequestOrigin Peer) (forWho : Identity) (notified : Bool) :
    Prop :=
  ∃ path, st.online forWho = some (.client path) ∧
    (RequestOrigin.client path = origin ∨ notified = true)

theorem execute_profiles [DecidableEq Peer] (st : Storage Peer) (origin : RequestOrigin Peer)
    (forWho : Identity) (mail : Bytes) (notified : Bool) (requested : Option CallId) :
    let r := SendMail.execute st origin forWho mail notified requested
    (r.1 = st ∧ (∃ e, r.2 = .ok (.error e)) ∧
      ∀ profile, st.profiles forWho = some profile →
        profile.mail.length + mail.length < mailBoxCap → Taken st origin forWho notified) ∨
      ∃ profile, st.profiles forWho = some profile ∧
        profile.mail.length + mail.length < mailBoxCap ∧ ¬Taken st origin forWho notified ∧
        r.1.profiles = Function.update st.profiles forWho (some (profile.pushMail mail)) ∧
        (r.2 = .ok (.ok ()) ∨ ∃ dm, r.2 = .error ⟨dm, forWho⟩) := by
  simp only [SendMail.execute]
  cases hprofile : st.profiles forWho with
  | none =>
    refine .inl ⟨rfl, ⟨_, rfl⟩, ?_⟩
    intro profile h
    cases h
  | some profile =>
    simp only
    by_cases hfits : profile.mail.length + mail.length < mailBoxCap
    · rw [if_neg (not_not.mpr hfits)]
      cases honline : st.online forWho with
      | none =>
        have hfree : ¬Taken st origin forWho notified := by
          rintro ⟨path, hpath, -⟩
          rw [honline] at hpath
          cases hpath
        exact .inr ⟨profile, rfl, hfits, hfree, rfl, .inl rfl⟩
      | some online =>
        cases online with
        | client p =>
          simp only
          by_cases hself : RequestOrigin.client p = origin
          · rw [if_pos hself]
            exact .inl ⟨rfl, ⟨_, rfl⟩, fun _ _ _ => ⟨p, honline, .inl hself⟩⟩
          · rw [if_neg hself]
            cases notified with
            | true => exact .inl ⟨rfl, ⟨_, rfl⟩, fun _ _ _ => ⟨p, honline, .inr rfl⟩⟩
            | false =>
              have hfree : ¬Taken st origin forWho false := by
                rintro ⟨path, hpath, hsent | hnotified⟩
                · cases honline.symm.trans hpath
                  exact hself hsent
                · cases hnotified
              exact .inr ⟨profile, rfl, hfits, hfree, rfl, .inl rfl⟩
        | server peer =>
          have hfree : ¬Taken st origin forWho notified := by
            rintro ⟨path, hpath, -⟩
            cases honline.symm.trans hpath
          cases origin with
          | server peer' => exact .inr ⟨profile, rfl, hfits, hfree, rfl, .inl rfl⟩
          | client p =>
            cases requested with
            | none => exact .inr ⟨profile, rfl, hfits, hfree, rfl, .inl rfl⟩
            | some dm => exact .inr ⟨profile, rfl, hfits, hfree, rfl, .inr ⟨dm, rfl⟩⟩
    · rw [if_pos hfits]
      refine .inl ⟨rfl, ⟨_, rfl⟩, ?_⟩
      intro profile' h hfits'
      cases h
      exact absurd hfits' hfits

theorem mailOf_of_profiles {st' : Storage Peer} {who : Identity} {p : Profile}
    (h : st'.profiles = Function.update st.profiles who (some p)) :
    st'.mailOf = Function.update st.mailOf who p.mail := by
  rw [← mailOf_insertProfile]
  funext other
  rw [Storage.mailOf, h]
  rfl

theorem execute_cases [DecidableEq Peer] (st : Storage Peer) (origin : RequestOrigin Peer)
    (forWho : Identity) (mail : Bytes) (notified : Bool) (requested : Option CallId) :
    let r := SendMail.execute st origin forWho mail notified requested
    (r.1 = st ∧ ∃ e, r.2 = .ok (.error e)) ∨
      (r.1.mailOf = Function.update st.mailOf forWho (st.mailOf forWho ++ frame mail) ∧
        (r.2 = .ok (.ok ()) ∨ ∃ dm, r.2 = .error ⟨dm, forWho⟩)) := by
  rcases execute_profiles st origin forWho mail notified requested with
    ⟨hsame, hrefused, -⟩ | ⟨profile, hprofile, -, -, hprofiles, hresult⟩
  · exact .inl ⟨hsame, hrefused⟩
  · refine .inr ⟨?_, hresult⟩
    rw [mailOf_eq hprofile, mailOf_of_profiles hprofiles]
    rfl

theorem popPushedMail_spec (h : SendMail) (st : Storage Peer) :
    (h.popPushedMail st).1.mailOf = Function.update st.mailOf h.forWho [] ∧
      (h.popPushedMail st).2 = .ok (.error .sentDirectly) := by
  unfold SendMail.popPushedMail
  split
  · exact ⟨by simp, rfl⟩
  · next hnone =>
    refine ⟨?_, rfl⟩
    have hempty : st.mailOf h.forWho = [] := by simp [Storage.mailOf, hnone]
    rw [← hempty, Function.update_eq_self]

theorem resume_cases (h : SendMail) (st : Storage Peer) (event : Rpc.Event Peer) :
    let r := h.resume st event
    r = (st, .error h) ∨ (r.1.mailOf = st.mailOf ∧ r.2 = .ok (.ok ())) ∨
      (∃ peer reply, event = .response peer h.dm (.ok reply) ∧ saysSentDirectly reply) ∧
        r.1.mailOf = Function.update st.mailOf h.forWho [] ∧ r.2 = .ok (.error .sentDirectly) := by
  cases event with
  | request peer call payload => exact .inl rfl
  | response peer call res =>
    simp only [SendMail.resume]
    split_ifs with hcall
    · exact .inl rfl
    · cases not_not.mp hcall
      cases res with
      | error e => exact .inr (.inl ⟨rfl, rfl⟩)
      | ok reply =>
        simp only
        split_ifs with hdirect
        · exact .inr (.inr ⟨⟨peer, reply, rfl, hdirect⟩, popPushedMail_spec h st⟩)
        · exact .inr (.inl ⟨rfl, rfl⟩)

theorem readMail_cases (host : Host) (scheme : Verify) (st : Storage Peer)
    (origin : RequestOrigin Peer) (request : Proof Unit) :
    let r := readMail host scheme st origin request
    (∃ e, r = (st, .error e)) ∨
      (r.1.mailOf = Function.update st.mailOf (host.blake3 request.pk) [] ∧
        r.2 = .ok (st.mailOf (host.blake3 request.pk))) := by
  simp only [readMail]
  split_ifs
  · exact .inl ⟨_, rfl⟩
  · cases hprofile : st.profiles (host.blake3 request.pk) with
    | none => exact .inl ⟨_, rfl⟩
    | some profile =>
      simp only
      cases hnonce : advanceNonce profile.mailAction request.nonce with
      | none => exact .inl ⟨_, rfl⟩
      | some nonce =>
        right
        constructor
        · simp only [mailOf_insertProfile]
          rfl
        · rw [mailOf_eq hprofile]
          rfl

end Effects

namespace Node.Invariant

variable {n : Node Peer} {id : ℕ} {who : Identity} {st : Storage Peer}

theorem frame_ne_nil (content : Bytes) : frame content ≠ [] := by
  simp [frame, encodeLen]

theorem held_nil (h : Invariant n) (hempty : n.storage.mailOf who = []) : n.held who = [] := by
  have hframes := h.holds who
  rw [hempty] at hframes
  rw [List.eq_nil_iff_forall_not_mem]
  intro id hid
  exact frame_ne_nil _ (List.flatMap_eq_nil_iff.mp hframes.symm id hid)

theorem lt_of_held (h : Invariant n) (hid : id ∈ n.held who) : id < n.mails.length := by
  obtain ⟨mail, hmail⟩ := h.addressed who id hid
  exact (List.getElem?_eq_some_iff.mp hmail).1

theorem lt_of_pending {s : SendMail} (h : Invariant n) (hid : (id, s) ∈ n.pending) :
    id < n.mails.length := by
  obtain ⟨-, ⟨mail, hmail⟩, -⟩ := h.waiting id s hid
  exact (List.getElem?_eq_some_iff.mp hmail).1

theorem fresh (h : Fresh n) : Invariant n := by
  obtain ⟨hempty, hn⟩ := h
  rw [hn]
  constructor
  · exact hempty
  · intro _
    exact List.nodup_nil
  · intro _ _ hid
    cases hid
  · intro _ _
    rfl
  · intro _ _ _ hmail
    cases hmail
  · intro _ _ houtcome
    cases houtcome
  · intro _ _ hpending
    cases hpending

/-- A mail that was sent and is not put anywhere yet. -/
theorem arrive (h : Invariant n) (m : Identity × Bytes) :
    Invariant { n with mails := n.mails ++ [m] } := by
  have hold : ∀ {id : ℕ} {x}, n.mails[id]? = some x → (n.mails ++ [m])[id]? = some x := by
    intro id x hid
    rw [List.getElem?_append_left (List.getElem?_eq_some_iff.mp hid).1, hid]
  constructor
  · intro who
    rw [h.holds who]
    apply List.flatMap_congr
    intro id hid
    obtain ⟨mail, hmail⟩ := h.addressed who id hid
    simp only [hmail, hold hmail]
  · exact h.nodup
  · intro who id hid
    obtain ⟨mail, hmail⟩ := h.addressed who id hid
    exact ⟨mail, hold hmail⟩
  · intro id hid
    exact h.sent id (by simp at hid; omega)
  · intro id forWho mail hmail houtcome
    by_cases hid : id < n.mails.length
    · rw [List.getElem?_append_left hid] at hmail
      exact h.accepted id forWho mail hmail houtcome
    · rw [show n.outcomes id = none from h.sent id (not_lt.mp hid)] at houtcome
      cases houtcome
  · exact h.direct
  · intro id s hpending
    obtain ⟨hnone, ⟨mail, hmail⟩, hplace⟩ := h.waiting id s hpending
    exact ⟨hnone, ⟨mail, hold hmail⟩, hplace⟩

theorem push (h : Invariant n) {mail : Bytes} (hmail : n.mails[id]? = some (who, mail))
    (hnew : n.outcomes id = none) (hout : id ∉ n.held who)
    (hst : st.mailOf = Function.update n.storage.mailOf who (n.storage.mailOf who ++ frame mail)) :
    Invariant { n with
      storage := st
      held := Function.update n.held who (n.held who ++ [id]) } := by
  have hmem : ∀ {other id'}, id' ∈ n.held other →
      id' ∈ Function.update n.held who (n.held who ++ [id]) other := by
    intro other id' hid'
    by_cases hother : other = who
    · subst hother
      rw [Function.update_self]
      exact List.mem_append_left _ hid'
    · rwa [Function.update_of_ne hother]
  have hcases : ∀ {other id'}, id' ∈ Function.update n.held who (n.held who ++ [id]) other →
      id' ∈ n.held other ∨ (id' = id ∧ other = who) := by
    intro other id' hid'
    by_cases hother : other = who
    · subst hother
      rw [Function.update_self] at hid'
      simpa using hid'
    · rw [Function.update_of_ne hother] at hid'
      exact .inl hid'
  constructor
  · intro other
    by_cases hother : other = who
    · subst hother
      simp [hst, hmail, h.holds other]
    · simp [hst, hother, h.holds other]
  · intro other
    by_cases hother : other = who
    · subst hother
      simp only [Function.update_self]
      exact (h.nodup other).append (List.nodup_singleton id) (List.disjoint_singleton.mpr hout)
    · simp [hother, h.nodup other]
  · intro other id' hid'
    rcases hcases hid' with hid' | ⟨rfl, rfl⟩
    · exact h.addressed other id' hid'
    · exact ⟨mail, hmail⟩
  · exact h.sent
  · intro id' forWho mail' hmail' houtcome
    exact (h.accepted id' forWho mail' hmail' houtcome).imp_right hmem
  · intro id' other houtcome hid'
    rcases hcases hid' with hid' | ⟨rfl, rfl⟩
    · exact h.direct id' other houtcome hid'
    · rw [hnew] at houtcome
      cases houtcome
  · intro id' s hpending
    obtain ⟨hnone, haddressed, hplace⟩ := h.waiting id' s hpending
    exact ⟨hnone, haddressed, hplace.imp_right hmem⟩

/-- The sending of a mail that no handler waits for has ended. -/
theorem settle (h : Invariant n) {mail : Bytes} {outcome : Except SendMailError Unit}
    (hmail : n.mails[id]? = some (who, mail)) (hdone : ∀ s, (id, s) ∉ n.pending)
    (hok : outcome = .ok () → id ∈ n.returned ∨ id ∈ n.held who)
    (hdirect : outcome = .error .sentDirectly → ∀ other, id ∉ n.held other) :
    Invariant { n with outcomes := Function.update n.outcomes id (some outcome) } := by
  have hlt := (List.getElem?_eq_some_iff.mp hmail).1
  constructor
  · exact h.holds
  · exact h.nodup
  · exact h.addressed
  · intro id' hid'
    change n.mails.length ≤ id' at hid'
    simp only [Function.update_of_ne (show id' ≠ id by omega)]
    exact h.sent id' hid'
  · intro id' forWho mail' hmail' houtcome
    by_cases hid : id' = id
    · subst hid
      change n.mails[id']? = _ at hmail'
      rw [hmail] at hmail'
      cases hmail'
      simp only [Function.update_self] at houtcome
      exact hok (Option.some_injective _ houtcome)
    · simp only [Function.update_of_ne hid] at houtcome
      exact h.accepted id' forWho mail' hmail' houtcome
  · intro id' other houtcome
    by_cases hid : id' = id
    · subst hid
      simp only [Function.update_self] at houtcome
      exact hdirect (Option.some_injective _ houtcome) other
    · simp only [Function.update_of_ne hid] at houtcome
      exact h.direct id' other houtcome
  · intro id' s hpending
    have hid : id' ≠ id := by
      rintro rfl
      exact hdone s hpending
    simp only [Function.update_of_ne hid]
    exact h.waiting id' s hpending

theorem wait (h : Invariant n) {s : SendMail} {mail : Bytes}
    (hmail : n.mails[id]? = some (s.forWho, mail)) (hnone : n.outcomes id = none)
    (hplace : id ∈ n.returned ∨ id ∈ n.held s.forWho) :
    Invariant { n with pending := n.pending ++ [(id, s)] } := by
  constructor
  · exact h.holds
  · exact h.nodup
  · exact h.addressed
  · exact h.sent
  · exact h.accepted
  · exact h.direct
  · intro id' s' hpending
    rcases List.mem_append.mp hpending with hpending | hpending
    · exact h.waiting id' s' hpending
    · cases List.mem_singleton.mp hpending
      exact ⟨hnone, ⟨mail, hmail⟩, hplace⟩

theorem withdraw (h : Invariant n) (id : ℕ) :
    Invariant { n with pending := n.pending.filter (·.1 ≠ id) } := by
  constructor
  · exact h.holds
  · exact h.nodup
  · exact h.addressed
  · exact h.sent
  · exact h.accepted
  · exact h.direct
  · intro id' s hpending
    exact h.waiting id' s (List.mem_of_mem_filter hpending)

theorem sameMail (h : Invariant n) (hst : st.mailOf = n.storage.mailOf) :
    Invariant { n with storage := st } := by
  constructor
  · intro other
    simp only [hst]
    exact h.holds other
  · exact h.nodup
  · exact h.addressed
  · exact h.sent
  · exact h.accepted
  · exact h.direct
  · exact h.waiting

/-- What the mailbox held was read or does not matter any more. -/
theorem clear (h : Invariant n) (returned : List ℕ)
    (hst : st.mailOf = Function.update n.storage.mailOf who []) (hsub : n.returned ⊆ returned)
    (hheld : ∀ id ∈ n.held who,
      id ∈ returned ∨ (n.outcomes id ≠ some (.ok ()) ∧ ∀ s, (id, s) ∉ n.pending)) :
    Invariant { n with
      storage := st
      held := Function.update n.held who []
      returned := returned } := by
  have hmem : ∀ {other id}, id ∈ Function.update n.held who [] other → id ∈ n.held other := by
    intro other id hid
    by_cases hother : other = who
    · subst hother
      rw [Function.update_self] at hid
      cases hid
    · rwa [Function.update_of_ne hother] at hid
  have hplace : ∀ {other id}, (n.outcomes id = some (.ok ()) ∨ ∃ s, (id, s) ∈ n.pending) →
      (id ∈ n.returned ∨ id ∈ n.held other) →
      id ∈ returned ∨ id ∈ Function.update n.held who [] other := by
    intro other id hmatters hid
    rcases hid with hid | hid
    · exact .inl (hsub hid)
    · by_cases hother : other = who
      · subst hother
        rcases hheld id hid with hid | ⟨hok, hpending⟩
        · exact .inl hid
        · rcases hmatters with hmatters | ⟨s, hs⟩
          · exact absurd hmatters hok
          · exact absurd hs (hpending s)
      · rw [Function.update_of_ne hother]
        exact .inr hid
  constructor
  · intro other
    by_cases hother : other = who
    · subst hother
      simp [hst]
    · simp [hst, hother, h.holds other]
  · intro other
    by_cases hother : other = who
    · subst hother
      simp
    · simp [hother, h.nodup other]
  · intro other id hid
    exact h.addressed other id (hmem hid)
  · exact h.sent
  · intro id forWho mail hmail houtcome
    exact hplace (.inl houtcome) (h.accepted id forWho mail hmail houtcome)
  · intro id other houtcome hid
    exact h.direct id other houtcome (hmem hid)
  · intro id s hpending
    obtain ⟨hnone, haddressed, hid⟩ := h.waiting id s hpending
    exact ⟨hnone, haddressed, hplace (.inr ⟨s, hpending⟩) hid⟩

theorem send [DecidableEq Peer] (h : Invariant n) (origin : RequestOrigin Peer) (forWho : Identity)
    (mail : Bytes) (notified : Bool) (requested : Option CallId) :
    Invariant (n.send origin forWho mail notified requested) := by
  have harrived := h.arrive (forWho, mail)
  have hmail : (n.mails ++ [(forWho, mail)])[n.mails.length]? = some (forWho, mail) :=
    List.getElem?_concat_length
  have hnew := h.sent _ le_rfl
  have hout : ∀ who, n.mails.length ∉ n.held who := fun who hmem => (h.lt_of_held hmem).false
  have hdone : ∀ s, (n.mails.length, s) ∉ n.pending := fun s hmem => (h.lt_of_pending hmem).false
  have hcases := execute_cases n.storage origin forWho mail notified requested
  unfold Node.send
  generalize SendMail.execute n.storage origin forWho mail notified requested = r at hcases
  obtain ⟨st, res⟩ := r
  simp only at hcases ⊢
  rcases hcases with ⟨rfl, e, rfl⟩ | ⟨hst, hres⟩
  · rw [if_pos rfl]
    refine harrived.settle hmail hdone ?_ fun _ => hout
    intro herror
    cases herror
  · have hgrown : st.mailOf forWho ≠ n.storage.mailOf forWho := by
      simp [hst, frame_ne_nil]
    rw [if_neg hgrown]
    have hpushed := harrived.push hmail hnew (hout forWho) hst
    have hheld : n.mails.length ∈
        Function.update n.held forWho (n.held forWho ++ [n.mails.length]) forWho := by
      simp
    rcases hres with rfl | ⟨dm, rfl⟩
    · refine hpushed.settle hmail hdone (fun _ => .inr hheld) ?_
      intro hok
      cases hok
    · exact hpushed.wait hmail hnew (.inr hheld)

theorem resume {n' : Node Peer} {event : Rpc.Event Peer} (h : Invariant n)
    (hown : n.ClearsOwn (.resume id event)) (hresume : n.resume id event = some n') :
    Invariant n' := by
  unfold Node.resume at hresume
  split at hresume
  · cases hresume
  · next id' s hfind =>
    obtain rfl : id' = id := by simpa using List.find?_some hfind
    obtain ⟨hnone, ⟨mail, hmail⟩, hplace⟩ := h.waiting id' s (List.mem_of_find?_eq_some hfind)
    have hwithdrawn := h.withdraw id'
    have hdone : ∀ t, (id', t) ∉ n.pending.filter (·.1 ≠ id') := by
      intro t hmem
      simpa using List.of_mem_filter hmem
    -- a mailbox that is empty afterwards and was not cleared held nothing
    have hsame : ∀ st : Storage Peer, st.mailOf = n.storage.mailOf →
        (if st.mailOf s.forWho = [] then Function.update n.held s.forWho [] else n.held) = n.held := by
      intro st hst
      split_ifs with hempty
      · rw [hst] at hempty
        rw [← h.held_nil hempty, Function.update_eq_self]
      · rfl
    have hcases := resume_cases s n.storage event
    generalize s.resume n.storage event = r at hcases hresume
    obtain ⟨st, res⟩ := r
    simp only at hcases hresume
    cases hresume
    rcases hcases with hstay | ⟨hst, rfl⟩ | ⟨⟨peer, reply, rfl, hdirect⟩, hst, rfl⟩
    · cases hstay
      rw [hsame _ rfl]
      exact hwithdrawn.wait hmail hnone hplace
    · rw [hsame _ hst]
      refine (hwithdrawn.sameMail hst).settle hmail hdone (fun _ => hplace) ?_
      intro hok
      cases hok
    · have hcleared : st.mailOf s.forWho = [] := by simp [hst]
      rw [if_pos hcleared]
      have hown : ∀ other ∈ n.held s.forWho, other = id' := hown s hfind rfl hdirect
      have hinv := hwithdrawn.clear n.returned hst (List.Subset.refl _) fun other hmem => by
        cases hown other hmem
        refine .inr ⟨?_, hdone⟩
        intro hok
        rw [hnone] at hok
        cases hok
      refine hinv.settle hmail hdone ?_ ?_
      · intro herror
        cases herror
      · intro _ other hmem
        by_cases hother : other = s.forWho
        · subst hother
          simp at hmem
        · simp only [Function.update_of_ne hother] at hmem
          obtain ⟨mail', hmail'⟩ := h.addressed other id' hmem
          rw [hmail] at hmail'
          cases hmail'
          exact hother rfl

theorem read {host : Host} {scheme : Verify} (h : Invariant n) (origin : RequestOrigin Peer)
    (request : Proof Unit) : Invariant (n.read host scheme origin request) := by
  have hcases := readMail_cases host scheme n.storage origin request
  unfold Node.read
  generalize readMail host scheme n.storage origin request = r at hcases
  obtain ⟨st, res⟩ := r
  rcases hcases with ⟨e, hrefused⟩ | ⟨hst, hres⟩
  · cases hrefused
    exact h
  · cases hres
    exact h.clear _ hst (List.subset_append_left _ _) fun id hid => .inl (List.mem_append_right _ hid)

theorem step [DecidableEq Peer] {host : Host} {scheme : Verify} {e : Event Peer} {n' : Node Peer}
    (h : Invariant n) (hown : n.ClearsOwn e) (hstep : Step host scheme n e n') : Invariant n' := by
  cases e with
  | send origin forWho mail notified requested =>
    cases hstep
    exact h.send origin forWho mail notified requested
  | resume id event => exact h.resume hown hstep
  | read origin request =>
    cases hstep
    exact h.read origin request

theorem keeps (h : Invariant n) {forWho : Identity} {mail : Bytes}
    (hmail : n.mails[id]? = some (forWho, mail)) : n.Keeps id forWho := by
  constructor
  · intro hok hreturned
    have hheld := (h.accepted id forWho mail hmail hok).resolve_left hreturned
    exact List.count_eq_one_of_mem (h.nodup forWho) hheld
  · intro hdirect
    exact h.direct id forWho hdirect

end Node.Invariant

/-- No mail is lost or kept twice while each mailbox that is cleared holds only
the mail that was delivered. -/
theorem mail_kept [DecidableEq Peer] {host : Host} {scheme : Verify} {start n : Node Peer}
    {es : List (Event Peer)} (hfresh : start.Fresh)
    (hrun : Run (guarded Node.ClearsOwn (Node.Step host scheme)) start es n) :
    n.Holds ∧ ∀ id forWho mail, n.mails[id]? = some (forWho, mail) → n.Keeps id forWho := by
  have hinv : n.Invariant := by
    apply hrun.stateInvariant (Node.Invariant.fresh hfresh)
    intro t e u ht hstep
    exact ht.step hstep.1 hstep.2
  refine ⟨hinv.holds, ?_⟩
  intro id forWho mail hmail
  exact hinv.keeps hmail

section Example

/-- A profile whose owner reads mail at another node. -/
def remote : Node Unit where
  storage := ⟨fun who => if who = .zero then some ⟨0, []⟩ else none, fun _ => some (.server ())⟩

theorem fresh_remote : remote.Fresh := by
  refine ⟨?_, rfl⟩
  intro who
  unfold Storage.mailOf remote
  simp only
  split_ifs
  · rfl
  · rfl

def sendOne (dm : CallId) (byte : UInt8) : Event Unit :=
  .send (.client 0) .zero [byte] false (some dm)

/-- The other node delivered the mail. -/
def delivered (id : ℕ) (dm : CallId) : Event Unit := .resume id (.response () dm (.ok [0, 1]))

/-- The other node was not reached. -/
def unreached (id : ℕ) (dm : CallId) : Event Unit := .resume id (.response () dm (.error .timeout))

def plainHost : Host := ⟨fun _ => .zero, false⟩

theorem mail_kept_delivered : ∃ n : Node Unit,
    Run (Node.Step plainHost fun _ _ _ => true) remote
      [sendOne 1 7, delivered 0 1, sendOne 2 8, unreached 1 2] n ∧
    n.outcomes 0 = some (.error .sentDirectly) ∧ n.outcomes 1 = some (.ok ()) ∧ n.Holds ∧
    n.Keeps 0 .zero ∧ n.Keeps 1 .zero := by
  let Guarded : Node Unit → Event Unit → Node Unit → Prop :=
    guarded Node.ClearsOwn (Node.Step plainHost fun _ _ _ => true)
  have hsent : Run Guarded remote [sendOne 1 7] _ := .single ⟨trivial, rfl⟩
  have hdelivered := hsent.next (delivered 0 1) ⟨by
    intro h hfind hcall hdirect other hother
    have hpending : some (0, (⟨1, .zero⟩ : SendMail)) = some (0, h) := hfind
    cases hpending
    exact List.mem_singleton.mp hother, rfl⟩
  have hagain := hdelivered.next (sendOne 2 8) ⟨trivial, rfl⟩
  have hrun := hagain.next (unreached 1 2) ⟨trivial, rfl⟩
  obtain ⟨hholds, hkeeps⟩ := mail_kept fresh_remote hrun
  exact ⟨_, hrun.unguard, rfl, rfl, hholds, hkeeps 0 .zero [7] rfl, hkeeps 1 .zero [8] rfl⟩

/-- The second mail was accepted before the first one was delivered. -/
theorem mail_lost : ∃ n : Node Unit,
    Run (Node.Step plainHost fun _ _ _ => true) remote
      [sendOne 1 7, sendOne 2 8, unreached 1 2, delivered 0 1] n ∧
    n.mails[1]? = some (.zero, [8]) ∧ n.outcomes 1 = some (.ok ()) ∧ 1 ∉ n.returned ∧
    n.storage.mailOf .zero = [] ∧ ¬n.Keeps 1 .zero := by
  refine ⟨_, Run.of_foldlM rfl, rfl, rfl, List.not_mem_nil, rfl, ?_⟩
  rintro ⟨hkept, -⟩
  cases hkept rfl List.not_mem_nil

end Example

end OrionNetwork.Mailbox
