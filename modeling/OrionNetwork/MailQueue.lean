import OrionNetwork.PacketReader
import OrionNetwork.ProfileRestore

/-!
# What a mailbox holds

A mailbox is a queue of packets that is read as a whole. The first part is the
queue: what was pushed and not yet read comes out of a read, once and in order. The
second part is its limit. The limit is checked against the mail alone, and the length
that is written in front of the mail is not counted.
-/
namespace OrionNetwork.MailQueue
open Codec BlockHash ChatReplica Protocols Runs
open Proofs (Proof Verify)
open Mailbox (RequestOrigin SendMail mailBoxCap frame)
open Packets (framed takeFrame)
open Packets.PacketReader (takeFrame_framed)
open Rpc (CallId)

section Queue

/-- The rounds of the iterator until it ends. -/
def unpackLoop : ℕ → Bytes → List Bytes
  | 0, _ => []
  | fuel + 1, buffer =>
    match takeFrame buffer with
    | none => []
    | some (mail, rest) => mail :: unpackLoop fuel rest

/-- Every round takes a length at least. -/
def unpackMail (buffer : Bytes) : List Bytes := unpackLoop buffer.length buffer

/-- The calls that a mailbox sees. -/
inductive Op where
  | push (mail : Bytes)
  | read

def Op.pushed : Op → List Bytes
  | .push mail => [mail]
  | .read => []

/-- The mailbox after the calls and what the reads returned. -/
def exchange (p : Mailbox.Profile) : List Op → Mailbox.Profile × List Bytes
  | [] => (p, [])
  | .push mail :: ops => exchange (p.pushMail mail) ops
  | .read :: ops =>
    let (p, content) := p.readMail
    let (p, contents) := exchange p ops
    (p, content :: contents)

/-- The mails between one read and the next, after these were pushed. -/
def segments (waiting : List Bytes) : List Op → List (List Bytes)
  | [] => []
  | .push mail :: ops => segments (waiting ++ [mail]) ops
  | .read :: ops => waiting :: segments [] ops

variable {mails : List Bytes} {p : Mailbox.Profile}

theorem unpackLoop_framed (h : ∀ mail ∈ mails, mail.length ≤ 65535) {fuel : ℕ}
    (hfuel : mails.length ≤ fuel) : unpackLoop fuel (mails.flatMap framed) = mails := by
  induction mails generalizing fuel with
  | nil =>
    cases fuel with
    | zero => rfl
    | succ fuel => rfl
  | cons mail mails ih =>
    cases fuel with
    | zero => exact absurd hfuel (by simp)
    | succ fuel =>
      have hmail := h mail (List.mem_cons_self ..)
      have hrest := ih (fun m hm => h m (List.mem_cons_of_mem _ hm)) (Nat.le_of_succ_le_succ hfuel)
      rw [List.flatMap_cons, unpackLoop, takeFrame_framed hmail]
      simp only [hrest]

theorem length_le_flatMap_framed (mails : List Bytes) :
    mails.length ≤ (mails.flatMap framed).length := by
  induction mails with
  | nil => exact le_refl _
  | cons mail mails ih =>
    have hframed : (framed mail).length = 2 + mail.length := List.length_append
    rw [List.flatMap_cons, List.length_append, List.length_cons]
    omega

/-- The two programs agree about what a mailbox holds. -/
theorem unpackMail_framed (h : ∀ mail ∈ mails, mail.length ≤ 65535) :
    unpackMail (mails.flatMap framed) = mails :=
  unpackLoop_framed h (length_le_flatMap_framed mails)

theorem mail_pushMail (h : p.mail = mails.flatMap framed) (mail : Bytes) :
    (p.pushMail mail).mail = (mails ++ [mail]).flatMap framed := by
  rw [List.flatMap_append, ← h, List.flatMap_singleton]
  rfl

theorem mail_foldl_pushMail (h : p.mail = []) (mails : List Bytes) :
    (mails.foldl Mailbox.Profile.pushMail p).mail = mails.flatMap framed := by
  induction mails using List.reverseRecOn with
  | nil => exact h
  | append_singleton mails mail ih =>
    rw [List.foldl_append]
    exact mail_pushMail ih mail

/-- The reads return the segments, and the mailbox keeps what was pushed since. -/
theorem exchange_spec (ops : List Op) (waiting : List Bytes)
    (hmail : p.mail = waiting.flatMap framed)
    (h : ∀ mail ∈ waiting ++ ops.flatMap Op.pushed, mail.length ≤ 65535) :
    (exchange p ops).2.map unpackMail = segments waiting ops ∧
      ∃ later, (exchange p ops).1.mail = later.flatMap framed ∧
        (segments waiting ops).flatten ++ later = waiting ++ ops.flatMap Op.pushed := by
  induction ops generalizing p waiting with
  | nil => exact ⟨rfl, waiting, hmail, by simp [segments]⟩
  | cons op ops ih =>
    rw [List.flatMap_cons] at h ⊢
    cases op with
    | push mail =>
      rw [Op.pushed, ← List.append_assoc] at h ⊢
      exact ih (waiting ++ [mail]) (mail_pushMail hmail mail) h
    | read =>
      rw [Op.pushed, List.nil_append] at h ⊢
      have hrest : ∀ mail ∈ [] ++ ops.flatMap Op.pushed, mail.length ≤ 65535 :=
        fun mail hmem => h mail (List.mem_append_right _ hmem)
      obtain ⟨hreads, later, hlater, hall⟩ := ih (p := p.readMail.1) [] rfl hrest
      refine ⟨?_, later, hlater, ?_⟩
      · have hfirst : unpackMail p.mail = waiting := by
          rw [hmail]
          exact unpackMail_framed fun mail hmem => h mail (List.mem_append_left _ hmem)
        change unpackMail p.mail :: (exchange p.readMail.1 ops).2.map unpackMail = _
        rw [hfirst, hreads, segments]
      · rw [segments, List.flatten_cons, List.append_assoc, hall, List.nil_append]

theorem exchange_read (p : Mailbox.Profile) (ops : List Op) :
    (exchange p (ops ++ [.read])).1.mail = [] := by
  induction ops generalizing p with
  | nil => rfl
  | cons op ops ih =>
    cases op with
    | push mail => exact ih (p.pushMail mail)
    | read => exact ih p.readMail.1

/-- A mailbox that starts empty gives back the mails that were pushed, in their order and
once each, wherever it is read in between, and is empty afterwards. -/
theorem mailbox_queue (hmails : ∀ mail ∈ mails, mail.length ≤ 65535) (hempty : p.mail = []) :
    (unpackMail (mails.foldl Mailbox.Profile.pushMail p).readMail.2 = mails ∧
      (mails.foldl Mailbox.Profile.pushMail p).readMail.1.mail = []) ∧
    ∀ ops : List Op, ops.flatMap Op.pushed = mails →
      let r := exchange p (ops ++ [.read])
      r.2.map unpackMail = segments [] (ops ++ [.read]) ∧
        (segments [] (ops ++ [.read])).flatten = mails ∧ r.1.mail = [] := by
  refine ⟨⟨?_, rfl⟩, ?_⟩
  · change unpackMail (mails.foldl Mailbox.Profile.pushMail p).mail = mails
    rw [mail_foldl_pushMail hempty, unpackMail_framed hmails]
  · intro ops hops
    have hpushed : (ops ++ [Op.read]).flatMap Op.pushed = mails := by
      rw [List.flatMap_append, hops, List.flatMap_singleton, Op.pushed, List.append_nil]
    have hlast := exchange_read p ops
    obtain ⟨hreads, later, hlater, hall⟩ := exchange_spec (p := p) (ops ++ [Op.read]) []
      hempty (by rw [hpushed]; exact hmails)
    rw [hlast] at hlater
    have hnone : later = [] := by
      cases later with
      | nil => rfl
      | cons mail later => exact absurd hlater (by simp [framed, encodeLen])
    rw [hpushed, hnone, List.append_nil] at hall
    exact ⟨hreads, hall, hlast⟩

/-- Two mails, one of them empty, with a read between them. -/
theorem mailbox_queue_two :
    (unpackMail (([[7, 8], []] : List Bytes).foldl Mailbox.Profile.pushMail ⟨0, []⟩).readMail.2 =
        [[7, 8], []] ∧
      (([[7, 8], []] : List Bytes).foldl Mailbox.Profile.pushMail ⟨0, []⟩).readMail.1.mail = []) ∧
    (exchange ⟨0, []⟩ [.push [7, 8], .read, .push [], .read]).2.map unpackMail =
      [[[7, 8]], [[]]] := by
  have hshort : ∀ mail ∈ ([[7, 8], []] : List Bytes), mail.length ≤ 65535 := by decide
  have hqueue := mailbox_queue (p := ⟨0, []⟩) hshort rfl
  exact ⟨hqueue.1, (hqueue.2 [.push [7, 8], .read, .push []] rfl).1⟩

end Queue

section Limit

open ProfileStore (Storage createProfile)

variable {Peer : Type}

inductive Event (Peer : Type) where
  | createProfile (proof : Proof Bytes) (enc : Bytes)
  | send (origin : RequestOrigin Peer) (forWho : Identity) (mail : Bytes) (notified : Bool)
      (requested : Option CallId)
  | resume (i : ℕ) (event : Rpc.Event Peer)
  | read (origin : RequestOrigin Peer) (request : Proof Unit)

/-- The profiles and the handlers that have not returned. -/
structure Node (Peer : Type) where
  storage : Storage Peer := {}
  pending : List SendMail := []

namespace Node

/-- A handler that has to wait is kept. -/
def settle (n : Node Peer) (m : Mailbox.Storage Peer) :
    Replicated.HandlerResult SendMail Unit SendMailError → Node Peer
  | .ok _ => { n with storage := n.storage.withMailboxes m }
  | .error h => ⟨n.storage.withMailboxes m, n.pending ++ [h]⟩

def handle [DecidableEq Peer] (host : Host) (scheme : Verify) (n : Node Peer) :
    Event Peer → Option (Node Peer)
  | .createProfile proof enc =>
    some { n with storage := (createProfile host scheme n.storage proof enc).1 }
  | .send origin forWho mail notified requested =>
    let (m, r) := SendMail.execute n.storage.mailboxes origin forWho mail notified requested
    some (n.settle m r)
  | .resume i event =>
    match n.pending[i]? with
    | none => none
    | some h =>
      let (m, r) := h.resume n.storage.mailboxes event
      some ({ n with pending := n.pending.eraseIdx i }.settle m r)
  | .read origin request =>
    let (m, _) := Mailbox.readMail host scheme n.storage.mailboxes origin request
    some { n with storage := n.storage.withMailboxes m }

def Step [DecidableEq Peer] (host : Host) (scheme : Verify) (n : Node Peer) (e : Event Peer)
    (n' : Node Peer) : Prop :=
  n.handle host scheme e = some n'

/-- No mailbox is longer than its limit. -/
def Limited (n : Node Peer) : Prop :=
  ∀ who p, n.storage.profiles who = some p → p.mail.length ≤ mailBoxCap

/-- A mail that is put into a mailbox does not leave one byte of it. -/
def LeavesRoom (n : Node Peer) : Event Peer → Prop
  | .send origin forWho mail notified _ =>
    ∀ p, n.storage.profiles forWho = some p →
      ¬Mailbox.Taken n.storage.mailboxes origin forWho notified →
      p.mail.length + mail.length + 1 ≠ mailBoxCap
  | .createProfile _ _ | .resume _ _ | .read _ _ => True

end Node

variable {host : Host} {scheme : Verify} {n n' : Node Peer} {st : Storage Peer}

theorem mailOf_mailboxes {who : Identity} {p : ProfileStore.Profile}
    (h : st.profiles who = some p) : st.mailboxes.mailOf who = p.mail :=
  Mailbox.mailOf_eq (ProfileRestore.mailboxes_some h)

theorem mail_withMailboxes {m : Mailbox.Storage Peer} {who : Identity} {p : ProfileStore.Profile}
    (h : (st.withMailboxes m).profiles who = some p) : m.mailOf who = p.mail := by
  obtain ⟨p₀, -, hmail⟩ := Option.bind_eq_some_iff.mp h
  obtain ⟨q, hq, rfl⟩ := Option.map_eq_some_iff.mp hmail
  exact Mailbox.mailOf_eq hq

@[simp] theorem storage_settle (m : Mailbox.Storage Peer)
    (r : Replicated.HandlerResult SendMail Unit SendMailError) :
    (n.settle m r).storage = n.storage.withMailboxes m := by
  cases r with
  | ok answer => rfl
  | error h => rfl

theorem Node.Limited.mailOf (h : n.Limited) (who : Identity) :
    (n.storage.mailboxes.mailOf who).length ≤ mailBoxCap := by
  cases hp : n.storage.profiles who with
  | none => simp [Mailbox.Storage.mailOf, Storage.mailboxes, hp]
  | some p =>
    rw [mailOf_mailboxes hp]
    exact h who p hp

theorem limited_withMailboxes {m : Mailbox.Storage Peer}
    (h : ∀ who, (m.mailOf who).length ≤ mailBoxCap)
    (hstorage : n'.storage = n.storage.withMailboxes m) : n'.Limited := by
  intro who p hp
  rw [hstorage] at hp
  rw [← mail_withMailboxes hp]
  exact h who

/-- A mailbox that is cleared is within the limit. -/
theorem length_update_nil {mails : Identity → Bytes} (h : ∀ who, (mails who).length ≤ mailBoxCap)
    (cleared who : Identity) : (Function.update mails cleared [] who).length ≤ mailBoxCap := by
  by_cases hwho : who = cleared
  · rw [hwho, Function.update_self]
    exact Nat.zero_le _
  · rw [Function.update_of_ne hwho]
    exact h who

theorem length_mail_pushMail (q : Mailbox.Profile) (mail : Bytes) :
    (q.pushMail mail).mail.length = q.mail.length + mail.length + 2 := by
  rw [Mailbox.Profile.pushMail, frame, List.length_append, List.length_append]
  change q.mail.length + (2 + mail.length) = _
  omega

theorem limited_createProfile (h : n.Limited) (proof : Proof Bytes) (enc : Bytes) :
    Node.Limited { n with storage := (createProfile host scheme n.storage proof enc).1 } := by
  have hcases := @ProfileStore.createProfile_cases Peer host scheme n.storage proof enc
  rcases hcases with hsame | ⟨-, ⟨-, hnew⟩ | ⟨account, haccount, -, hupdated⟩⟩
  · intro who p hp
    rw [hsame] at hp
    exact h who p hp
  · intro who p hp
    rw [hnew] at hp
    rcases ProfileStore.profiles_insertProfile hp with ⟨-, rfl⟩ | hp
    · exact Nat.zero_le _
    · exact h who p hp
  · intro who p hp
    rw [hupdated] at hp
    rcases ProfileStore.profiles_insertProfile hp with ⟨-, rfl⟩ | hp
    · exact h _ account haccount
    · exact h who p hp

theorem limited_resume (h : n.Limited) (handler : SendMail) (event : Rpc.Event Peer)
    (who : Identity) :
    ((handler.resume n.storage.mailboxes event).1.mailOf who).length ≤ mailBoxCap := by
  rcases Mailbox.resume_cases handler n.storage.mailboxes event with
    hsame | ⟨hsame, -⟩ | ⟨-, hcleared, -⟩
  · rw [hsame]
    exact h.mailOf who
  · rw [hsame]
    exact h.mailOf who
  · rw [hcleared]
    exact length_update_nil h.mailOf handler.forWho who

theorem limited_readMail (h : n.Limited) (origin : RequestOrigin Peer) (request : Proof Unit)
    (who : Identity) :
    ((Mailbox.readMail host scheme n.storage.mailboxes origin request).1.mailOf who).length ≤
      mailBoxCap := by
  rcases Mailbox.readMail_cases host scheme n.storage.mailboxes origin request with
    ⟨_, hsame⟩ | ⟨hread, -⟩
  · rw [hsame]
    exact h.mailOf who
  · rw [hread]
    exact length_update_nil h.mailOf _ who

section Steps

variable [DecidableEq Peer]

theorem limited_send (h : n.Limited) {origin : RequestOrigin Peer} {forWho : Identity}
    {mail : Bytes} {notified : Bool} {requested : Option CallId}
    (hok : n.LeavesRoom (.send origin forWho mail notified requested)) (who : Identity) :
    ((SendMail.execute n.storage.mailboxes origin forWho mail notified requested).1.mailOf
      who).length ≤ mailBoxCap := by
  rcases Mailbox.execute_profiles n.storage.mailboxes origin forWho mail notified requested with
    ⟨hsame, -, -⟩ | ⟨q, hq, hfits, hfree, hprofiles, -⟩
  · rw [hsame]
    exact h.mailOf who
  · obtain ⟨p, hp, rfl⟩ := Option.map_eq_some_iff.mp hq
    rw [Mailbox.mailOf_of_profiles hprofiles]
    by_cases hwho : who = forWho
    · have hroom := hok p hp hfree
      rw [hwho, Function.update_self, length_mail_pushMail]
      omega
    · rw [Function.update_of_ne hwho]
      exact h.mailOf who

theorem Node.Limited.step (h : n.Limited) {e : Event Peer} (hok : n.LeavesRoom e)
    (hstep : Node.Step host scheme n e n') : n'.Limited := by
  cases e with
  | createProfile proof enc =>
    cases hstep
    exact limited_createProfile h proof enc
  | send origin forWho mail notified requested =>
    cases hstep
    exact limited_withMailboxes (limited_send h hok) (storage_settle _ _)
  | resume i event =>
    rw [Node.Step, Node.handle] at hstep
    cases hpending : n.pending[i]? with
    | none =>
      rw [hpending] at hstep
      cases hstep
    | some handler =>
      rw [hpending] at hstep
      cases hstep
      exact limited_withMailboxes (limited_resume h handler event) (storage_settle _ _)
  | read origin request =>
    cases hstep
    exact limited_withMailboxes (limited_readMail h origin request) rfl

theorem leavesRoom_of_limited {e : Event Peer} (hstep : Node.Step host scheme n e n')
    (h' : n'.Limited) : n.LeavesRoom e := by
  cases e with
  | createProfile proof enc => trivial
  | resume i event => trivial
  | read origin request => trivial
  | send origin forWho mail notified requested =>
    intro p hp hfree hlength
    cases hstep
    have hq := ProfileRestore.mailboxes_some hp
    rcases Mailbox.execute_profiles n.storage.mailboxes origin forWho mail notified requested with
      ⟨-, -, hrefused⟩ | ⟨q, hq', -, -, hprofiles, -⟩
    · exact hfree (hrefused _ hq (by omega))
    · cases hq.symm.trans hq'
      have hstored : (n.storage.withMailboxes (SendMail.execute n.storage.mailboxes origin forWho
          mail notified requested).1).profiles forWho =
            some { p with toProfile := p.toProfile.pushMail mail } := by
        simp only [Storage.withMailboxes, hp, hprofiles, Function.update_self, Option.bind_some,
          Option.map_some]
      have hlimit := h' forWho _ (by rw [storage_settle]; exact hstored)
      have hpushed := length_mail_pushMail p.toProfile mail
      change (p.toProfile.pushMail mail).mail.length ≤ _ at hlimit
      omega

/-- Every mailbox stays within its limit throughout a run exactly if no mail that is put
into a mailbox leaves one byte of it. -/
theorem mailboxes_limited_iff {es : List (Event Peer)} (h : Run (Node.Step host scheme) {} es n) :
    (∀ es' n', es' <+: es → Run (Node.Step host scheme) {} es' n' → n'.Limited) ↔
      Run (guarded Node.LeavesRoom (Node.Step host scheme)) {} es n := by
  refine Run.forall_iff_guarded ?_ ?_ (fun _ ht => ht) ?_ ?_ h
  · intro s e t u ht hu
    exact Option.some_injective _ (ht.symm.trans hu)
  · intro who p hp
    cases hp
  · intro t e u ht hok hstep
    exact ht.step hok hstep
  · intro t e u _ hstep hu
    exact leavesRoom_of_limited hstep hu

end Steps

section Sample

open ProfileStore (sampleHost sampleVerify sampleIdentity sampleKey sampleSignature sampleEnc
  sampleProof verify_sampleKey blake3_sampleKey)

/-- A client sends so many bytes to an owner who is not online. -/
def sampleSend (length : ℕ) : Event Unit :=
  .send (.client 0) sampleIdentity (List.replicate length 0) false none

/-- The owner is not online and the mailbox has this length. -/
def Stores (n : Node Unit) (length : ℕ) : Prop :=
  n.storage.online sampleIdentity = none ∧
    ∃ p, n.storage.profiles sampleIdentity = some p ∧ p.mail.length = length

theorem stores_send {n : Node Unit} {stored length : ℕ} (h : Stores n stored)
    (hfits : stored + length < mailBoxCap) :
    ∃ n', Node.Step sampleHost sampleVerify n (sampleSend length) n' ∧
      Stores n' (stored + (length + 2)) := by
  obtain ⟨honline, p, hp, rfl⟩ := h
  have hq := ProfileRestore.mailboxes_some hp
  have hexecute : SendMail.execute n.storage.mailboxes (.client 0) sampleIdentity
      (List.replicate length 0) false none =
        (n.storage.mailboxes.insertProfile sampleIdentity
          (p.toProfile.pushMail (List.replicate length 0)), .ok (.ok ())) := by
    have honline' : n.storage.mailboxes.online sampleIdentity = none := honline
    have hfits' : p.mail.length + (List.replicate length (0 : UInt8)).length < mailBoxCap := by
      rwa [List.length_replicate]
    rw [SendMail.execute, hq]
    simp only
    rw [if_neg (not_not.mpr hfits'), honline']
  let q := p.toProfile.pushMail (List.replicate length 0)
  refine ⟨{ n with storage :=
    n.storage.withMailboxes (n.storage.mailboxes.insertProfile sampleIdentity q) }, ?_, ?_⟩
  · rw [Node.Step, sampleSend, Node.handle, hexecute]
    rfl
  refine ⟨honline, { p with toProfile := q }, ?_, ?_⟩
  · simp only [Storage.withMailboxes, Mailbox.Storage.insertProfile, hp, Function.update_self,
      Option.bind_some, Option.map_some]
  · have hpushed := length_mail_pushMail p.toProfile (List.replicate length 0)
    rw [List.length_replicate] at hpushed
    change q.mail.length = _
    omega

theorem run_sends {lengths : List ℕ} {n : Node Unit} {stored : ℕ} (h : Stores n stored)
    (hfits : stored + (lengths.map (· + 2)).sum ≤ mailBoxCap + 1) :
    ∃ n', Run (Node.Step sampleHost sampleVerify) n (lengths.map sampleSend) n' ∧
      Stores n' (stored + (lengths.map (· + 2)).sum) := by
  induction lengths generalizing n stored with
  | nil => exact ⟨n, .start, h⟩
  | cons length lengths ih =>
    rw [List.map_cons, List.sum_cons, ← Nat.add_assoc] at hfits
    have hnext : stored + length < mailBoxCap := by omega
    obtain ⟨n₁, hstep, hstores⟩ := stores_send h hnext
    obtain ⟨n₂, hrun, hstores₂⟩ := ih hstores hfits
    rw [List.map_cons, List.map_cons, List.sum_cons, ← Nat.add_assoc]
    exact ⟨n₂, (Run.single hstep).append hrun, hstores₂⟩

/-- The owner creates the profile. -/
def sampleCreate : Event Unit := .createProfile (sampleProof 1 []) sampleEnc

theorem step_sampleCreate :
    ∃ n, Node.Step sampleHost sampleVerify {} sampleCreate n ∧ Stores n 0 := by
  let p : ProfileStore.Profile := ⟨⟨1, []⟩, sampleKey, sampleEnc, sampleSignature, 1, []⟩
  have hcreate : (createProfile sampleHost sampleVerify {} (sampleProof 1 []) sampleEnc).1 =
      ({} : Storage Unit).insertProfile sampleIdentity p := by
    simp only [createProfile, sampleProof, verify_sampleKey, blake3_sampleKey, Bool.not_true,
      Bool.false_eq_true, if_false]
    rfl
  refine ⟨⟨_, []⟩, congrArg some (congrArg (Node.mk · []) hcreate), rfl, p, ?_, rfl⟩
  simp only [Storage.insertProfile, Function.update_self]

/-- A mailbox that starts with a profile and takes mails of these lengths. -/
theorem run_sampleSends {lengths : List ℕ} (hfits : (lengths.map (· + 2)).sum ≤ mailBoxCap + 1) :
    ∃ n, Run (Node.Step sampleHost sampleVerify) {} (sampleCreate :: lengths.map sampleSend) n ∧
      Stores n (lengths.map (· + 2)).sum := by
  obtain ⟨n₁, hcreate, hstores⟩ := step_sampleCreate
  rw [← Nat.zero_add (lengths.map (· + 2)).sum] at hfits ⊢
  obtain ⟨n₂, hrun, hstores₂⟩ := run_sends hstores hfits
  exact ⟨n₂, (Run.single hcreate).append hrun, hstores₂⟩

theorem mailboxes_limited_iff_three :
    ∃ n, Run (Node.Step sampleHost sampleVerify) {} [sampleCreate, sampleSend 3] n ∧
      Stores n 5 ∧ n.Limited := by
  obtain ⟨n₁, hcreate, hstores⟩ := step_sampleCreate
  have hfits : 0 + 3 < mailBoxCap := by decide
  obtain ⟨n₂, hsend, hstores₂⟩ := stores_send hstores hfits
  have hroom : n₁.LeavesRoom (sampleSend 3) := by
    intro p hp _ hlength
    obtain ⟨-, p', hp', hempty⟩ := hstores
    cases hp.symm.trans hp'
    rw [hempty, List.length_replicate] at hlength
    exact absurd hlength (by decide)
  have hrun := (Run.single hcreate).append (Run.single hsend)
  have hguarded : Run (guarded Node.LeavesRoom (Node.Step sampleHost sampleVerify)) {}
      ([sampleCreate] ++ [sampleSend 3]) n₂ :=
    (Run.single ⟨trivial, hcreate⟩).append (Run.single ⟨hroom, hsend⟩)
  exact ⟨n₂, hrun, hstores₂, (mailboxes_limited_iff hrun).mpr hguarded _ _ List.prefix_rfl hrun⟩

/-- Sixteen mails of 65000 bytes each and one of 8543 bytes are one byte too many. -/
theorem mailbox_exceeds_limit :
    ∃ n, Run (Node.Step sampleHost sampleVerify) {}
        (sampleCreate :: (List.replicate 16 65000 ++ [8543]).map sampleSend) n ∧
      (∃ p, n.storage.profiles sampleIdentity = some p ∧ p.mail.length = mailBoxCap + 1) ∧
      ¬n.Limited := by
  have hsum : ((List.replicate 16 65000 ++ [8543]).map (· + 2)).sum = mailBoxCap + 1 := by
    decide
  obtain ⟨n, hrun, -, p, hp, hlength⟩ := run_sampleSends hsum.le
  rw [hsum] at hlength
  refine ⟨n, hrun, ⟨p, hp, hlength⟩, ?_⟩
  intro hlimited
  have hle := hlimited sampleIdentity p hp
  omega

end Sample

end Limit

end OrionNetwork.MailQueue
