import OrionNetwork.Proofs
import OrionNetwork.Replicated
import OrionNetwork.Protocols

/-!
# Chat actions of the client

An action is sent with a proof that uses up the action number the client has for
the chat. When the server answers with the number it has, the client takes the one
after it and sends the action once more. While a request is under way the rest of
the client goes on, so the state at the answer is not the one that was left. The
requests that were sent are kept in order.
-/
namespace OrionNetwork.ChatDispatch
open Codec BlockHash ChatReplica Proofs Collections Replicated Protocols

structure UserKeys where
  pk : Bytes
  sign : Bytes → Bytes

structure ChatMeta where
  secret : Bytes
  actionNo : Nonce

/-- What is needed of the client: its keys, and the chats of its vault. -/
structure State where
  keys : Option UserKeys
  chats : LinearMap ChatName ChatMeta

abbrev Answer := Except (RequestError (ReplError ChatActionError)) Unit

inductive DispatchError where
  | extractingChatProof
  | request (e : RequestError (ReplError ChatActionError))

/-- The state when the last proof has been made, all requests and the result. -/
structure Outcome where
  state : State
  sent : List (Proof ChatName × ChatAction)
  result : Except DispatchError Unit

def add (host : Host) (a b : Nonce) : Except Panic Nonce :=
  if host.overflowChecks = true ∧ 2 ^ 64 ≤ a.toNat + b.toNat then .error .overflow else .ok (a + b)

/-- `Proof::new`, with the nonce after it. -/
def newProof (host : Host) (kp : UserKeys) (nonce : Nonce) (context : ChatName) :
    Except Panic (Proof ChatName × Nonce) := do
  let signature := kp.sign (packPayload nonce (toProofContext host (.chatName context)))
  let nonce ← add host nonce 1
  return (⟨kp.pk, nonce - 1, signature, context⟩, nonce)

def nextChatProof (host : Host) (state : State) (chatName : ChatName) (nonce : Option Nonce) :
    Except Panic (Option (Proof ChatName) × State) :=
  match state.keys with
  | none => .ok (none, state)
  | some keys =>
    match state.chats.get chatName with
    | none => .ok (none, state)
    | some chat => do
      let actionNo ← nonce.elim (.ok chat.actionNo) fun n => add host n 1
      let (proof, actionNo) ← newProof host keys actionNo chatName
      return (some proof,
        { state with chats := state.chats.insert chatName { chat with actionNo := actionNo } })

/-- `later` is the state when the first answer is there. -/
def dispatchChatAction (host : Host) (state later : State) (chat : ChatName) (action : ChatAction)
    (first second : Answer) : Except Panic Outcome := do
  match ← nextChatProof host state chat none with
  | (none, state) => return ⟨state, [], .error .extractingChatProof⟩
  | (some proof, state) =>
    match first with
    | .error (.handler (.inner (.invalidAction correctNonce))) =>
      match ← nextChatProof host later chat (some correctNonce) with
      | (none, state) => return ⟨state, [(proof, action)], .error .extractingChatProof⟩
      | (some retried, state) =>
        return ⟨state, [(proof, action), (retried, action)], second.mapError .request⟩
    | _ => return ⟨state, [(proof, action)], .ok ()⟩

/-- The client has keys and the chat. -/
def Ready (state : State) (chat : ChatName) (entry : ChatMeta) : Prop :=
  state.keys ≠ none ∧ state.chats.get chat = some entry

/-- The server has accepted one of the requests that were sent. -/
def Outcome.Accepted (o : Outcome) (first second : Answer) : Prop :=
  o.sent.length = 1 ∧ first = .ok () ∨ o.sent.length = 2 ∧ second = .ok ()

/-- What should be said of the two requests. -/
structure Outcome.Reports (o : Outcome) (later : State) (chat : ChatName)
    (first second : Answer) : Prop where
  result : o.result = .ok () ↔ o.Accepted first second
  retries : ∀ n, first = .error (.handler (.inner (.invalidAction n))) → o.sent ≠ [] →
    (∃ entry, Ready later chat entry) → ∃ once again, o.sent = [once, again] ∧
      again.1.nonce.toNat = n.toNat + 1 ∧ again.2 = once.2 ∧
      ∃ entry, o.state.chats.get chat = some entry ∧ entry.actionNo.toNat = n.toNat + 2

section Proofs

variable {host : Host} {state : State} {chat : ChatName} {entry : ChatMeta} {n : Nonce}

theorem nextChatProof_not_ready (nonce : Option Nonce) (h : ∀ entry, ¬Ready state chat entry) :
    nextChatProof host state chat nonce = .ok (none, state) := by
  unfold nextChatProof
  cases hkeys : state.keys with
  | none => rfl
  | some keys =>
    cases hget : state.chats.get chat with
    | none => rfl
    | some entry => exact absurd ⟨by simp [hkeys], hget⟩ (h entry)

theorem add_one (host : Host) (n : Nonce) :
    add host n 1 = if host.overflowChecks = true ∧ 2 ^ 64 ≤ n.toNat + 1 then .error .overflow
      else .ok (n + 1) := rfl

theorem toNat_add_one (h : n.toNat + 1 < 2 ^ 64) : (n + 1).toNat = n.toNat + 1 := by
  have hone : (1 : Nonce).toNat = 1 := rfl
  rw [UInt64.toNat_add, hone, Nat.mod_eq_of_lt h]

/-- The proof carries the nonce that it uses up. -/
theorem newProof_eq (host : Host) (kp : UserKeys) (nonce : Nonce) (context : ChatName) :
    newProof host kp nonce context =
      if host.overflowChecks = true ∧ 2 ^ 64 ≤ nonce.toNat + 1 then .error .overflow
      else .ok (⟨kp.pk, nonce, kp.sign (packPayload nonce (toProofContext host (.chatName context))),
        context⟩, nonce + 1) := by
  have hback : nonce + 1 - 1 = nonce := UInt64.add_sub_cancel nonce 1
  unfold newProof
  rw [add_one]
  split_ifs with hover
  · rfl
  · simp only [bind, Except.bind, pure, Except.pure, hback]

/-- With the number that the chat has, or the one after the number of the server. -/
theorem nextChatProof_ready (h : Ready state chat entry) (nonce : Option Nonce) :
    (host.overflowChecks = true ∧ 2 ^ 64 ≤ nonce.elim entry.actionNo.toNat (·.toNat + 1) + 1 →
      nextChatProof host state chat nonce = .error .overflow) ∧
    (¬(host.overflowChecks = true ∧ 2 ^ 64 ≤ nonce.elim entry.actionNo.toNat (·.toNat + 1) + 1) →
      ∃ proof after, nextChatProof host state chat nonce = .ok (some proof, after) ∧
        proof.nonce = nonce.elim entry.actionNo (· + 1) ∧
        after.chats.get chat = some { entry with actionNo := proof.nonce + 1 }) := by
  obtain ⟨hkeys, hget⟩ := h
  obtain ⟨keys, hkeys⟩ := Option.ne_none_iff_exists'.mp hkeys
  unfold nextChatProof
  simp only [hkeys, hget]
  cases nonce with
  | none =>
    simp only [Option.elim_none, newProof_eq, bind, Except.bind, pure, Except.pure]
    constructor
    · intro hover
      rw [if_pos hover]
    · intro hroom
      rw [if_neg hroom]
      exact ⟨_, _, rfl, rfl, LinearMap.get_insert_self _⟩
  | some n =>
    simp only [Option.elim_some, newProof_eq, add_one, bind, Except.bind, pure, Except.pure]
    by_cases hfirst : host.overflowChecks = true ∧ 2 ^ 64 ≤ n.toNat + 1
    · rw [if_pos hfirst]
      exact ⟨fun _ => rfl, fun hroom => absurd ⟨hfirst.1, by omega⟩ hroom⟩
    · rw [if_neg hfirst]
      by_cases hchecks : host.overflowChecks = true
      · have hlt : n.toNat + 1 < 2 ^ 64 := by
          by_contra hge
          exact hfirst ⟨hchecks, by omega⟩
        simp only [toNat_add_one hlt]
        constructor
        · intro hover
          rw [if_pos hover]
        · intro hroom
          rw [if_neg hroom]
          exact ⟨_, _, rfl, rfl, LinearMap.get_insert_self _⟩
      · have hquiet : ∀ p, ¬(host.overflowChecks = true ∧ p) := fun p hp => hchecks hp.1
        constructor
        · intro hover
          exact absurd hover (hquiet _)
        · intro _
          dsimp only
          rw [if_neg (hquiet _)]
          exact ⟨_, _, rfl, rfl, LinearMap.get_insert_self _⟩

end Proofs

section Reports

variable {host : Host} {state later : State} {chat : ChatName} {action : ChatAction}
  {first second : Answer} {entry : ChatMeta} {n : Nonce}

/-- Without keys or the chat no request is sent. -/
theorem dispatch_not_ready (h : ∀ entry, ¬Ready state chat entry) :
    dispatchChatAction host state later chat action first second =
      .ok ⟨state, [], .error .extractingChatProof⟩ := by
  unfold dispatchChatAction
  rw [nextChatProof_not_ready none h]
  rfl

theorem dispatch_overflow (h : Ready state chat entry) (hchecks : host.overflowChecks = true)
    (hover : 2 ^ 64 ≤ entry.actionNo.toNat + 1) :
    dispatchChatAction host state later chat action first second = .error .overflow := by
  unfold dispatchChatAction
  rw [(nextChatProof_ready h none).1 ⟨hchecks, hover⟩]
  rfl

/-- The first request is the only one, unless the answer asks for another. -/
theorem dispatch_once (h : Ready state chat entry)
    (hroom : ¬(host.overflowChecks = true ∧ 2 ^ 64 ≤ entry.actionNo.toNat + 1))
    (hfirst : ∀ n, first ≠ .error (.handler (.inner (.invalidAction n)))) :
    ∃ after proof, dispatchChatAction host state later chat action first second =
      .ok ⟨after, [(proof, action)], .ok ()⟩ := by
  obtain ⟨proof, after, hproof, -, -⟩ := (nextChatProof_ready h none).2 hroom
  refine ⟨after, proof, ?_⟩
  unfold dispatchChatAction
  rw [hproof]
  simp only [bind, Except.bind, pure, Except.pure]

/-- The second request is made from the state at the answer. -/
theorem dispatch_retry (h : Ready state chat entry)
    (hroom : ¬(host.overflowChecks = true ∧ 2 ^ 64 ≤ entry.actionNo.toNat + 1))
    (hfirst : first = .error (.handler (.inner (.invalidAction n)))) :
    ∃ proof, dispatchChatAction host state later chat action first second =
      (nextChatProof host later chat (some n)).map fun r => r.1.elim
        ⟨r.2, [(proof, action)], .error .extractingChatProof⟩
        fun retried => ⟨r.2, [(proof, action), (retried, action)], second.mapError .request⟩ := by
  obtain ⟨proof, after, hproof, -, -⟩ := (nextChatProof_ready h none).2 hroom
  refine ⟨proof, ?_⟩
  unfold dispatchChatAction
  rw [hproof, hfirst]
  simp only [bind, Except.bind, pure, Except.pure]
  cases nextChatProof host later chat (some n) with
  | error p => rfl
  | ok r =>
    obtain ⟨retried, after⟩ := r
    cases retried <;> rfl

theorem mapError_eq_ok_iff {ε δ : Type} {f : ε → δ} {r : Except ε Unit} :
    r.mapError f = .ok () ↔ r = .ok () := by
  cases r with
  | error e => simp [Except.mapError]
  | ok u => simp [Except.mapError]

/-- After an answer with a number, only counting on from it can go wrong. -/
theorem retry_reports_iff (h : Ready state chat entry)
    (hroom : ¬(host.overflowChecks = true ∧ 2 ^ 64 ≤ entry.actionNo.toNat + 1))
    (hfirst : first = .error (.handler (.inner (.invalidAction n)))) :
    (∃ o, dispatchChatAction host state later chat action first second = .ok o ∧
        o.Reports later chat first second) ↔
      ((∃ entry, Ready later chat entry) → n.toNat + 2 < 2 ^ 64) := by
  obtain ⟨proof, hretry⟩ :=
    @dispatch_retry host state later chat action first second entry n h hroom hfirst
  rw [hretry]
  by_cases hready : ∃ entry, Ready later chat entry
  · obtain ⟨entry', hentry'⟩ := hready
    obtain ⟨hpanic, hmade⟩ := @nextChatProof_ready host later chat entry' hentry' (some n)
    rw [Option.elim_some] at hpanic hmade
    constructor
    · rintro ⟨o, ho, hreports⟩ -
      obtain ⟨once, again, hsent, hnonce, -, other, hget, hnumber⟩ := hreports.retries n hfirst
        (by
          intro hnil
          cases hmap : nextChatProof host later chat (some n) with
          | error p =>
            rw [hmap] at ho
            cases ho
          | ok r =>
            obtain ⟨retried, after⟩ := r
            rw [hmap] at ho
            cases retried with
            | none =>
              cases ho
              cases hnil
            | some retried =>
              cases ho
              cases hnil)
        ⟨entry', hentry'⟩
      have hbound := other.actionNo.toNat_lt
      omega
    · intro hlt
      have hlt := hlt ⟨entry', hentry'⟩
      obtain ⟨retried, after, hmade, hnonce, hget⟩ := hmade fun hover => by omega
      rw [Option.elim_some] at hnonce
      have hnat : retried.nonce.toNat = n.toNat + 1 := by
        rw [hnonce, toNat_add_one (by omega)]
      rw [hmade]
      refine ⟨_, rfl, ?_, ?_⟩
      · change second.mapError DispatchError.request = .ok () ↔ _
        rw [mapError_eq_ok_iff]
        constructor
        · intro hok
          exact .inr ⟨rfl, hok⟩
        · rintro (⟨hone, -⟩ | ⟨-, hok⟩)
          · cases hone
          · exact hok
      · intro m hm _ _
        rw [hfirst] at hm
        cases hm
        refine ⟨_, _, rfl, hnat, rfl, _, hget, ?_⟩
        change (retried.nonce + 1).toNat = _
        rw [toNat_add_one (by omega), hnat]
  · have hnone : ∀ entry, ¬Ready later chat entry := fun entry h => hready ⟨entry, h⟩
    rw [nextChatProof_not_ready _ hnone]
    constructor
    · intro _ hready'
      exact absurd hready' hready
    · intro _
      refine ⟨_, rfl, ?_, fun m _ _ hready' => absurd hready' hready⟩
      constructor
      · intro hok
        cases hok
      · rintro (⟨-, hok⟩ | ⟨htwo, -⟩)
        · rw [hfirst] at hok
          cases hok
        · cases htwo

/-- The result is the real outcome exactly if the first request was accepted or was
answered with a number that can be counted on from; every other answer to it is
taken for success. -/
theorem dispatch_reports_iff (host : Host) (state later : State) (chat : ChatName)
    (action : ChatAction) (first second : Answer) :
    (∃ o, dispatchChatAction host state later chat action first second = .ok o ∧
        o.Reports later chat first second) ↔
      ∀ entry, Ready state chat entry →
        ¬(host.overflowChecks = true ∧ 2 ^ 64 ≤ entry.actionNo.toNat + 1) ∧
          (first = .ok () ∨ ∃ n, first = .error (.handler (.inner (.invalidAction n))) ∧
            ((∃ entry, Ready later chat entry) → n.toNat + 2 < 2 ^ 64)) := by
  by_cases hready : ∃ entry, Ready state chat entry
  · obtain ⟨entry, hentry⟩ := hready
    have hsingle : (∀ entry, Ready state chat entry →
        ¬(host.overflowChecks = true ∧ 2 ^ 64 ≤ entry.actionNo.toNat + 1) ∧
          (first = .ok () ∨ ∃ n, first = .error (.handler (.inner (.invalidAction n))) ∧
            ((∃ entry, Ready later chat entry) → n.toNat + 2 < 2 ^ 64))) ↔
        ¬(host.overflowChecks = true ∧ 2 ^ 64 ≤ entry.actionNo.toNat + 1) ∧
          (first = .ok () ∨ ∃ n, first = .error (.handler (.inner (.invalidAction n))) ∧
            ((∃ entry, Ready later chat entry) → n.toNat + 2 < 2 ^ 64)) := by
      constructor
      · intro hall
        exact hall entry hentry
      · intro hone other hother
        obtain rfl := Option.some.inj (hentry.2.symm.trans hother.2)
        exact hone
    rw [hsingle]
    by_cases hover : host.overflowChecks = true ∧ 2 ^ 64 ≤ entry.actionNo.toNat + 1
    · rw [dispatch_overflow hentry hover.1 hover.2]
      constructor
      · rintro ⟨o, ho, -⟩
        cases ho
      · rintro ⟨hroom, -⟩
        exact absurd hover hroom
    by_cases hinvalid : ∃ n, first = .error (.handler (.inner (.invalidAction n)))
    · obtain ⟨n, hn⟩ := hinvalid
      rw [retry_reports_iff hentry hover hn]
      constructor
      · intro hroom
        exact ⟨hover, .inr ⟨n, hn, hroom⟩⟩
      · rintro ⟨-, hok | ⟨m, hm, hroom⟩⟩
        · rw [hok] at hn
          cases hn
        · rw [hn] at hm
          cases hm
          exact hroom
    · have hfirst : ∀ n, first ≠ .error (.handler (.inner (.invalidAction n))) :=
        fun n hn => hinvalid ⟨n, hn⟩
      obtain ⟨after, proof, honce⟩ :=
        @dispatch_once host state later chat action first second entry hentry hover hfirst
      rw [honce]
      constructor
      · rintro ⟨o, ho, hreports⟩
        cases ho
        have haccepted := hreports.result.mp rfl
        refine ⟨hover, .inl ?_⟩
        rcases haccepted with ⟨-, hok⟩ | ⟨htwo, -⟩
        · exact hok
        · cases htwo
      · rintro ⟨-, hok | ⟨n, hn, -⟩⟩
        · refine ⟨_, rfl, ⟨fun _ => .inl ⟨rfl, hok⟩, fun _ => rfl⟩, fun n hn => ?_⟩
          exact absurd hn (hfirst n)
        · exact absurd hn (hfirst n)
  · have hnone : ∀ entry, ¬Ready state chat entry := fun entry h => hready ⟨entry, h⟩
    rw [dispatch_not_ready hnone]
    constructor
    · intro _ entry hentry
      exact absurd hentry (hnone entry)
    · intro _
      refine ⟨_, rfl, ?_, ?_⟩
      · simp [Outcome.Accepted]
      · intro n _ hsent
        exact absurd rfl hsent


end Reports

section Server

variable {host : Host} {chat : Chat} {proof retried : ChatProof} {action : ChatAction}
  {out : ChatReplica.Outcome ActionReply} {n : Nonce}

theorem sendMessage_not_stale {sender : Identity} {nonce m : Nonce} {msg : Bytes}
    (h : sendMessage host chat sender nonce msg = .ok out) :
    out.reply.result ≠ .error (.invalidAction m) := by
  unfold sendMessage at h
  split_ifs at h
  · cases h
    simp [rejected]
  · split at h
    · cases h
    · split at h
      · cases h
        simp
      · cases h
        simp [rejected]
      · cases h
        simp

/-- An action is stale exactly if its nonce is not above that of the sender. -/
theorem performChatAction_stale_iff (h : performChatAction host chat proof action = .ok out) :
    out.reply.result = .error (.invalidAction n) ↔
      proof.verified = true ∧ chat.members (host.blake3 proof.pk) = some n ∧ ¬n < proof.nonce := by
  unfold performChatAction at h
  cases hverified : proof.verified with
  | false =>
    rw [hverified] at h
    cases h
    simp [rejected]
  | true =>
    rw [hverified] at h
    simp only [Bool.not_true, Bool.false_eq_true, if_false] at h
    cases hmember : chat.members (host.blake3 proof.pk) with
    | none =>
      rw [hmember] at h
      cases h
      simp [rejected]
    | some current =>
      rw [hmember] at h
      dsimp only at h
      unfold advanceNonce at h
      by_cases hlt : current < proof.nonce
      · rw [if_pos hlt] at h
        have hnot : out.reply.result ≠ .error (.invalidAction n) := by
          cases action with
          | addUser id =>
            dsimp only at h
            split_ifs at h
            · cases h
              simp [rejected]
            · cases h
              simp
          | sendMessage msg => exact sendMessage_not_stale h
        constructor
        · intro heq
          exact absurd heq hnot
        · rintro ⟨-, hsome, hge⟩
          rw [← Option.some.inj hsome] at hge
          exact absurd hlt hge
      · rw [if_neg hlt] at h
        cases h
        constructor
        · intro heq
          cases heq
          exact ⟨rfl, rfl, hlt⟩
        · rintro ⟨-, hsome, -⟩
          rw [← Option.some.inj hsome]
          rfl

/-- The second request is not refused for its number, unless the server has accepted
another action of the sender before it. -/
theorem retried_not_stale {before : ChatReplica.Outcome ActionReply}
    (hbefore : performChatAction host chat proof action = .ok before)
    (hstale : before.reply.result = .error (.invalidAction n))
    (h : performChatAction host chat retried action = .ok out) (hpk : retried.pk = proof.pk)
    (hnonce : retried.nonce.toNat = n.toNat + 1) (m : Nonce) :
    out.reply.result ≠ .error (.invalidAction m) := by
  intro hagain
  obtain ⟨-, hmember, -⟩ := (performChatAction_stale_iff hbefore).mp hstale
  obtain ⟨-, hmember', hge⟩ := (performChatAction_stale_iff h).mp hagain
  rw [hpk, hmember] at hmember'
  rw [← Option.some.inj hmember', UInt64.lt_iff_toNat_lt] at hge
  omega

end Server

def sampleHost : Host := ⟨fun _ => mailMarker, true⟩

def sampleState : State := ⟨some ⟨[], fun _ => []⟩, [(nameA, ⟨[], 0⟩)]⟩

/-- The replicas do not agree, and the message seems to be stored. -/
theorem dispatch_swallows_noMajority : ¬ ∀ (host : Host) (state later : State) (chat : ChatName)
    (action : ChatAction) (first second : Answer),
    ∃ o, dispatchChatAction host state later chat action first second = .ok o ∧
      o.Reports later chat first second := by
  intro h
  obtain ⟨o, ho, hreports⟩ := h sampleHost sampleState sampleState nameA (.sendMessage [])
    (.error (.handler .noMajority)) (.ok ())
  have hready : Ready sampleState nameA ⟨[], 0⟩ := ⟨by simp [sampleState], rfl⟩
  obtain ⟨after, proof, honce⟩ := @dispatch_once sampleHost sampleState sampleState nameA
    (.sendMessage []) (.error (.handler .noMajority)) (.ok ()) _ hready (by decide)
    (fun n hn => by cases hn)
  rw [honce] at ho
  cases ho
  rcases hreports.result.mp rfl with ⟨-, hok⟩ | ⟨htwo, -⟩
  · cases hok
  · cases htwo

end OrionNetwork.ChatDispatch
