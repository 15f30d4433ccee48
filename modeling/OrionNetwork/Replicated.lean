import OrionNetwork.ChatReplica
import OrionNetwork.CodecTypes
import OrionNetwork.RpcBehaviour

/-!
# Replicated requests

A request is executed here and sent to the other replicators. The handler then
waits for their answers, counts those that are equal to its own byte by byte
and answers once it has counted enough or can no longer do so. What a handler
needs of the server around it is passed as a parameter.
-/
namespace OrionNetwork.Replicated
open Codec Collections ChatReplica Rpc

/-- A result, or the handler that waits for the next event. -/
abbrev HandlerResult (H Response Error : Type) := Except H (Except Error Response)

inductive PossibleTopic (ChatName : Type) where
  | profile (identity : Identity)
  | chat (name : ChatName)
  deriving DecidableEq

inductive ReplError (Error : Type) where
  | noMajority
  | invalidResponse
  | invalidTopic
  | inner (error : Error)
  deriving DecidableEq

/-- What the server does for its handlers. -/
structure Server (σ Peer ChatName : Type) where
  isValidTopic : σ → PossibleTopic ChatName → Bool
  otherReplicatorsFor : σ → PossibleTopic ChatName → List Peer
  request : σ → Peer → Bytes → σ × Option CallId

structure Handler (σ Peer Request Response Error H : Type) where
  execute : σ → Request → σ × HandlerResult H Response Error
  resume : H → σ → Event Peer → σ × HandlerResult H Response Error

inductive Repl (H ChatName : Type) where
  | resolving (handler : H) (topic : PossibleTopic ChatName) (request : Bytes)
  | replicating (response : Bytes) (ongoing : List CallId) (matched : ℕ)

section Repl

variable {σ Peer ChatName Request Response Error H : Type}

/-- The calls that could be made. -/
def requestAll (server : Server σ Peer ChatName) (packet : Bytes) :
    List Peer → σ → σ × List CallId
  | [], s => (s, [])
  | peer :: peers, s =>
    let (s, call) := server.request s peer packet
    let (s, calls) := requestAll server packet peers s
    (s, call.toList ++ calls)

def newReplicating (server : Server σ Peer ChatName) (response request : Bytes)
    (topic : PossibleTopic ChatName) (s : σ) : σ × Repl H ChatName :=
  let (s, ongoing) := requestAll server request (server.otherReplicatorsFor s topic) s
  (s, .replicating response ongoing 0)

/-- `Ok::<_, ()>(r).to_bytes()`. -/
def okBytes (c : Codec Response) (r : Response) : Bytes := (result c unit).toBytes (.ok r)

/-- The inner handler's outcome decides how to go on. -/
def proceed (server : Server σ Peer ChatName) (c : Codec Response) (topic : PossibleTopic ChatName)
    (request : Bytes) :
    σ × HandlerResult H Response Error →
      σ × HandlerResult (Repl H ChatName) Response (ReplError Error)
  | (s, .ok (.ok r)) =>
    let (s, repl) := newReplicating server (okBytes c r) request topic s
    (s, .error repl)
  | (s, .ok (.error e)) => (s, .ok (.error (.inner e)))
  | (s, .error h) => (s, .error (.resolving h topic request))

def execute (server : Server σ Peer ChatName) (h : Handler σ Peer Request Response Error H)
    (c : Codec Response) (toPossibleTopic : Request → PossibleTopic ChatName)
    (packet : Request → Bytes) (s : σ) (req : Request) :
    σ × HandlerResult (Repl H ChatName) Response (ReplError Error) :=
  let topic := toPossibleTopic req
  if !server.isValidTopic s topic then (s, .ok (.error .invalidTopic))
  else proceed server c topic (packet req) (h.execute s req)

/-- The test that ends a round without a result of its own. -/
def giveUp (response : Bytes) (ongoing : List CallId) (matched : ℕ) :
    HandlerResult (Repl H ChatName) Response (ReplError Error) :=
  if ongoing.length + matched < replicationFactor / 2 then .ok (.error .noMajority)
  else .error (.replicating response ongoing matched)

/-- One answer to an outstanding call. -/
def count (c : Codec Response) (e : Codec Error) (response : Bytes) (ongoing : List CallId)
    (matched : ℕ) : Except Streaming.Error Bytes →
      HandlerResult (Repl H ChatName) Response (ReplError Error)
  | .error _ => giveUp response ongoing matched
  | .ok remote =>
    let matched := matched + if remote = response then 1 else 0
    if matched > replicationFactor / 2 then
      match (result c e).decode remote with
      | none => .ok (.error .invalidResponse)
      | some (.ok r, _) => .ok (.ok r)
      | some (.error err, _) => .ok (.error (.inner err))
    else giveUp response ongoing matched

def resumeReplicating (c : Codec Response) (e : Codec Error) (response : Bytes)
    (ongoing : List CallId) (matched : ℕ) : Event Peer →
      HandlerResult (Repl H ChatName) Response (ReplError Error)
  | .request _ _ _ => .error (.replicating response ongoing matched)
  | .response _ call res =>
    match findAndRemove (fun d => d = call) ongoing with
    | none => .error (.replicating response ongoing matched)
    | some (_, ongoing) => count c e response ongoing matched res

def resume (server : Server σ Peer ChatName) (h : Handler σ Peer Request Response Error H)
    (c : Codec Response) (e : Codec Error) (self : Repl H ChatName) (s : σ) (event : Event Peer) :
    σ × HandlerResult (Repl H ChatName) Response (ReplError Error) :=
  match self with
  | .resolving handler topic request => proceed server c topic request (h.resume handler s event)
  | .replicating response ongoing matched =>
    (s, resumeReplicating c e response ongoing matched event)

/-- A handler that has not returned is kept. -/
def follow (next : Repl H ChatName → σ →
      σ × HandlerResult (Repl H ChatName) Response (ReplError Error)) :
    σ × HandlerResult (Repl H ChatName) Response (ReplError Error) →
      σ × HandlerResult (Repl H ChatName) Response (ReplError Error)
  | (s, .ok r) => (s, .ok r)
  | (s, .error self) => next self s

/-- Events are handed to the handler until it returns. -/
def resumeAll (server : Server σ Peer ChatName) (h : Handler σ Peer Request Response Error H)
    (c : Codec Response) (e : Codec Error) :
    List (Event Peer) → Repl H ChatName → σ →
      σ × HandlerResult (Repl H ChatName) Response (ReplError Error)
  | [], self, s => (s, .error self)
  | event :: events, self, s =>
    follow (resumeAll server h c e events) (resume server h c e self s event)

/-- The call an event answers. -/
def callOf : Event Peer → Option CallId
  | .request _ _ _ => none
  | .response _ call _ => some call

/-- Every outstanding call is answered, in some order, among other events. -/
def Answers (ongoing : List CallId) (events : List (Event Peer)) : Prop :=
  ((events.filterMap callOf).filter fun call => call ∈ ongoing).Perm ongoing

def isMatch (response : Bytes) (ongoing : List CallId) : Event Peer → Bool
  | .response _ call (.ok remote) => call ∈ ongoing && remote = response
  | _ => false

/-- How many of the answers are equal to the response. -/
def matching (response : Bytes) (ongoing : List CallId) (events : List (Event Peer)) : ℕ :=
  events.countP (isMatch response ongoing)

end Repl

section Counting

variable {Peer : Type} {response : Bytes} {ongoing rest : List CallId} {call : CallId}
  {event : Event Peer} {events : List (Event Peer)}

theorem filterMap_response (peer : Peer) (res : Except Streaming.Error Bytes) :
    (.response peer call res :: events).filterMap callOf = call :: events.filterMap callOf := rfl

theorem matching_cons : matching response ongoing (event :: events) =
    (if isMatch response ongoing event then 1 else 0) + matching response ongoing events := by
  unfold matching
  rw [List.countP_cons, Nat.add_comm]

theorem isMatch_of_other (h : ∀ call, callOf event = some call → call ∉ ongoing) :
    isMatch response ongoing event = false := by
  cases event with
  | request => rfl
  | response peer call res =>
    cases res with
    | error => rfl
    | ok remote => simp [isMatch, h call rfl]

/-- An event that answers no outstanding call changes nothing. -/
theorem Answers.of_other (h : ∀ call, callOf event = some call → call ∉ ongoing)
    (ha : Answers ongoing (event :: events)) : Answers ongoing events := by
  unfold Answers at ha ⊢
  cases event with
  | request => exact ha
  | response peer call res =>
    rw [filterMap_response, List.filter_cons_of_neg (by simpa using h call rfl)] at ha
    exact ha

/-- The calls that are left are those that the events left answer. -/
theorem mem_rest_iff (hperm : ongoing.Perm (call :: rest)) (hcall : callOf event = some call)
    (ha : Answers ongoing (event :: events)) {d : CallId} (hd : d ∈ events.filterMap callOf) :
    d ∈ ongoing ↔ d ∈ rest := by
  unfold Answers at ha
  have hmem : call ∈ ongoing := hperm.mem_iff.mpr List.mem_cons_self
  rw [List.filterMap_cons_some hcall, List.filter_cons_of_pos (by simpa using hmem)] at ha
  have hrest := List.Perm.cons_inv (ha.trans hperm)
  constructor
  · intro h
    exact hrest.mem_iff.mp (List.mem_filter.mpr ⟨hd, by simpa using h⟩)
  · intro h
    exact hperm.mem_iff.mpr (List.mem_cons_of_mem call h)

theorem Answers.of_answer (hperm : ongoing.Perm (call :: rest)) (hcall : callOf event = some call)
    (ha : Answers ongoing (event :: events)) : Answers rest events := by
  have hsame := fun d => mem_rest_iff hperm hcall ha (d := d)
  have hmem : call ∈ ongoing := hperm.mem_iff.mpr List.mem_cons_self
  unfold Answers at ha ⊢
  rw [List.filterMap_cons_some hcall, List.filter_cons_of_pos (by simpa using hmem)] at ha
  have hfilter : (events.filterMap callOf).filter (fun d => d ∈ rest) =
      (events.filterMap callOf).filter fun d => d ∈ ongoing := by
    apply List.filter_congr
    intro d hd
    simp only [hsame d hd]
  rw [hfilter]
  exact List.Perm.cons_inv (ha.trans hperm)

theorem matching_rest (hperm : ongoing.Perm (call :: rest)) (hcall : callOf event = some call)
    (ha : Answers ongoing (event :: events)) :
    matching response ongoing events = matching response rest events := by
  unfold matching
  apply List.countP_congr
  intro e he
  cases e with
  | request => rfl
  | response peer d res =>
    cases res with
    | error => rfl
    | ok remote =>
      have hd : d ∈ events.filterMap callOf := List.mem_filterMap.mpr ⟨_, he, rfl⟩
      simp only [isMatch, mem_rest_iff hperm hcall ha hd]

/-- There are no more equal answers than outstanding calls. -/
theorem matching_le (ha : Answers ongoing events) :
    matching response ongoing events ≤ ongoing.length := by
  have hle : matching response ongoing events ≤
      ((events.filterMap callOf).filter fun d => d ∈ ongoing).length := by
    clear ha
    induction events with
    | nil => exact Nat.zero_le _
    | cons e events ih =>
      rw [matching_cons]
      cases e with
      | request peer d payload =>
        rw [show isMatch response ongoing (Event.request peer d payload) = false from rfl,
          if_neg Bool.false_ne_true, Nat.zero_add]
        exact ih
      | response peer d res =>
        rw [filterMap_response]
        by_cases hd : d ∈ ongoing
        · rw [List.filter_cons_of_pos (by simpa using hd), List.length_cons]
          split_ifs <;> omega
        · rw [List.filter_cons_of_neg (by simpa using hd), isMatch_of_other]
          · simpa using ih
          · intro c hc
            cases hc
            exact hd
  rw [ha.length_eq] at hle
  exact hle

end Counting

section Resolving

variable {σ Peer ChatName Request Response Error H : Type}
  {server : Server σ Peer ChatName} {h : Handler σ Peer Request Response Error H}
  {c : Codec Response} {e : Codec Error}

/-- Where `matched` equal answers lead when all calls are answered. -/
def verdict (c : Codec Response) (r : Response) (ongoing : List CallId) (matched : ℕ) :
    HandlerResult (Repl H ChatName) Response (ReplError Error) :=
  if replicationFactor / 2 < matched then .ok (.ok r)
  else if matched < replicationFactor / 2 ∧ ongoing ≠ [] then .ok (.error .noMajority)
  else .error (.replicating (okBytes c r) [] matched)

theorem decode_okBytes (hc : RoundTrips (· = []) c) (r : Response) :
    (result c e).decode (okBytes c r) = some (.ok r, []) := by
  have hr := hc r [] rfl
  rw [List.append_nil] at hr
  change (c.decode (c.toBytes r)).bind (fun v => some (Except.ok v.1, v.2)) = _
  rw [hr]
  rfl

/-- Going on after a round, with the calls that are left. -/
theorem giveUp_spec {r : Response} {ongoing : List CallId} {matched : ℕ}
    {events : List (Event Peer)} (hle : matched ≤ replicationFactor / 2)
    (ha : Answers ongoing events) {s : σ}
    (ih : resumeAll server h c e events (.replicating (okBytes c r) ongoing matched) s =
      (s, verdict c r ongoing (matched + matching (okBytes c r) ongoing events)))
    {before : List CallId} (hbefore : before ≠ []) :
    follow (resumeAll server h c e events) (s, giveUp (okBytes c r) ongoing matched) =
      (s, verdict c r before (matched + matching (okBytes c r) ongoing events)) := by
  have hmatching : matching (okBytes c r) ongoing events ≤ ongoing.length := matching_le ha
  unfold giveUp
  by_cases hfew : ongoing.length + matched < replicationFactor / 2
  · rw [if_pos hfew, follow]
    unfold verdict
    rw [if_neg (by omega), if_pos ⟨by omega, hbefore⟩]
  · rw [if_neg hfew, follow, ih]
    unfold verdict
    by_cases hmany : replicationFactor / 2 < matched + matching (okBytes c r) ongoing events
    · rw [if_pos hmany, if_pos hmany]
    · rw [if_neg hmany, if_neg hmany]
      by_cases hless : matched + matching (okBytes c r) ongoing events < replicationFactor / 2
      · have hleft : ongoing ≠ [] := by
          rintro rfl
          rw [List.length_nil] at hfew
          omega
        rw [if_pos ⟨hless, hleft⟩, if_pos ⟨hless, hbefore⟩]
      · rw [if_neg fun hand => hless hand.1, if_neg fun hand => hless hand.1]

/-- Induction over the events; the handler keeps the calls without an answer. -/
theorem resumeAll_replicating (hc : RoundTrips (· = []) c) (r : Response)
    {ongoing : List CallId} {matched : ℕ} {events : List (Event Peer)}
    (hle : matched ≤ replicationFactor / 2) (ha : Answers ongoing events) (s : σ) :
    resumeAll server h c e events (.replicating (okBytes c r) ongoing matched) s =
      (s, verdict c r ongoing (matched + matching (okBytes c r) ongoing events)) := by
  induction events generalizing ongoing matched with
  | nil =>
    have hnil : ongoing = [] := (List.nil_perm.mp ha).symm ▸ rfl
    subst hnil
    unfold verdict matching
    rw [List.countP_nil, Nat.add_zero, if_neg (by omega), if_neg fun hand => hand.2 rfl]
    rfl
  | cons event events ih =>
    rw [resumeAll, resume, matching_cons]
    cases event with
    | request peer call payload =>
      have hother := fun d (hd : callOf (.request peer call payload) = some d) =>
        (nomatch hd : d ∉ ongoing)
      rw [isMatch_of_other hother, if_neg Bool.false_ne_true, Nat.zero_add]
      exact ih hle (ha.of_other hother)
    | response peer call res =>
      rw [resumeReplicating]
      cases hfind : findAndRemove (fun d => decide (d = call)) ongoing with
      | none =>
        have hother : ∀ d, callOf (.response peer call res) = some d → d ∉ ongoing := by
          rintro d hd hmem
          cases hd
          simpa using findAndRemove_eq_none hfind call hmem
        rw [isMatch_of_other hother, if_neg Bool.false_ne_true, Nat.zero_add]
        exact ih hle (ha.of_other hother)
      | some found =>
        obtain ⟨d, rest⟩ := found
        obtain ⟨hd, hperm⟩ := findAndRemove_some hfind
        have hd : d = call := by simpa using hd
        subst hd
        have hmem : d ∈ ongoing := hperm.mem_iff.mpr List.mem_cons_self
        have hne : ongoing ≠ [] := List.ne_nil_of_mem hmem
        have hrest := ha.of_answer hperm rfl
        rw [matching_rest hperm rfl ha]
        cases res with
        | error err =>
          rw [show isMatch (okBytes c r) ongoing (Event.response peer d (.error err)) = false
            from rfl, if_neg Bool.false_ne_true, Nat.zero_add]
          exact giveUp_spec hle hrest (ih hle hrest) hne
        | ok remote =>
          have hmatch : isMatch (okBytes c r) ongoing (Event.response peer d (.ok remote)) =
              decide (remote = okBytes c r) := by
            simp [isMatch, hmem]
          rw [hmatch, ← Nat.add_assoc]
          unfold count
          simp only [decide_eq_true_eq]
          by_cases hmany : replicationFactor / 2 < matched + if remote = okBytes c r then 1 else 0
          · have hequal : remote = okBytes c r := by
              by_contra hne
              rw [if_neg hne] at hmany
              omega
            subst hequal
            simp only [if_true, decode_okBytes hc] at hmany ⊢
            rw [if_pos hmany, follow, verdict, if_pos (by omega)]
          · rw [if_neg hmany]
            exact giveUp_spec (by omega) hrest (ih (by omega) hrest) hne

/-- The result the replicas agree on: the response here and the equal ones are
together more than half of all replicas. -/
def agreed (r : Response) (equal : ℕ) : Except (ReplError Error) Response :=
  if replicationFactor / 2 + 1 ≤ 1 + equal then .ok r else .error .noMajority

/-- A handler that has called the other replicators returns the agreed result by
the last answer, unless it called none of them or exactly half of them agree. -/
theorem replicating_resolves_iff (hc : RoundTrips (· = []) c) (r : Response)
    (ongoing : List CallId) (events : List (Event Peer)) (ha : Answers ongoing events) (s : σ) :
    (resumeAll server h c e events (.replicating (okBytes c r) ongoing 0) s).2 =
        .ok (agreed r (matching (okBytes c r) ongoing events)) ↔
      ongoing ≠ [] ∧ matching (okBytes c r) ongoing events ≠ replicationFactor / 2 := by
  have hle : matching (okBytes c r) ongoing events ≤ ongoing.length := matching_le ha
  rw [resumeAll_replicating hc r (Nat.zero_le _) ha, Nat.zero_add]
  unfold verdict agreed
  constructor
  · intro heq
    constructor
    · rintro rfl
      have hzero : matching (okBytes c r) [] events = 0 := Nat.le_zero.mp hle
      rw [hzero, if_neg (Nat.not_lt_zero _), if_neg fun hand => hand.2 rfl] at heq
      cases heq
    · intro hhalf
      rw [hhalf, if_neg (lt_irrefl _), if_neg fun hand => lt_irrefl _ hand.1] at heq
      cases heq
  · rintro ⟨hcalled, hhalf⟩
    by_cases hmany : replicationFactor / 2 < matching (okBytes c r) ongoing events
    · rw [if_pos hmany, if_pos (by omega)]
    · rw [if_neg hmany, if_pos ⟨by omega, hcalled⟩, if_neg (by omega)]

end Resolving

/-- A server without other replicators. -/
def alone : Server Unit ℕ Unit where
  isValidTopic _ _ := true
  otherReplicatorsFor _ _ := []
  request _ _ _ := ((), none)

/-- A request that is answered at once. -/
def atOnce : Handler Unit ℕ Unit Unit Unit Unit where
  execute _ _ := ((), .ok (.ok ()))
  resume _ _ _ := ((), .ok (.ok ()))

theorem replicating_resolves_three :
    (resumeAll alone atOnce unit unit
      [.response 0 11 (.ok [1]), .response 1 12 (.ok [1]), .response 2 13 (.ok [1])]
      (.replicating (okBytes unit ()) [11, 12, 13] 0) ()).2 = .ok (.ok ()) := by
  have hc : RoundTrips (· = []) unit := roundTrips_unit
  exact (replicating_resolves_iff hc () [11, 12, 13]
    [.response 0 11 (.ok [1]), .response 1 12 (.ok [1]), .response 2 13 (.ok [1])]
    (List.Perm.refl _) ()).mpr ⟨by decide, by decide⟩

/-- Two of four replicators agree, the others do not answer. -/
theorem replicating_unresolved : ¬ ∀ (ongoing : List CallId) (events : List (Event ℕ)),
    Answers ongoing events →
      (resumeAll alone atOnce unit unit events (.replicating (okBytes unit ()) ongoing 0) ()).2 =
        .ok (agreed () (matching (okBytes unit ()) ongoing events)) := by
  intro hclaim
  have hresolved := hclaim [11, 12, 13, 14]
    [.response 0 11 (.ok [1]), .response 1 12 (.ok [1]), .response 2 13 (.error .timeout),
      .response 3 14 (.error .timeout)] (List.Perm.refl _)
  have hpending : (resumeAll alone atOnce unit unit
      [.response 0 11 (.ok [1]), .response 1 12 (.ok [1]), .response 2 13 (.error .timeout),
        .response 3 14 (.error .timeout)]
      (.replicating (okBytes unit ()) [11, 12, 13, 14] 0) ()).2 =
        .error (.replicating (okBytes unit ()) [] 2) := rfl
  rw [hpending] at hresolved
  cases hresolved

end OrionNetwork.Replicated
