import OrionNetwork.ClientNode

/-!
# What a server can answer

Along a run it is recorded which call was written to which stream. A packet leaves the calls
of other streams alone, unless its call id is that of a request which is pending there: the
pending requests are not kept apart by stream, and ids are counted up, so they can be guessed.
-/
namespace OrionNetwork.ClientNode
open Codec Collections Runs
open Rpc (CallId)

variable {Topic Peer S : Type}

/-- The calls written so far, and the ids given out. -/
structure World (Topic Peer S : Type) where
  node : Node Topic Peer S
  asked : Written
  issued : List CallId

/-- What the node of a client handles. `ended` is a stream that is polled no more, and `polled`
the set of streams after some of them were polled. -/
inductive Act (Topic Peer S : Type) where
  | command (command : RequestInit Topic) (closest : Topic → List Peer)
  | outboundStream (stream : Option (S × Peer)) (id : PathId) (closest : Topic → List Peer)
  | packet (id : PathId) (request : Option Bytes) (taken : Bool)
  | ended (id : PathId)
  | polled (subscriptions : List (Subscription Topic Peer S))

/-- What polling leaves of a stream as it is. -/
def Subscription.kept (s : Subscription Topic Peer S) :
    PathId × Peer × List Topic × LinearMap CallId Channel :=
  (s.id, s.peerId, s.topics, s.subscriptions)

/-- As `Node::new` returns. -/
structure Started (w : World Topic Peer S) : Prop where
  ids : (w.node.subscriptions.map (·.id)).Nodup
  opened : ∀ p ∈ w.node.subscriptions.map (·.id), p < w.node.nextPath
  unsubscribed : ∀ s ∈ w.node.subscriptions, s.subscriptions = []
  pending : w.node.pendingRequests = []
  searches : w.node.pendingTopicSearch = []
  asked : w.asked = []

section Runs

variable [DecidableEq Topic] [DecidableEq Peer] {writeBytes : S → Bytes → Option S}
  {w w₀ : World Topic Peer S} {n' : Node Topic Peer S} {id : PathId}

def World.Step (writeBytes : S → Bytes → Option S) (w : World Topic Peer S) :
    Act Topic Peer S → World Topic Peer S → Prop
  | .command command closest, w' =>
    (∀ id ∈ command.calls, id ∉ w.issued) ∧ ∃ written,
      w.node.handleCommand writeBytes closest 2 command = .ok (w'.node, written) ∧
      w'.asked = w.asked ++ written ∧ w'.issued = w.issued ++ command.calls
  | .outboundStream stream id closest, w' =>
    ∃ written, w.node.handleOutboundStream writeBytes closest stream id = .ok (w'.node, written) ∧
      w'.asked = w.asked ++ written ∧ w'.issued = w.issued
  | .packet id request taken, w' =>
    ∃ out, w.node.handleSubscriptionResponse id request taken = .ok (w'.node, out) ∧
      w'.asked = w.asked ∧ w'.issued = w.issued
  | .ended id, w' =>
    w' = { w with node := { w.node with
      subscriptions := w.node.subscriptions.eraseP fun s => s.id = id } }
  | .polled subscriptions, w' =>
    (subscriptions.map (·.kept)).Perm (w.node.subscriptions.map (·.kept)) ∧
      w' = { w with node := { w.node with subscriptions := subscriptions } }

omit [DecidableEq Topic] [DecidableEq Peer] in
theorem inv_started (h : Started w) : Inv w.node w.asked w.issued [] where
  ids := h.ids
  opened := h.opened
  searches := by
    rw [h.searches]
    exact List.nodup_nil
  searching p hp := by
    rw [h.searches] at hp
    cases hp
  requests := by
    rw [h.pending]
    exact List.nodup_nil
  requested c hc := by
    rw [h.pending] at hc
    cases hc
  subscribed s hs c hc := by
    rw [h.unsubscribed s hs] at hc
    cases hc
  once c := by
    rw [h.asked, h.searches]
    exact Nat.zero_le 1
  known c hc := by
    rw [h.asked, h.searches] at hc
    rcases hc with hc | hc | hc <;> cases hc

/-- Fresh ids come in with a command. -/
theorem inv_command {command : RequestInit Topic} {closest : Topic → List Peer} {written : Written}
    (h : Inv w.node w.asked w.issued []) (hfresh : ∀ id ∈ command.calls, id ∉ w.issued)
    (hcommand : w.node.handleCommand writeBytes closest 2 command = .ok (n', written)) :
    Inv n' (w.asked ++ written) (w.issued ++ command.calls) [] := by
  suffices h' : Inv w.node w.asked (w.issued ++ command.calls) (command.calls ++ []) from
    h'.handled hcommand
  rw [List.append_nil]
  refine ⟨h.ids, h.opened, h.searches, h.searching, h.requests, h.requested, h.subscribed,
    fun c => ?_, fun c hc => ?_⟩
  · have honce := h.once c
    rw [List.count_nil] at honce
    by_cases hc : c ∈ command.calls
    · have hasked : (w.asked.map Prod.snd).count c = 0 :=
        List.count_eq_zero.mpr fun hin => hfresh c hc (h.known c (.inl hin))
      have hqueued : (queued w.node.pendingTopicSearch).count c = 0 :=
        List.count_eq_zero.mpr fun hin => hfresh c hc (h.known c (.inr (.inl hin)))
      have hcalls : command.calls.count c ≤ 1 := by
        cases command <;> simp [RequestInit.calls, List.count_singleton] <;> split_ifs <;> omega
      omega
    · rw [List.count_eq_zero.mpr hc]
      omega
  · rcases hc with hc | hc | hc
    · exact List.mem_append_left _ (h.known c (.inl hc))
    · exact List.mem_append_left _ (h.known c (.inr (.inl hc)))
    · exact List.mem_append_right _ hc

omit [DecidableEq Topic] [DecidableEq Peer] in
/-- The commands that waited for a path do not wait any more. -/
theorem count_queued_remove {m : LinearMap PathId (List (RequestInit Topic))}
    {req : List (RequestInit Topic)} (hkeys : m.keys.Nodup) (hget : m.get id = some req)
    (c : CallId) :
    (queued m).count c = (req.flatMap (·.calls)).count c + (queued (m.remove id)).count c := by
  obtain ⟨value, hperm⟩ := LinearMap.perm_remove (LinearMap.mem_keys_of_get hget)
  have hvalue : m.get id = some value :=
    (LinearMap.get_eq_some_iff hkeys).mpr (hperm.mem_iff.mpr List.mem_cons_self)
  obtain rfl : req = value := Option.some.inj (hget.symm.trans hvalue)
  have hcount := (hperm.flatMap_right fun e => e.2.flatMap (·.calls)).count_eq c
  rwa [List.flatMap_cons, List.count_append] at hcount

theorem inv_outboundStream {closest : Topic → List Peer} {stream : Option (S × Peer)}
    {written : Written} (h : Inv w.node w.asked w.issued [])
    (hopened : w.node.handleOutboundStream writeBytes closest stream id = .ok (n', written)) :
    Inv n' (w.asked ++ written) w.issued [] := by
  unfold Node.handleOutboundStream at hopened
  split at hopened
  · cases hopened
    rwa [List.append_nil]
  next req hget =>
  split at hopened
  · cases hopened
  · cases hopened
  next stream peerId first rest =>
  split at hopened
  · cases hopened
  next topic _ =>
  have hkey := LinearMap.mem_keys_of_get hget
  have hremoved := LinearMap.keys_remove h.searches id
  have hwaiting : Inv { w.node with pendingTopicSearch := w.node.pendingTopicSearch.remove id }
      w.asked w.issued ((first :: rest).flatMap (·.calls)) := by
    refine h.dropped hremoved.1 (fun p hp => LinearMap.mem_of_mem_remove hp) fun c => ?_
    rw [count_queued_remove h.searches hget c]
    omega
  have hjoined := hwaiting.joined (s := ⟨id, peerId, [topic], [], stream⟩)
    (h.searching id hkey).1 (h.searching id hkey).2 (fun hin => ((hremoved.2 id).mp hin).2 rfl) rfl
  refine loop_invariant (P := fun commands s =>
    Inv s.1 (w.asked ++ s.2) w.issued (commands.flatMap (·.calls))) hopened ?_ ?_
  · rw [List.append_nil]
    exact hjoined
  · intro command commands s t hs hcommand
    cases hhandled : Node.handleCommand writeBytes closest 2 s.1 command with
    | error why =>
      rw [hhandled] at hcommand
      cases hcommand
    | ok r =>
      rw [hhandled] at hcommand
      cases hcommand
      rw [← List.append_assoc]
      exact hs.handled hhandled

omit [DecidableEq Topic] [DecidableEq Peer] in
theorem inv_answered (h : Inv w.node w.asked w.issued []) (c : CallId) :
    Inv { w.node with pendingRequests := w.node.pendingRequests.remove c } w.asked w.issued [] where
  ids := h.ids
  opened := h.opened
  searches := h.searches
  searching := h.searching
  requests := (LinearMap.keys_remove h.requests c).1
  requested d hd := h.requested d (LinearMap.mem_of_mem_remove hd)
  subscribed := h.subscribed
  once := h.once
  known := h.known

omit [DecidableEq Topic] [DecidableEq Peer] in
theorem inv_packet {request : Option Bytes} {taken : Bool} {out : Option Delivery}
    (h : Inv w.node w.asked w.issued [])
    (hresponse : w.node.handleSubscriptionResponse id request taken = .ok (n', out)) :
    Inv n' w.asked w.issued [] := by
  unfold Node.handleSubscriptionResponse at hresponse
  split at hresponse
  · cases hresponse
    exact h
  split at hresponse
  · cases hresponse
    exact h
  next cid content _ _ =>
  split at hresponse
  · cases hresponse
    exact inv_answered h cid
  split at hresponse
  · cases hresponse
    exact h
  unfold Node.send at hresponse
  split_ifs at hresponse
  · cases hresponse
    exact h
  · cases hresponse
    exact h.unsubscribed cid

theorem inv_step {act : Act Topic Peer S} {w' : World Topic Peer S}
    (h : Inv w.node w.asked w.issued []) (hstep : w.Step writeBytes act w') :
    Inv w'.node w'.asked w'.issued [] := by
  cases act with
  | command command closest =>
    obtain ⟨hfresh, written, hcommand, hasked, hissued⟩ := hstep
    rw [hasked, hissued]
    exact inv_command h hfresh hcommand
  | outboundStream stream id closest =>
    obtain ⟨written, hopened, hasked, hissued⟩ := hstep
    rw [hasked, hissued]
    exact inv_outboundStream h hopened
  | packet id request taken =>
    obtain ⟨out, hresponse, hasked, hissued⟩ := hstep
    rw [hasked, hissued]
    exact inv_packet h hresponse
  | ended id =>
    obtain rfl := hstep
    have hsub : (w.node.subscriptions.eraseP fun s => s.id = id).Sublist w.node.subscriptions :=
      List.eraseP_sublist
    refine ⟨h.ids.sublist (hsub.map _), fun p hp => h.opened p ((hsub.map _).subset hp), h.searches,
      fun p hp => ?_, h.requests, h.requested, fun s hs => h.subscribed s (hsub.subset hs), h.once,
      h.known⟩
    exact (h.searching p hp).imp_right fun hout hin => hout ((hsub.map _).subset hin)
  | polled subscriptions =>
    obtain ⟨hperm, rfl⟩ := hstep
    refine h.withSubscriptions ?_ fun s hs c hc => ?_
    · have hids := hperm.map Prod.fst
      rwa [List.map_map, List.map_map] at hids
    · obtain ⟨t, ht, hkept⟩ := List.mem_map.mp (hperm.mem_iff.mp (List.mem_map_of_mem hs))
      obtain ⟨hid, -, -, hsubscriptions⟩ : t.id = s.id ∧ t.peerId = s.peerId ∧
          t.topics = s.topics ∧ t.subscriptions = s.subscriptions := by
        simpa [Subscription.kept] using hkept
      rw [← hid]
      exact h.subscribed t ht c (hsubscriptions ▸ hc)

theorem inv_run {acts : List (Act Topic Peer S)} (hstart : Started w₀)
    (h : Run (World.Step writeBytes) w₀ acts w) : Inv w.node w.asked w.issued [] := by
  refine h.stateInvariant (P := fun w => Inv w.node w.asked w.issued []) (inv_started hstart) ?_
  intro t act u ht hstep
  exact inv_step ht hstep

/-- The call id is that of a pending request, which was not written to this stream. -/
def Forged (w : World Topic Peer S) (id : PathId) (request : Option Bytes) : Prop :=
  ∃ msg cid content rest, request = some msg ∧
    (pair usize reminder).decode msg = some ((cid, content), rest) ∧
    cid ∈ w.node.pendingRequests.keys ∧ (id, cid) ∉ w.asked

/-- What a packet of one stream may do: it answers what was asked there, and the calls of other
streams are as before. -/
structure Isolated (w : World Topic Peer S) (id : PathId) (n' : Node Topic Peer S)
    (out : Option Delivery) : Prop where
  answered : ∀ d, out = some d → (id, d.call) ∈ w.asked
  pending : ∀ path call, path ≠ id → (path, call) ∈ w.asked →
    n'.pendingRequests.get call = w.node.pendingRequests.get call
  subscriptions : n'.subscriptions.filter (fun s => s.id ≠ id) =
    w.node.subscriptions.filter fun s => s.id ≠ id

omit [DecidableEq Topic] [DecidableEq Peer] in
theorem isolated_unchanged : Isolated w id w.node none where
  answered d hd := by cases hd
  pending _ _ _ _ := rfl
  subscriptions := rfl

omit [DecidableEq Topic] [DecidableEq Peer] in
/-- The stream that is found by its path. -/
theorem asked_of_get (h : Inv w.node w.asked w.issued []) {cid : CallId} {channel : Channel}
    (hget : ((w.node.subscriptions.find? fun s => s.id = id).bind fun s =>
      s.subscriptions.get cid) = some channel) :
    (id, cid) ∈ w.asked ∧ ∃ s ∈ w.node.subscriptions, cid ∈ s.subscriptions.keys := by
  obtain ⟨s, hfind, hget⟩ := Option.bind_eq_some_iff.mp hget
  have hmem := List.mem_of_find?_eq_some hfind
  have hid : s.id = id := by simpa using List.find?_some hfind
  have hkey := LinearMap.mem_keys_of_get hget
  exact ⟨hid ▸ h.subscribed s hmem cid hkey, s, hmem, hkey⟩

omit [DecidableEq Topic] [DecidableEq Peer] in
/-- A change of a stream with the path does not show in the others. -/
theorem others_updateFirst {q : Subscription Topic Peer S → Bool}
    {f : Subscription Topic Peer S → Subscription Topic Peer S} (hid : ∀ s, (f s).id = s.id)
    {subs : List (Subscription Topic Peer S)} (hq : ∀ s ∈ subs, q s = true → s.id = id) :
    (updateFirst q f subs).filter (fun s => s.id ≠ id) = subs.filter fun s => s.id ≠ id := by
  induction subs with
  | nil => rfl
  | cons s subs ih =>
    have hrest := ih fun t ht => hq t (List.mem_cons_of_mem s ht)
    unfold updateFirst
    split_ifs with hs
    · have hsame := hq s List.mem_cons_self hs
      rw [List.filter_cons_of_neg (by simp [hid, hsame]), List.filter_cons_of_neg (by simp [hsame])]
    · rw [List.filter_cons, List.filter_cons, hrest]

omit [DecidableEq Topic] [DecidableEq Peer] in
/-- A request that is pending on the stream of the packet. -/
theorem isolated_answered (h : Inv w.node w.asked w.issued []) {cid : CallId} {channel : Channel}
    {msg : Bytes} (hasked : (id, cid) ∈ w.asked) :
    Isolated w id { w.node with pendingRequests := w.node.pendingRequests.remove cid }
      (some ⟨cid, channel, msg⟩) where
  answered d hd := by
    cases hd
    exact hasked
  pending path call hpath hcall := by
    have hne : call ≠ cid := by
      rintro rfl
      exact hpath (h.path_eq hcall hasked)
    exact LinearMap.get_remove_of_ne h.requests hne
  subscriptions := rfl

omit [DecidableEq Topic] [DecidableEq Peer] in
/-- Otherwise the subscriptions of the stream are looked through. -/
theorem isolated_subscription (h : Inv w.node w.asked w.issued []) {cid : CallId}
    {channel : Channel} (content : Bytes) (taken : Bool)
    (hget : ((w.node.subscriptions.find? fun s => s.id = id).bind fun s =>
      s.subscriptions.get cid) = some channel) :
    ∃ n' out, w.node.send cid channel content taken = .ok (n', out) ∧ Isolated w id n' out := by
  obtain ⟨hasked, s, hs, hkey⟩ := asked_of_get h hget
  by_cases htaken : taken = true
  · refine ⟨w.node, some ⟨cid, channel, content⟩, if_pos htaken, ?_, fun _ _ _ _ => rfl, rfl⟩
    rintro d ⟨⟩
    exact hasked
  · have hhas : (w.node.subscriptions.any fun s => decide (cid ∈ s.subscriptions.keys)) = true :=
      List.any_eq_true.mpr ⟨s, hs, decide_eq_true hkey⟩
    refine ⟨w.node.unsubscribe cid, none, ?_, fun d hd => ?_, fun _ _ _ _ => rfl, ?_⟩
    · unfold Node.send
      rw [if_neg htaken, if_pos hhas]
    · cases hd
    · -- ids are not given out twice, so the first stream that has it is this one
      have hq : ∀ t ∈ w.node.subscriptions, decide (cid ∈ t.subscriptions.keys) = true →
          t.id = id := fun t ht hkey =>
        h.path_eq (h.subscribed t ht cid (of_decide_eq_true hkey)) hasked
      exact others_updateFirst
        (f := fun s => { s with subscriptions := s.subscriptions.remove cid }) (fun _ => rfl) hq

omit [DecidableEq Topic] [DecidableEq Peer] in
theorem forged_iff {msg : Bytes} {cid : CallId} {content rest : Bytes}
    (hdecode : (pair usize reminder).decode msg = some ((cid, content), rest)) :
    Forged w id (some msg) ↔ cid ∈ w.node.pendingRequests.keys ∧ (id, cid) ∉ w.asked := by
  constructor
  · rintro ⟨msg', cid', content', rest', ⟨⟩, hdecode', hkey, hout⟩
    rw [hdecode] at hdecode'
    cases hdecode'
    exact ⟨hkey, hout⟩
  · rintro ⟨hkey, hout⟩
    exact ⟨msg, cid, content, rest, rfl, hdecode, hkey, hout⟩

omit [DecidableEq Topic] [DecidableEq Peer] in
/-- A packet that decodes. -/
theorem isolated_decoded (h : Inv w.node w.asked w.issued []) {msg : Bytes} {cid : CallId}
    {content rest : Bytes} (hdecode : (pair usize reminder).decode msg = some ((cid, content), rest))
    (taken : Bool) :
    ∃ n' out, w.node.handleSubscriptionResponse id (some msg) taken = .ok (n', out) ∧
      (Isolated w id n' out ↔ ¬(cid ∈ w.node.pendingRequests.keys ∧ (id, cid) ∉ w.asked)) := by
  unfold Node.handleSubscriptionResponse
  simp only [hdecode]
  cases hpending : w.node.pendingRequests.get cid with
  | some channel =>
    have hkey := LinearMap.mem_keys_of_get hpending
    refine ⟨_, _, rfl, fun hisolated hforged => ?_, fun hown => ?_⟩
    · exact hforged.2 (hisolated.answered _ rfl)
    · exact isolated_answered h (not_not.mp fun hout => hown ⟨hkey, hout⟩)
  | none =>
    have hkey := LinearMap.get_eq_none_iff.mp hpending
    have hown : ¬(cid ∈ w.node.pendingRequests.keys ∧ (id, cid) ∉ w.asked) :=
      fun hforged => hkey hforged.1
    cases hget : (w.node.subscriptions.find? fun s => s.id = id).bind fun s =>
        s.subscriptions.get cid with
    | none => exact ⟨w.node, none, rfl, iff_of_true isolated_unchanged hown⟩
    | some channel =>
      obtain ⟨n', out, hresult, hisolated⟩ := isolated_subscription h content taken hget
      exact ⟨n', out, hresult, iff_of_true hisolated hown⟩

/-- In every state a packet is handled, and it is kept to its stream unless it is forged. -/
theorem isolated_iff {acts : List (Act Topic Peer S)} (hstart : Started w₀)
    (h : Run (World.Step writeBytes) w₀ acts w) (id : PathId) (request : Option Bytes)
    (taken : Bool) :
    ∃ n' out, w.node.handleSubscriptionResponse id request taken = .ok (n', out) ∧
      (Isolated w id n' out ↔ ¬Forged w id request) := by
  have hinv := inv_run hstart h
  cases request with
  | none =>
    refine ⟨w.node, none, rfl, iff_of_true isolated_unchanged ?_⟩
    rintro ⟨msg, cid, content, rest, hmsg, -⟩
    cases hmsg
  | some msg =>
    cases hdecode : (pair usize reminder).decode msg with
    | none =>
      refine ⟨w.node, none, ?_, iff_of_true isolated_unchanged ?_⟩
      · unfold Node.handleSubscriptionResponse
        simp only [hdecode]
      · rintro ⟨msg', cid, content, rest, ⟨⟩, hdecode', -⟩
        rw [hdecode] at hdecode'
        cases hdecode'
    | some packet =>
      rw [forged_iff hdecode]
      exact isolated_decoded hinv hdecode taken

end Runs

section Example

/-- Streams that take all bytes. -/
def writeAll (s : Unit) (_ : Bytes) : Option Unit := some s

/-- A stream for topic 10 and one for topic 11. -/
def twoStreams : World ℕ ℕ Unit where
  node :=
    { subscriptions := [⟨0, 20, [10], [], ()⟩, ⟨1, 21, [11], [], ()⟩]
      pendingRequests := []
      pendingTopicSearch := []
      nextPath := 2 }
  asked := []
  issued := []

/-- A request with id 7 was written to the second stream. -/
def requested : World ℕ ℕ Unit where
  node := { twoStreams.node with pendingRequests := [(7, 3)] }
  asked := [(1, 7)]
  issued := [7]

theorem started_twoStreams : Started twoStreams where
  ids := by decide
  opened := by decide
  unsubscribed := by decide
  pending := rfl
  searches := rfl
  asked := rfl

/-- The command that writes the request. -/
def askSecond : Act ℕ ℕ Unit := .command (.request 7 (some 11) [1] 3) fun _ => []

theorem run_requested : Run (World.Step writeAll) twoStreams [askSecond] requested := by
  exact .next askSecond .start ⟨fun _ _ => List.not_mem_nil, [(1, 7)], rfl, rfl, rfl⟩

/-- The server behind the first stream answers the request of the second. -/
theorem other_stream_answers : Started twoStreams ∧
    Run (World.Step writeAll) twoStreams [askSecond] requested ∧
    requested.node.handleSubscriptionResponse 0 (some [7, 0]) true =
      .ok (twoStreams.node, some ⟨7, 3, [7, 0]⟩) ∧
    ¬Isolated requested 0 twoStreams.node (some ⟨7, 3, [7, 0]⟩) := by
  refine ⟨started_twoStreams, run_requested, rfl, fun hisolated => ?_⟩
  have hasked := hisolated.answered _ rfl
  revert hasked
  decide

/-- An answer on the stream that was asked. -/
theorem second_stream_answers : ∃ n' out,
    requested.node.handleSubscriptionResponse 1 (some [7, 0]) true = .ok (n', out) ∧
      (Isolated requested 1 n' out ↔ ¬Forged requested 1 (some [7, 0])) :=
  isolated_iff started_twoStreams run_requested 1 (some [7, 0]) true

end Example

end OrionNetwork.ClientNode
