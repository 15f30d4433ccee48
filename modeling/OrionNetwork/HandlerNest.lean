import OrionNetwork.Mailbox
import OrionNetwork.Collections

/-!
# Requests that wait for events

A handler either answers a request at once or gives back what it has to
remember. The nest keeps that in a slot until an event lets the handler answer.
An event is offered to the slots in order. The handler is taken out of its slot
for that and put back if it still waits; the slot of the one that answers is
removed by moving the last slot into its place.

A handler is a parameter, as is everything that an event or a context holds.
-/
namespace OrionNetwork.Handlers
open Codec Collections Runs
open Rpc (CallId)
open Mailbox (RequestOrigin)

/-- What names a request to the one who sent it. -/
structure Identity (Peer : Type) where
  prefixByte : UInt8
  id : CallId
  origin : RequestOrigin Peer

structure Request (Peer : Type) extends Identity Peer where
  body : Bytes

structure Scope (Cx : Type*) (Peer : Type) extends Identity Peer where
  cx : Cx

/-- An error is a handler that waits. The context and the response buffer are
what the handler makes of them. -/
structure Handler (H Cx Buf Req Event : Type*) (Peer : Type) where
  decode : Bytes → Option Req
  executeAndEncode : Scope Cx Peer → Req → Buf → Except H (Option Unit) × Cx × Buf
  resumeAndEncode : H → Scope Cx Peer → Event → Buf → Except H (Option Unit) × Cx × Buf

/-- An event of the node, as far as a nest can tell. -/
structure Unwrapping (E Event : Type*) where
  tryUnwrap : E → Except E Event
  wrap : Event → E

inductive HandlerExecError where
  | decodeRequest
  | unknownPrefix
  deriving DecidableEq

structure HandlerInstance (H : Type*) (Peer : Type) extends Identity Peer where
  handler : H

structure HandlerNest (H : Type*) (Peer : Type) where
  handlers : List (Option (HandlerInstance H Peer))

variable {H Cx Buf Req Event E : Type*} {Peer : Type}

/-- The slots, the context and the buffer after an event was offered, with the
position and the answer of the handler that took it. -/
structure Offered (H Cx Buf : Type*) (Peer : Type) where
  slots : List (Option (HandlerInstance H Peer))
  cx : Cx
  bp : Buf
  found : Option (ℕ × Option Unit × RequestOrigin Peer × CallId)

namespace Handler

/-- The closure of `find_map` over the slots from position `i` on. An empty
slot panics. -/
def offer (handler : Handler H Cx Buf Req Event Peer) (event : Event) :
    ℕ → List (Option (HandlerInstance H Peer)) → Cx → Buf → Option (Offered H Cx Buf Peer)
  | _, [], cx, bp => some ⟨[], cx, bp, none⟩
  | _, none :: _, _, _ => none
  | i, some read :: slots, cx, bp =>
    match handler.resumeAndEncode read.handler ⟨read.toIdentity, cx⟩ event bp with
    | (.ok res, cx, bp) => some ⟨none :: slots, cx, bp, some (i, res, read.origin, read.id)⟩
    | (.error newHandler, cx, bp) => (handler.offer event (i + 1) slots cx bp).map fun o =>
      { o with slots := some { read with handler := newHandler } :: o.slots }

end Handler

namespace HandlerNest

def empty : HandlerNest H Peer := ⟨[]⟩

/-- Whether the request was answered at once. -/
def execute (handler : Handler H Cx Buf Req Event Peer) (nest : HandlerNest H Peer) (cx : Cx)
    (req : Request Peer) (bp : Buf) :
    Except HandlerExecError Bool × HandlerNest H Peer × Cx × Buf :=
  match handler.decode req.body with
  | none => (.error .decodeRequest, nest, cx, bp)
  | some decoded =>
    match handler.executeAndEncode ⟨req.toIdentity, cx⟩ decoded bp with
    | (.error con, cx, bp) => (.ok false, ⟨nest.handlers ++ [some ⟨req.toIdentity, con⟩]⟩, cx, bp)
    | (.ok _, cx, bp) => (.ok true, nest, cx, bp)

/-- Who gets the answer that is in the buffer, or the event if nobody does. -/
def tryComplete (handler : Handler H Cx Buf Req Event Peer) (events : Unwrapping E Event)
    (nest : HandlerNest H Peer) (cx : Cx) (event : E) (bp : Buf) :
    Option (Except E (RequestOrigin Peer × CallId) × HandlerNest H Peer × Cx × Buf) :=
  match events.tryUnwrap event with
  | .error event => some (.error event, nest, cx, bp)
  | .ok event => (handler.offer event 0 nest.handlers cx bp).map fun o =>
    match o.found with
    | none => (.error (events.wrap event), ⟨o.slots⟩, o.cx, o.bp)
    | some (i, _, origin, id) => (.ok (origin, id), ⟨swapRemove o.slots i⟩, o.cx, o.bp)

/-- The slot that an event empties. -/
def emptied (handler : Handler H Cx Buf Req Event Peer) (events : Unwrapping E Event)
    (nest : HandlerNest H Peer) (cx : Cx) (event : E) (bp : Buf) : Option ℕ :=
  match events.tryUnwrap event with
  | .error _ => none
  | .ok event => ((handler.offer event 0 nest.handlers cx bp).bind (·.found)).map (·.1)

end HandlerNest

/-- The request with this number was answered. -/
structure Completion (Peer : Type) where
  ticket : ℕ
  origin : RequestOrigin Peer
  id : CallId

/-- A nest with what was observed of it. Accepted requests are numbered;
`tickets` moves the numbers the way the nest moves its slots. -/
structure World (H : Type*) (Peer : Type) where
  nest : HandlerNest H Peer
  accepted : List (Identity Peer)
  tickets : List ℕ
  completed : List (Completion Peer)

/-- A call, in whatever context and with whatever buffer. -/
inductive Action (Cx Buf E : Type*) (Peer : Type) where
  | execute (cx : Cx) (req : Request Peer) (bp : Buf)
  | tryComplete (cx : Cx) (event : E) (bp : Buf)

namespace World

def fresh : World H Peer := ⟨.empty, [], [], []⟩

def accept (w : World H Peer) (req : Request Peer) (nest : HandlerNest H Peer) : World H Peer :=
  { nest := nest
    accepted := w.accepted ++ [req.toIdentity]
    tickets := w.tickets ++ [w.accepted.length]
    completed := w.completed }

def complete (w : World H Peer) (i : ℕ) (origin : RequestOrigin Peer) (id : CallId)
    (nest : HandlerNest H Peer) : World H Peer :=
  { nest := nest
    accepted := w.accepted
    tickets := swapRemove w.tickets i
    completed := w.completed ++ [⟨w.tickets.getD i w.accepted.length, origin, id⟩] }

/-- None is a panic. -/
def step (handler : Handler H Cx Buf Req Event Peer) (events : Unwrapping E Event)
    (w : World H Peer) : Action Cx Buf E Peer → Option (World H Peer)
  | .execute cx req bp =>
    match w.nest.execute handler cx req bp with
    | (.ok false, nest, _) => some (w.accept req nest)
    | (_, nest, _) => some { w with nest := nest }
  | .tryComplete cx event bp =>
    match w.nest.tryComplete handler events cx event bp with
    | none => none
    | some (.error _, nest, _) => some { w with nest := nest }
    | some (.ok (origin, id), nest, _) =>
      (w.nest.emptied handler events cx event bp).map fun i => w.complete i origin id nest

def Step (handler : Handler H Cx Buf Req Event Peer) (events : Unwrapping E Event)
    (w : World H Peer) (a : Action Cx Buf E Peer) (w' : World H Peer) : Prop :=
  w.step handler events a = some w'

/-- The request with number `k` is in slot `i`. -/
def Holds (w : World H Peer) (i k : ℕ) (inst : HandlerInstance H Peer) : Prop :=
  w.tickets[i]? = some k ∧ w.nest.handlers[i]? = some (some inst)

/-- Every request is in one slot or was answered once. -/
def Once (w : World H Peer) (k : ℕ) : Prop :=
  ((∃! i, ∃ inst, w.Holds i k inst) ∧ k ∉ w.completed.map (·.ticket)) ∨
    ((∀ i inst, ¬ w.Holds i k inst) ∧ (w.completed.map (·.ticket)).count k = 1)

end World

/-- The handler of a slot after it turned an event down. -/
def Resumed (handler : Handler H Cx Buf Req Event Peer) (event : Event)
    (inst inst' : HandlerInstance H Peer) : Prop :=
  inst'.toIdentity = inst.toIdentity ∧ ∃ cx bp,
    (handler.resumeAndEncode inst.handler ⟨inst.toIdentity, cx⟩ event bp).1 = .error inst'.handler

def Answers (handler : Handler H Cx Buf Req Event Peer) (event : Event)
    (inst : HandlerInstance H Peer) : Prop :=
  ∃ cx bp res, (handler.resumeAndEncode inst.handler ⟨inst.toIdentity, cx⟩ event bp).1 = .ok res

section Offering

variable {handler : Handler H Cx Buf Req Event Peer} {event : Event}

/-- Slots, all of them taken, of numbered requests. -/
def slots (l : List (ℕ × HandlerInstance H Peer)) : List (Option (HandlerInstance H Peer)) :=
  l.map fun e => some e.2

theorem slots_append (l l' : List (ℕ × HandlerInstance H Peer)) :
    slots (l ++ l') = slots l ++ slots l' :=
  List.map_append

/-- The same requests after the handlers of all of them turned an event down. -/
def AllResumed (handler : Handler H Cx Buf Req Event Peer) (event : Event)
    (l l' : List (ℕ × HandlerInstance H Peer)) : Prop :=
  List.Forall₂ (fun e e' => e'.1 = e.1 ∧ Resumed handler event e.2 e'.2) l l'

/-- Either all slots turn the event down or there is a first one that does not. -/
theorem offer_spec (l : List (ℕ × HandlerInstance H Peer)) (i : ℕ) (cx : Cx) (bp : Buf) :
    (∃ l' cx' bp', AllResumed handler event l l' ∧
      handler.offer event i (slots l) cx bp = some ⟨slots l', cx', bp', none⟩) ∨
    ∃ pre e post pre' cx' bp' res, l = pre ++ e :: post ∧ AllResumed handler event pre pre' ∧
      Answers handler event e.2 ∧ handler.offer event i (slots l) cx bp =
        some ⟨slots pre' ++ none :: slots post, cx', bp',
          some (i + pre.length, res, e.2.origin, e.2.id)⟩ := by
  induction l generalizing i cx bp with
  | nil => exact .inl ⟨[], cx, bp, .nil, rfl⟩
  | cons e l ih =>
    have hcons : slots (e :: l) = some e.2 :: slots l := rfl
    rw [hcons, Handler.offer]
    rcases hresume : handler.resumeAndEncode e.2.handler ⟨e.2.toIdentity, cx⟩ event bp
      with ⟨newHandler | res, cx', bp'⟩
    · have hresumed : Resumed handler event e.2 { e.2 with handler := newHandler } :=
        ⟨rfl, cx, bp, by rw [hresume]⟩
      rcases ih (i + 1) cx' bp' with ⟨l', cx'', bp'', hall, hoffer⟩ |
        ⟨pre, e', post, pre', cx'', bp'', res, rfl, hall, hanswers, hoffer⟩
      · refine .inl ⟨(e.1, { e.2 with handler := newHandler }) :: l', cx'', bp'',
          .cons ⟨rfl, hresumed⟩ hall, ?_⟩
        simp only [hoffer]
        rfl
      · refine .inr ⟨e :: pre, e', post, (e.1, { e.2 with handler := newHandler }) :: pre', cx'',
          bp'', res, rfl, .cons ⟨rfl, hresumed⟩ hall, hanswers, ?_⟩
        simp only [hoffer, Option.map_some, List.length_cons, Nat.add_comm pre.length 1,
          Nat.add_assoc]
        rfl
    · exact .inr ⟨[], e, l, [], cx', bp', res, rfl, .nil, ⟨cx, bp, res, by rw [hresume]⟩, rfl⟩

end Offering

section Steps

variable {handler : Handler H Cx Buf Req Event Peer} {events : Unwrapping E Event}
  {w w' : World H Peer} {l l' : List (ℕ × HandlerInstance H Peer)} {a : Action Cx Buf E Peer}

/-- The numbered requests in the slots of a nest. -/
structure Tracks (w : World H Peer) (l : List (ℕ × HandlerInstance H Peer)) : Prop where
  tickets : w.tickets = l.map (·.1)
  handlers : w.nest.handlers = slots l

/-- What a call can do to the requests in the slots. -/
inductive Effect (handler : Handler H Cx Buf Req Event Peer) (events : Unwrapping E Event)
    (w : World H Peer) (l : List (ℕ × HandlerInstance H Peer)) :
    Action Cx Buf E Peer → World H Peer → List (ℕ × HandlerInstance H Peer) → Prop where
  | idle (a : Action Cx Buf E Peer) : Effect handler events w l a w l
  | accepted (cx : Cx) (req : Request Peer) (bp : Buf) (con : H) :
      Effect handler events w l (.execute cx req bp)
        (w.accept req ⟨slots (l ++ [(w.accepted.length, ⟨req.toIdentity, con⟩)])⟩)
        (l ++ [(w.accepted.length, ⟨req.toIdentity, con⟩)])
  | declined (cx : Cx) (bp : Buf) {e : E} {event : Event}
      {l' : List (ℕ × HandlerInstance H Peer)} (he : events.tryUnwrap e = .ok event)
      (hall : AllResumed handler event l l') :
      Effect handler events w l (.tryComplete cx e bp) { w with nest := ⟨slots l'⟩ } l'
  | completed (cx : Cx) (bp : Buf) {e : E} {event : Event}
      {pre post pre' : List (ℕ × HandlerInstance H Peer)} {done : ℕ × HandlerInstance H Peer}
      (he : events.tryUnwrap e = .ok event) (hl : l = pre ++ done :: post)
      (hall : AllResumed handler event pre pre') (hanswers : Answers handler event done.2) :
      Effect handler events w l (.tryComplete cx e bp)
        (w.complete pre.length done.2.origin done.2.id
          ⟨slots (pre' ++ (post.getLast?.toList ++ post.dropLast))⟩)
        (pre' ++ (post.getLast?.toList ++ post.dropLast))

theorem slots_getLast?_dropLast (l : List (ℕ × HandlerInstance H Peer)) :
    (slots l).getLast?.toList ++ (slots l).dropLast = slots (l.getLast?.toList ++ l.dropLast) := by
  rw [slots_append, slots, List.getLast?_map, ← List.map_dropLast, Option.toList_map]
  rfl

theorem execute_effect (h : Tracks w l) (cx : Cx) (req : Request Peer) (bp : Buf) :
    ∃ w' l', w.step handler events (.execute cx req bp) = some w' ∧
      Effect handler events w l (.execute cx req bp) w' l' := by
  simp only [World.step, HandlerNest.execute]
  cases handler.decode req.body with
  | none => exact ⟨w, l, rfl, .idle _⟩
  | some decoded =>
    rcases hexec : handler.executeAndEncode ⟨req.toIdentity, cx⟩ decoded bp
      with ⟨con | res, cx', bp'⟩
    · refine ⟨_, _, ?_, .accepted cx req bp con⟩
      simp only [hexec, h.handlers, slots_append]
      rfl
    · refine ⟨w, l, ?_, .idle _⟩
      simp only [hexec]

theorem tryComplete_effect (h : Tracks w l) (cx : Cx) (e : E) (bp : Buf) :
    ∃ w' l', w.step handler events (.tryComplete cx e bp) = some w' ∧
      Effect handler events w l (.tryComplete cx e bp) w' l' := by
  simp only [World.step, HandlerNest.tryComplete, HandlerNest.emptied]
  cases he : events.tryUnwrap e with
  | error e' => exact ⟨w, l, rfl, .idle _⟩
  | ok event =>
    rw [h.handlers]
    rcases offer_spec l 0 cx bp with ⟨l', cx', bp', hall, hoffer⟩ |
      ⟨pre, done, post, pre', cx', bp', res, hl, hall, hanswers, hoffer⟩
    · refine ⟨_, _, ?_, .declined cx bp he hall⟩
      simp only [hoffer, Option.map_some]
    · refine ⟨_, _, ?_, .completed cx bp he hl hall hanswers⟩
      have hlen : 0 + pre.length = (slots pre').length := by
        rw [Nat.zero_add, hall.length_eq, slots, List.length_map]
      simp only [hoffer, Option.map_some, Option.bind_some, hlen, swapRemove_append_cons,
        slots_getLast?_dropLast, ← slots_append]
      rw [slots, List.length_map, hall.length_eq]

theorem step_effect (h : Tracks w l) (a : Action Cx Buf E Peer) :
    ∃ w' l', w.step handler events a = some w' ∧ Effect handler events w l a w' l' := by
  cases a with
  | execute cx req bp => exact execute_effect h cx req bp
  | tryComplete cx e bp => exact tryComplete_effect h cx e bp

end Steps

section Tickets

variable {handler : Handler H Cx Buf Req Event Peer} {events : Unwrapping E Event}
  {event : Event} {w w' : World H Peer} {l l' : List (ℕ × HandlerInstance H Peer)}
  {a : Action Cx Buf E Peer}

theorem AllResumed.tickets (h : AllResumed handler event l l') : l'.map (·.1) = l.map (·.1) := by
  induction h with
  | nil => rfl
  | cons he _ ih => rw [List.map_cons, List.map_cons, ih, he.1]

theorem AllResumed.of_mem (h : AllResumed handler event l l') {e' : ℕ × HandlerInstance H Peer}
    (he' : e' ∈ l') : ∃ e ∈ l, e'.1 = e.1 ∧ Resumed handler event e.2 e'.2 := by
  induction h with
  | nil => cases he'
  | @cons e d l l' hd _ ih =>
    rcases List.mem_cons.mp he' with rfl | he'
    · exact ⟨e, List.mem_cons_self, hd⟩
    · obtain ⟨e, he, hresumed⟩ := ih he'
      exact ⟨e, List.mem_cons_of_mem _ he, hresumed⟩

theorem AllResumed.exists_of_mem (h : AllResumed handler event l l')
    {e : ℕ × HandlerInstance H Peer} (he : e ∈ l) :
    ∃ e' ∈ l', e'.1 = e.1 ∧ Resumed handler event e.2 e'.2 := by
  induction h with
  | nil => cases he
  | @cons d d' l l' hd _ ih =>
    rcases List.mem_cons.mp he with rfl | he
    · exact ⟨d', List.mem_cons_self, hd⟩
    · obtain ⟨e', he', hresumed⟩ := ih he
      exact ⟨e', List.mem_cons_of_mem _ he', hresumed⟩

/-- Every accepted request is in a slot, under its own name, or was answered,
under its own name. -/
structure Invariant (w : World H Peer) (l : List (ℕ × HandlerInstance H Peer)) : Prop
    extends Tracks w l where
  once : (l.map (·.1) ++ w.completed.map (·.ticket)).Perm (List.range w.accepted.length)
  own : ∀ e ∈ l, w.accepted[e.1]? = some e.2.toIdentity
  returned : ∀ c ∈ w.completed, ∃ identity, w.accepted[c.ticket]? = some identity ∧
    identity.origin = c.origin ∧ identity.id = c.id

theorem Invariant.fresh : Invariant (World.fresh : World H Peer) [] := by
  refine ⟨⟨rfl, rfl⟩, .nil, ?_, ?_⟩
  · intro e he
    cases he
  · intro c hc
    cases hc

theorem Invariant.accepted (h : Invariant w l) (req : Request Peer) (con : H) :
    Invariant (w.accept req ⟨slots (l ++ [(w.accepted.length, ⟨req.toIdentity, con⟩)])⟩)
      (l ++ [(w.accepted.length, ⟨req.toIdentity, con⟩)]) := by
  have hold : ∀ {k : ℕ} {identity : Identity Peer}, w.accepted[k]? = some identity →
      (w.accepted ++ [req.toIdentity])[k]? = some identity := by
    intro k identity hk
    rw [List.getElem?_append_left (List.getElem?_eq_some_iff.mp hk).1, hk]
  refine ⟨⟨?_, rfl⟩, ?_, ?_, ?_⟩
  · simp [World.accept, h.tickets]
  · have hperm := (h.once.append_right [w.accepted.length]).trans
      (.of_eq List.range_succ.symm)
    simp only [World.accept, List.map_append, List.map_cons, List.map_nil, List.length_append,
      List.length_cons, List.length_nil]
    refine .trans ?_ hperm
    rw [List.append_assoc, List.append_assoc]
    exact List.perm_append_comm.append_left _
  · intro e he
    rcases List.mem_append.mp he with he | he
    · exact hold (h.own e he)
    · rw [List.mem_singleton.mp he]
      exact List.getElem?_concat_length
  · intro c hc
    obtain ⟨identity, hidentity, hsame⟩ := h.returned c hc
    exact ⟨identity, hold hidentity, hsame⟩

theorem Invariant.declined (h : Invariant w l) (hall : AllResumed handler event l l') :
    Invariant { w with nest := ⟨slots l'⟩ } l' := by
  refine ⟨⟨?_, rfl⟩, ?_, ?_, h.returned⟩
  · rw [hall.tickets]
    exact h.tickets
  · rw [hall.tickets]
    exact h.once
  · intro e' he'
    obtain ⟨e, he, hticket, hidentity, -⟩ := hall.of_mem he'
    rw [hticket, hidentity]
    exact h.own e he

theorem Invariant.completed {pre post pre' : List (ℕ × HandlerInstance H Peer)}
    {done : ℕ × HandlerInstance H Peer} (h : Invariant w (pre ++ done :: post))
    (hall : AllResumed handler event pre pre') :
    Invariant (w.complete pre.length done.2.origin done.2.id
        ⟨slots (pre' ++ (post.getLast?.toList ++ post.dropLast))⟩)
      (pre' ++ (post.getLast?.toList ++ post.dropLast)) := by
  have htickets : w.tickets = pre.map (·.1) ++ done.1 :: post.map (·.1) := by
    rw [h.tickets, List.map_append, List.map_cons]
  have hlen : pre.length = (pre.map (·.1)).length := by rw [List.length_map]
  have hdone : w.tickets.getD pre.length w.accepted.length = done.1 := by
    rw [htickets, hlen]
    simp
  have hrest := perm_getLast?_dropLast post
  refine ⟨⟨?_, rfl⟩, ?_, ?_, ?_⟩
  · simp only [World.complete]
    rw [htickets, hlen, swapRemove_append_cons, List.map_append, hall.tickets, List.map_append,
      List.getLast?_map, List.map_dropLast, Option.toList_map]
  · simp only [World.complete, hdone]
    refine .trans ?_ h.once
    simp only [List.map_append, List.map_cons, List.map_nil, hall.tickets, List.append_assoc,
      List.cons_append]
    refine .append_left _ ?_
    have htail := hrest.map (·.1)
    rw [List.map_append] at htail
    rw [← List.append_assoc]
    refine (htail.append_right _).trans ?_
    rw [← List.append_assoc]
    exact List.perm_append_singleton done.1 _
  · intro e he
    rcases List.mem_append.mp he with he | he
    · obtain ⟨d, hd, hticket, hidentity, -⟩ := hall.of_mem he
      rw [hticket, hidentity]
      exact h.own d (List.mem_append_left _ hd)
    · exact h.own e (List.mem_append_right _ (List.mem_cons_of_mem _ (hrest.mem_iff.mp he)))
  · intro c hc
    rcases List.mem_append.mp hc with hc | hc
    · exact h.returned c hc
    · rw [List.mem_singleton.mp hc, hdone]
      have hmem : done ∈ pre ++ done :: post := List.mem_append_right _ List.mem_cons_self
      exact ⟨done.2.toIdentity, h.own done hmem, rfl, rfl⟩

theorem Invariant.effect (h : Invariant w l) (heffect : Effect handler events w l a w' l') :
    Invariant w' l' := by
  cases heffect with
  | idle => exact h
  | accepted cx req bp con => exact h.accepted req con
  | declined cx bp he hall => exact h.declined hall
  | completed cx bp he hl hall hanswers =>
    subst hl
    exact h.completed hall

theorem Invariant.run {actions : List (Action Cx Buf E Peer)}
    (h : Run (World.Step handler events) .fresh actions w) : ∃ l, Invariant w l := by
  refine h.stateInvariant (P := fun w => ∃ l, Invariant w l) ⟨[], .fresh⟩ ?_
  rintro t a u ⟨l, hl⟩ hstep
  obtain ⟨w', l', hw', heffect⟩ := step_effect hl.toTracks a
  cases hstep.symm.trans hw'
  exact ⟨l', hl.effect heffect⟩

theorem Tracks.holds_iff (h : Tracks w l) (i k : ℕ) (inst : HandlerInstance H Peer) :
    w.Holds i k inst ↔ l[i]? = some (k, inst) := by
  rw [World.Holds, h.tickets, h.handlers, slots, List.getElem?_map, List.getElem?_map]
  cases l[i]? with
  | none => simp
  | some e => simp [Prod.ext_iff]

theorem Invariant.exactlyOnce (h : Invariant w l) {k : ℕ} (hk : k < w.accepted.length) :
    w.Once k := by
  have hnodup := h.once.nodup_iff.mpr List.nodup_range
  obtain ⟨hslots, hcompleted, hdisjoint⟩ := List.nodup_append.mp hnodup
  have hmem := h.once.mem_iff.mpr (List.mem_range.mpr hk)
  rcases List.mem_append.mp hmem with hheld | hdone
  · refine .inl ⟨?_, fun hdone => hdisjoint k hheld k hdone rfl⟩
    obtain ⟨i, hi⟩ := List.mem_iff_getElem?.mp hheld
    obtain ⟨⟨k', inst⟩, he, rfl⟩ := Option.map_eq_some_iff.mp ((List.getElem?_map ..).symm.trans hi)
    refine ⟨i, ⟨inst, (h.holds_iff _ _ _).mpr he⟩, ?_⟩
    rintro j ⟨inst', hj⟩
    have hj' : (l.map (·.1))[j]? = some k' := by
      rw [List.getElem?_map, (h.holds_iff _ _ _).mp hj, Option.map_some]
    have hlt := (List.getElem?_eq_some_iff.mp hj').1
    exact (List.getElem?_inj hlt hslots).mp (hj'.trans hi.symm)
  · refine .inr ⟨?_, List.count_eq_one_of_mem hcompleted hdone⟩
    intro i inst hi
    have hheld : k ∈ l.map (·.1) :=
      List.mem_map.mpr ⟨_, List.mem_of_getElem? ((h.holds_iff _ _ _).mp hi), rfl⟩
    exact hdisjoint k hheld k hdone rfl

/-- What becomes of a waiting request in a call. -/
inductive Continues (handler : Handler H Cx Buf Req Event Peer) (events : Unwrapping E Event)
    (w : World H Peer) (k : ℕ) (inst : HandlerInstance H Peer) :
    Action Cx Buf E Peer → World H Peer → Prop where
  | answered (cx : Cx) (bp : Buf) {e : E} {event : Event} {w' : World H Peer}
      {c : Completion Peer} (he : events.tryUnwrap e = .ok event)
      (hanswers : Answers handler event inst) (hcompleted : w'.completed = w.completed ++ [c])
      (hticket : c.ticket = k) : Continues handler events w k inst (.tryComplete cx e bp) w'
  | resumed (cx : Cx) (bp : Buf) {e : E} {event : Event} {w' : World H Peer} {i : ℕ}
      {inst' : HandlerInstance H Peer} (he : events.tryUnwrap e = .ok event)
      (hresumed : Resumed handler event inst inst') (hholds : w'.Holds i k inst') :
      Continues handler events w k inst (.tryComplete cx e bp) w'
  | untouched (a : Action Cx Buf E Peer) {w' : World H Peer} {i : ℕ}
      (hholds : w'.Holds i k inst) : Continues handler events w k inst a w'

theorem Invariant.continues (h : Invariant w l) (heffect : Effect handler events w l a w' l')
    {i k : ℕ} {inst : HandlerInstance H Peer} (hi : w.Holds i k inst) :
    Continues handler events w k inst a w' := by
  have hafter := h.effect heffect
  have hmem := List.mem_of_getElem? ((h.holds_iff _ _ _).mp hi)
  have hholds : ∀ {k inst}, (k, inst) ∈ l' → ∃ i, w'.Holds i k inst := by
    intro k inst hmem
    obtain ⟨i, hi⟩ := List.mem_iff_getElem?.mp hmem
    exact ⟨i, (hafter.holds_iff _ _ _).mpr hi⟩
  cases heffect with
  | idle => exact .untouched _ hi
  | accepted cx req bp con =>
    obtain ⟨j, hj⟩ := hholds (List.mem_append_left _ hmem)
    exact .untouched _ hj
  | declined cx bp he hall =>
    obtain ⟨⟨k', inst'⟩, hmem', rfl, hresumed⟩ := hall.exists_of_mem hmem
    obtain ⟨j, hj⟩ := hholds hmem'
    exact .resumed cx bp he hresumed hj
  | @completed cx bp e event pre post pre' done he hl hall hanswers =>
    subst hl
    rcases List.mem_append.mp hmem with hmem | hmem
    · obtain ⟨⟨k', inst'⟩, hmem', rfl, hresumed⟩ := hall.exists_of_mem hmem
      obtain ⟨j, hj⟩ := hholds (List.mem_append_left _ hmem')
      exact .resumed cx bp he hresumed hj
    · rcases List.mem_cons.mp hmem with rfl | hmem
      · refine .answered cx bp he hanswers rfl ?_
        simp [h.tickets]
      · have hkept := (perm_getLast?_dropLast post).mem_iff.mpr hmem
        obtain ⟨j, hj⟩ := hholds (List.mem_append_right _ hkept)
        exact .untouched _ hj

/-- In every nest each request that waits is in one slot until it is answered,
once and under its own name, and no answer changes another request. -/
theorem requests_answered_once {actions : List (Action Cx Buf E Peer)}
    (h : Run (World.Step handler events) .fresh actions w) :
    (∀ slot ∈ w.nest.handlers, slot ≠ none) ∧
    (∀ k < w.accepted.length, w.Once k) ∧
    (∀ i k inst, w.Holds i k inst → w.accepted[k]? = some inst.toIdentity) ∧
    (∀ c ∈ w.completed, ∃ identity, w.accepted[c.ticket]? = some identity ∧
      identity.origin = c.origin ∧ identity.id = c.id) ∧
    ∀ a, ∃ w', World.Step handler events w a w' ∧
      ∀ i k inst, w.Holds i k inst → Continues handler events w k inst a w' := by
  obtain ⟨l, hl⟩ := Invariant.run h
  refine ⟨?_, fun k hk => hl.exactlyOnce hk, ?_, hl.returned, ?_⟩
  · intro slot hslot
    rw [hl.handlers] at hslot
    obtain ⟨e, -, rfl⟩ := List.mem_map.mp hslot
    exact Option.some_ne_none e.2
  · intro i k inst hi
    exact hl.own _ (List.mem_of_getElem? ((hl.holds_iff _ _ _).mp hi))
  · intro a
    obtain ⟨w', l', hstep, heffect⟩ := step_effect hl.toTracks a
    exact ⟨w', hstep, fun i k inst hi => hl.continues heffect hi⟩

/-- Waits for as many events as its request is long. -/
def countdown : Handler ℕ Unit Unit Bytes Unit Unit where
  decode := some
  executeAndEncode scope req bp := (.error req.length, scope.cx, bp)
  resumeAndEncode left scope _ bp :=
    match left with
    | 0 => (.ok (some ()), scope.cx, bp)
    | left + 1 => (.error left, scope.cx, bp)

def plain : Unwrapping Unit Unit := ⟨.ok, id⟩

def ask (id : CallId) (body : Bytes) : Action Unit Unit Unit Unit :=
  .execute () ⟨⟨0, id, .client 0⟩, body⟩ ()

def tick : Action Unit Unit Unit Unit := .tryComplete () () ()

def runOf (actions : List (Action Unit Unit Unit Unit)) : World ℕ Unit :=
  actions.foldl (fun w a => (w.step countdown plain a).getD w) .fresh

/-- The second of three requests is answered first. -/
theorem requests_answered_once_countdown :
    (runOf [ask 7 [0], ask 8 [], ask 9 [0, 0], tick]).completed.map (·.ticket) = [1] ∧
      (runOf [ask 7 [0], ask 8 [], ask 9 [0, 0], tick]).Once 2 := by
  have hone : Run (World.Step countdown plain) .fresh [ask 7 [0]] (runOf [ask 7 [0]]) :=
    .single rfl
  have htwo : Run (World.Step countdown plain) .fresh [ask 7 [0], ask 8 []]
      (runOf [ask 7 [0], ask 8 []]) := hone.append (.single rfl)
  have hthree : Run (World.Step countdown plain) .fresh [ask 7 [0], ask 8 [], ask 9 [0, 0]]
      (runOf [ask 7 [0], ask 8 [], ask 9 [0, 0]]) := htwo.append (.single rfl)
  have hrun : Run (World.Step countdown plain) .fresh [ask 7 [0], ask 8 [], ask 9 [0, 0], tick]
      (runOf [ask 7 [0], ask 8 [], ask 9 [0, 0], tick]) := hthree.append (.single rfl)
  exact ⟨by decide +kernel, (requests_answered_once hrun).2.1 2 (by decide +kernel)⟩

end Tickets

end OrionNetwork.Handlers
