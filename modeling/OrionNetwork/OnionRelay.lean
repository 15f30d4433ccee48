import OrionNetwork.Codec
import OrionNetwork.Runs
import OrionNetwork.StreamingBehaviour

/-!
# One direction of a relay

A relay copies what one stream delivers to another. What the other one does not
take at once is kept in a cache and written first on the next call. The streams
are the caller's: it says what each read delivers and how much each write takes.
-/
namespace OrionNetwork.OnionRelay
open Codec Runs
open Streaming (IoError Poll)

structure Stream where
  pollCache : Bytes := []
  written : ℕ := 0

/-- What the cache still has to give away. -/
def Stream.held (s : Stream) : Bytes := s.pollCache.drop s.written

/-- The io call that `forward_from` makes next, or what it returned. -/
inductive Point where
  | flush
  | read
  | copy (temp : Bytes)
  | returned (result : Poll IoError)

inductive Event where
  | call
  | write (answer : Poll (Except IoError ℕ))
  | read (answer : Poll (Except IoError Bytes))

/-- The bytes that were read and the bytes that were written so far are
observations for the proofs. -/
structure Relay where
  stream : Stream := {}
  point : Point := .returned .pending
  taken : Bytes := []
  given : Bytes := []

/-- The buffer that is read into. -/
def tempLen : ℕ := 2 ^ 16

namespace Relay

/-- The head of the outer loop: the cache first, and a read once it is empty. -/
def loopHead (r : Relay) : Relay :=
  if r.stream.written < r.stream.pollCache.length then { r with point := .flush }
  -- `written` stays where it is
  else { r with stream := { r.stream with pollCache := [] }, point := .read }

def finish (r : Relay) (result : Poll IoError) : Relay := { r with point := .returned result }

def flushed (r : Relay) : Poll (Except IoError ℕ) → Relay
  | .pending => r.finish .pending
  | .ready (.error e) => r.finish (.ready e)
  | .ready (.ok w) =>
    if w = 0 then r.finish (.ready .writeZero)
    else loopHead { r with
      stream := { r.stream with written := r.stream.written + w }
      given := r.given ++ r.stream.held.take w }

def received (r : Relay) : Poll (Except IoError Bytes) → Relay
  | .pending => r.finish .pending
  | .ready (.error e) => r.finish (.ready e)
  | .ready (.ok temp) =>
    if temp.length = 0 then r.finish (.ready .unexpectedEof)
    else { r with point := .copy temp, taken := r.taken ++ temp }

/-- A stream that is not ready counts as one that takes nothing. -/
def copied (r : Relay) (temp : Bytes) : Poll (Except IoError ℕ) → Relay
  | .pending => r.finish (.ready .writeZero)
  | .ready (.error e) => r.finish (.ready e)
  | .ready (.ok w) =>
    if w = 0 then r.finish (.ready .writeZero)
    else
      let r := { r with given := r.given ++ temp.take w }
      if w ≠ temp.length then
        loopHead { r with
          stream := { r.stream with pollCache := r.stream.pollCache ++ temp.drop w } }
      else { r with point := .read }

end Relay

/-- A write takes no more than it is offered. -/
def takesAtMost (n : ℕ) : Poll (Except IoError ℕ) → Bool
  | .ready (.ok w) => w ≤ n
  | _ => true

/-- A read delivers no more than there is room for. -/
def deliversAtMost (n : ℕ) : Poll (Except IoError Bytes) → Bool
  | .ready (.ok temp) => temp.length ≤ n
  | _ => true

/-- `forward_from` up to its next io call. -/
def forwardFrom (r : Relay) (e : Event) : Option Relay :=
  match r.point, e with
  | .returned _, .call => some r.loopHead
  | .flush, .write answer =>
    if takesAtMost r.stream.held.length answer then some (r.flushed answer) else none
  | .read, .read answer =>
    if deliversAtMost tempLen answer then some (r.received answer) else none
  | .copy temp, .write answer =>
    if takesAtMost temp.length answer then some (r.copied temp answer) else none
  | _, _ => none

def Step (r : Relay) (e : Event) (r' : Relay) : Prop := forwardFrom r e = some r'

/-- What was read by a call that has yet to write it. -/
def Relay.temp (r : Relay) : Bytes :=
  match r.point with
  | .copy temp => temp
  | _ => []

/-- What was written is the beginning of what was read, and the rest of that is
held. -/
def Relay.Forwards (r : Relay) : Prop :=
  r.given <+: r.taken ∧ r.taken = r.given ++ (r.stream.held ++ r.temp)

/-- What was just read is taken in full, or in part while no part of a cache was
written yet. -/
def KeepsUp (r : Relay) (e : Event) : Prop :=
  match r.point, e with
  | .copy temp, .write (.ready (.ok w)) => 0 < w ∧ (w = temp.length ∨ r.stream.written = 0)
  | .copy _, .write _ => False
  | _, _ => True

/-- What holds at each point while nothing is lost. -/
structure Invariant (r : Relay) : Prop where
  taken_eq : r.taken = r.given ++ (r.stream.held ++ r.temp)
  flush_lt : r.point = .flush → r.stream.written < r.stream.pollCache.length
  read_empty : r.point = .read → r.stream.pollCache = []
  copy_empty : ∀ temp, r.point = .copy temp → r.stream.pollCache = [] ∧ temp ≠ []

namespace Invariant

variable {r r' : Relay} {e : Event}

theorem forwards (h : Invariant r) : r.Forwards :=
  ⟨⟨_, h.taken_eq.symm⟩, h.taken_eq⟩

theorem new : Invariant {} := by
  constructor
  · rfl
  · intro h
    cases h
  · intro h
    cases h
  · intro temp h
    cases h

theorem finish (h : Invariant r) (htemp : r.temp = []) (result : Poll IoError) :
    Invariant (r.finish result) := by
  constructor
  · have htaken := h.taken_eq
    rw [htemp] at htaken
    exact htaken
  · intro hpoint
    cases hpoint
  · intro hpoint
    cases hpoint
  · intro temp hpoint
    cases hpoint

/-- Also when the relay is between two points, as after a write. -/
theorem loopHead (htaken : r.taken = r.given ++ r.stream.held) : Invariant r.loopHead := by
  unfold Relay.loopHead
  split_ifs with hlt
  · constructor
    · rw [htaken]
      exact congrArg (r.given ++ ·) (List.append_nil _).symm
    · intro _
      exact hlt
    · intro hpoint
      cases hpoint
    · intro temp hpoint
      cases hpoint
  · have hnil : r.stream.held = [] := List.drop_eq_nil_of_le (not_lt.mp hlt)
    constructor
    · rw [htaken, hnil]
      simp [Stream.held, Relay.temp]
    · intro hpoint
      cases hpoint
    · intro _
      rfl
    · intro temp hpoint
      cases hpoint

theorem flushed (h : Invariant r) (hpoint : r.point = .flush) (answer : Poll (Except IoError ℕ)) :
    Invariant (r.flushed answer) := by
  have htemp : r.temp = [] := by
    unfold Relay.temp
    rw [hpoint]
  match answer with
  | .pending => exact h.finish htemp _
  | .ready (.error e) => exact h.finish htemp _
  | .ready (.ok w) =>
    simp only [Relay.flushed]
    split_ifs
    · exact h.finish htemp _
    · apply loopHead
      have htaken := h.taken_eq
      rw [htemp, List.append_nil, ← List.take_append_drop w r.stream.held] at htaken
      simpa [Stream.held, List.drop_drop] using htaken

theorem received (h : Invariant r) (hpoint : r.point = .read)
    (answer : Poll (Except IoError Bytes)) : Invariant (r.received answer) := by
  have htemp : r.temp = [] := by
    unfold Relay.temp
    rw [hpoint]
  have hempty := h.read_empty hpoint
  match answer with
  | .pending => exact h.finish htemp _
  | .ready (.error e) => exact h.finish htemp _
  | .ready (.ok temp) =>
    simp only [Relay.received]
    split_ifs with hlen
    · exact h.finish htemp _
    · constructor
      · have htaken := h.taken_eq
        rw [htemp, List.append_nil] at htaken
        simp [htaken, Relay.temp]
      · intro hp
        cases hp
      · intro hp
        cases hp
      · intro temp' hp
        cases hp
        exact ⟨hempty, fun hnil => hlen (by rw [hnil]; rfl)⟩

end Invariant

section Copy

variable {r : Relay} {temp : Bytes}

theorem Invariant.taken_copy (h : Invariant r) (hpoint : r.point = .copy temp) :
    r.taken = r.given ++ temp := by
  have htaken := h.taken_eq
  unfold Relay.temp Stream.held at htaken
  rw [hpoint, (h.copy_empty temp hpoint).1, List.drop_nil, List.nil_append] at htaken
  exact htaken

/-- The read bytes are given away or are the new cache. -/
theorem Invariant.copied (h : Invariant r) (hpoint : r.point = .copy temp) {w : ℕ} (hw : 0 < w)
    (hkeeps : w = temp.length ∨ r.stream.written = 0) : Invariant (r.copied temp (.ready (.ok w))) := by
  have htaken := h.taken_copy hpoint
  have hempty := (h.copy_empty temp hpoint).1
  simp only [Relay.copied, if_neg hw.ne']
  split_ifs with hshort
  · have hwritten := hkeeps.resolve_left hshort
    apply Invariant.loopHead
    simp [Stream.held, hempty, hwritten, htaken]
  · rw [not_not.mp hshort, List.take_length]
    constructor
    · simp [Stream.held, Relay.temp, hempty, htaken]
    · intro hp
      cases hp
    · intro _
      exact hempty
    · intro temp' hp
      cases hp

/-- Nothing is held of what was read. -/
theorem not_forwards_finish (h : Invariant r) (hpoint : r.point = .copy temp)
    (result : Poll IoError) : ¬(r.finish result).Forwards := by
  rintro ⟨-, hheld⟩
  have htaken := h.taken_copy hpoint
  obtain ⟨hempty, htemp⟩ := h.copy_empty temp hpoint
  simp [Relay.finish, Relay.temp, Stream.held, hempty, htaken] at hheld
  exact htemp hheld

/-- An old offset skips the beginning of the new cache. -/
theorem not_forwards_copied (h : Invariant r) (hpoint : r.point = .copy temp) {w : ℕ} (hw : 0 < w)
    (hle : w ≤ temp.length) (hshort : w ≠ temp.length) (hwritten : r.stream.written ≠ 0) :
    ¬(r.copied temp (.ready (.ok w))).Forwards := by
  rintro ⟨-, hheld⟩
  have htaken := h.taken_copy hpoint
  have hempty := (h.copy_empty temp hpoint).1
  simp only [Relay.copied, if_neg hw.ne', if_pos hshort] at hheld
  have hlen := congrArg List.length hheld
  unfold Relay.loopHead at hlen
  split_ifs at hlen
  · simp [Stream.held, Relay.temp, hempty, htaken] at hlen
    omega
  · simp [Stream.held, Relay.temp, htaken] at hlen
    omega

end Copy

section Runs

variable {r r' : Relay} {e : Event} {es : List Event}

/-- Only the write of what was just read can go wrong. -/
theorem Invariant.step_other (h : Invariant r) (hstep : Step r e r')
    (hpoint : ∀ temp, r.point ≠ .copy temp) : Invariant r' := by
  unfold Step forwardFrom at hstep
  split at hstep
  · next result hreturned =>
    cases hstep
    apply Invariant.loopHead
    have htaken := h.taken_eq
    unfold Relay.temp at htaken
    rw [hreturned, List.append_nil] at htaken
    exact htaken
  · next answer hflush =>
    split_ifs at hstep
    cases hstep
    exact h.flushed hflush answer
  · next answer hread =>
    split_ifs at hstep
    cases hstep
    exact h.received hread answer
  · next temp answer hcopy => exact absurd hcopy (hpoint temp)
  · cases hstep

theorem step_copy {temp : Bytes} (hstep : Step r e r') (hpoint : r.point = .copy temp) :
    ∃ answer, e = .write answer ∧ takesAtMost temp.length answer ∧ r' = r.copied temp answer := by
  unfold Step forwardFrom at hstep
  rw [hpoint] at hstep
  cases e with
  | call => cases hstep
  | read answer => cases hstep
  | write answer =>
    simp only at hstep
    split_ifs at hstep with hle
    cases hstep
    exact ⟨answer, rfl, hle, rfl⟩

theorem Invariant.step (h : Invariant r) (hkeeps : KeepsUp r e) (hstep : Step r e r') :
    Invariant r' := by
  by_cases hpoint : ∀ temp, r.point ≠ .copy temp
  · exact h.step_other hstep hpoint
  · push Not at hpoint
    obtain ⟨temp, hcopy⟩ := hpoint
    obtain ⟨answer, rfl, -, rfl⟩ := step_copy hstep hcopy
    unfold KeepsUp at hkeeps
    rw [hcopy] at hkeeps
    match answer with
    | .pending => exact hkeeps.elim
    | .ready (.error e) => exact hkeeps.elim
    | .ready (.ok w) => exact h.copied hcopy hkeeps.1 hkeeps.2

theorem Invariant.keepsUp (h : Invariant r) (hstep : Step r e r') (h' : r'.Forwards) :
    KeepsUp r e := by
  unfold KeepsUp
  split
  · next temp w hcopy =>
    obtain ⟨answer, hanswer, hle, rfl⟩ := step_copy hstep hcopy
    cases hanswer
    by_cases hw : w = 0
    · subst hw
      exact absurd h' (not_forwards_finish h hcopy _)
    · have hpos := Nat.pos_of_ne_zero hw
      refine ⟨hpos, ?_⟩
      by_contra hnot
      obtain ⟨hshort, hwritten⟩ := not_or.mp hnot
      have hle : w ≤ temp.length := by simpa [takesAtMost] using hle
      exact not_forwards_copied h hcopy hpos hle hshort hwritten h'
  · next temp answer hother hcopy =>
    obtain ⟨answer', hanswer, -, rfl⟩ := step_copy hstep hcopy
    cases hanswer
    match answer with
    | .pending => exact not_forwards_finish h hcopy _ h'
    | .ready (.error e) => exact not_forwards_finish h hcopy _ h'
    | .ready (.ok w) => exact hother w rfl
  · trivial

/-- All bytes are forwarded or held at all times of a run exactly if each of its
steps keeps up. -/
theorem forwardFrom_forwards_iff (h : Run Step {} es r) :
    (∀ es' r', es' <+: es → Run Step {} es' r' → r'.Forwards) ↔
      Run (guarded KeepsUp Step) {} es r := by
  apply h.forall_iff_guarded (I := Invariant)
  · intro s e t u ht hu
    exact Option.some_injective _ (ht.symm.trans hu)
  · exact Invariant.new
  · intro t ht
    exact ht.forwards
  · intro t e u ht hkeeps hstep
    exact ht.step hkeeps hstep
  · intro t e u ht hstep hu
    exact ht.keepsUp hstep hu

/-- One short write, and a stream that is not ready for the rest of it at first. -/
theorem forwardFrom_forwards_short : ∃ r,
    Run Step {} [.call, .read (.ready (.ok [1, 2, 3])), .write (.ready (.ok 1)), .write .pending,
      .call, .write (.ready (.ok 1)), .write (.ready (.ok 1)), .read .pending] r ∧
    r.Forwards ∧ r.given = [1, 2, 3] := by
  have hcall : Run (guarded KeepsUp Step) {} [.call] ⟨{}, .read, [], []⟩ := .single ⟨trivial, rfl⟩
  have hread : Run (guarded KeepsUp Step) {} (_ ++ [.read (.ready (.ok [1, 2, 3]))])
      ⟨{}, .copy [1, 2, 3], [1, 2, 3], []⟩ := hcall.next _ ⟨trivial, rfl⟩
  have hshort : Run (guarded KeepsUp Step) {} (_ ++ [.write (.ready (.ok 1))])
      ⟨⟨[2, 3], 0⟩, .flush, [1, 2, 3], [1]⟩ := hread.next _ ⟨⟨one_pos, .inr rfl⟩, rfl⟩
  have hwait : Run (guarded KeepsUp Step) {} (_ ++ [.write .pending])
      ⟨⟨[2, 3], 0⟩, .returned .pending, [1, 2, 3], [1]⟩ := hshort.next _ ⟨trivial, rfl⟩
  have hagain : Run (guarded KeepsUp Step) {} (_ ++ [.call])
      ⟨⟨[2, 3], 0⟩, .flush, [1, 2, 3], [1]⟩ := hwait.next _ ⟨trivial, rfl⟩
  have hflush : Run (guarded KeepsUp Step) {} (_ ++ [.write (.ready (.ok 1))])
      ⟨⟨[2, 3], 1⟩, .flush, [1, 2, 3], [1, 2]⟩ := hagain.next _ ⟨trivial, rfl⟩
  have hempty : Run (guarded KeepsUp Step) {} (_ ++ [.write (.ready (.ok 1))])
      ⟨⟨[], 2⟩, .read, [1, 2, 3], [1, 2, 3]⟩ := hflush.next _ ⟨trivial, rfl⟩
  have hrun : Run (guarded KeepsUp Step) {} (_ ++ [.read .pending])
      ⟨⟨[], 2⟩, .returned .pending, [1, 2, 3], [1, 2, 3]⟩ := hempty.next _ ⟨trivial, rfl⟩
  exact ⟨_, hrun.unguard, (forwardFrom_forwards_iff hrun.unguard).mpr hrun _ _ List.prefix_rfl
    hrun.unguard, rfl⟩

/-- The rest of the second short write is skipped, and what is not taken at all
is dropped. -/
theorem forwardFrom_loses_bytes :
    (∃ r, Run Step {} [.call, .read (.ready (.ok [1, 2])), .write (.ready (.ok 1)),
        .write (.ready (.ok 1)), .read (.ready (.ok [3, 4])), .write (.ready (.ok 1)),
        .read (.ready (.ok [5])), .write (.ready (.ok 1))] r ∧
      r.taken = [1, 2, 3, 4, 5] ∧ r.given = [1, 2, 3, 5] ∧ ¬r.given <+: r.taken) ∧
    ∃ r, Run Step {} [.call, .read (.ready (.ok [1])), .write .pending] r ∧
      r.point = .returned (.ready .writeZero) ∧ ¬r.Forwards := by
  constructor
  · exact ⟨⟨⟨[], 1⟩, .read, [1, 2, 3, 4, 5], [1, 2, 3, 5]⟩, Run.of_foldlM rfl, rfl, rfl, by decide⟩
  · refine ⟨⟨{}, .returned (.ready .writeZero), [1], []⟩, Run.of_foldlM rfl, rfl, ?_⟩
    rintro ⟨-, hheld⟩
    cases hheld

end Runs

end OrionNetwork.OnionRelay
