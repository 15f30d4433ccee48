import OrionNetwork.Codec

/-!
# Message blocks

A block is a concatenation of messages, each followed by its 16-bit length, so
it is read from its end and the newest message comes first. `retain_messages`
filters a block in place: kept messages are moved towards the end of the buffer
over the holes left by dropped ones. Pointers of the source are indices here.
-/
namespace OrionNetwork.MessageBlock
open Codec

/-- A message followed by its length, as `push_message` writes it. -/
def frame (msg : Bytes) : Bytes := msg ++ encodeLen msg.length

@[simp] theorem length_frame (msg : Bytes) : (frame msg).length = msg.length + 2 := by
  simp [frame]

/-- One call of the closure behind `unpack_messages`: the bytes before the last
message, and that message. -/
def takeMessage (buffer : Bytes) : Option (Bytes × Bytes) :=
  match buffer.drop (buffer.length - 2) with
  | [hi, lo] =>
    let rest := buffer.take (buffer.length - 2)
    let len := decodeLen hi lo
    if len ≤ rest.length then
      some (rest.take (rest.length - len), rest.drop (rest.length - len))
    else none
  | _ => none

theorem takeMessage_frame (buffer msg : Bytes) (h : msg.length < 65536) :
    takeMessage (buffer ++ frame msg) = some (buffer, msg) := by
  have hl : (buffer ++ frame msg).length - 2 = (buffer ++ msg).length := by
    simp; omega
  have hs : buffer ++ frame msg = (buffer ++ msg) ++ encodeLen msg.length := by
    simp [frame]
  simp only [takeMessage, hl]
  rw [hs, List.drop_left, List.take_left, encodeLen]
  simp only [decodeLen_encodeLen msg.length h]
  rw [if_pos (by simp)]
  have hb : (buffer ++ msg).length - msg.length = buffer.length := by simp
  rw [hb, List.take_left, List.drop_left]

theorem eq_append_frame_of_takeMessage {buffer rest msg : Bytes}
    (h : takeMessage buffer = some (rest, msg)) :
    buffer = rest ++ frame msg ∧ msg.length < 65536 := by
  simp only [takeMessage] at h
  split at h
  · rename_i hi lo hlast
    split_ifs at h with hlen
    simp only [Option.some.injEq, Prod.mk.injEq] at h
    obtain ⟨rfl, rfl⟩ := h
    set body := buffer.take (buffer.length - 2) with hbody
    have hmsg : (body.drop (body.length - decodeLen hi lo)).length = decodeLen hi lo := by
      simp only [List.length_drop]; omega
    refine ⟨?_, by rw [hmsg]; exact decodeLen_lt hi lo⟩
    rw [frame, hmsg, encodeLen_decodeLen, ← List.append_assoc, List.take_append_drop,
      ← hlast, hbody, List.take_append_drop]
  · contradiction

/-- Each call shortens the buffer by at least two bytes, so its length is a
sufficient budget. -/
def unpackLoop : ℕ → Bytes → List Bytes
  | 0, _ => []
  | fuel + 1, buffer =>
    match takeMessage buffer with
    | none => []
    | some (rest, msg) => msg :: unpackLoop fuel rest

/-- Messages of a block, newest first. Parsing stops at the first malformed
frame. -/
def unpackMessages (buffer : Bytes) : List Bytes := unpackLoop buffer.length buffer

lemma unpackLoop_eq (fuel fuel' : ℕ) (buffer : Bytes)
    (h : buffer.length ≤ fuel) (h' : buffer.length ≤ fuel') :
    unpackLoop fuel buffer = unpackLoop fuel' buffer := by
  induction fuel generalizing fuel' buffer with
  | zero =>
    have hb : buffer = [] := List.length_eq_zero_iff.mp (by omega)
    subst hb
    cases fuel' <;> rfl
  | succ fuel ih =>
    cases fuel' with
    | zero =>
      have hb : buffer = [] := List.length_eq_zero_iff.mp (by omega)
      subst hb
      rfl
    | succ fuel' =>
      simp only [unpackLoop]
      cases ht : takeMessage buffer with
      | none => rfl
      | some p =>
        have hlen := congrArg List.length (eq_append_frame_of_takeMessage ht).1
        simp only [List.length_append, length_frame] at hlen
        simp only [ih fuel' p.1 (by omega) (by omega)]

theorem unpackMessages_none {buffer : Bytes} (h : takeMessage buffer = none) :
    unpackMessages buffer = [] := by
  cases hb : buffer.length with
  | zero => simp [unpackMessages, hb, unpackLoop]
  | succ n => simp [unpackMessages, hb, unpackLoop, h]

theorem unpackMessages_some {buffer rest msg : Bytes}
    (h : takeMessage buffer = some (rest, msg)) :
    unpackMessages buffer = msg :: unpackMessages rest := by
  have hlen := congrArg List.length (eq_append_frame_of_takeMessage h).1
  simp only [List.length_append, length_frame] at hlen
  obtain ⟨n, hn⟩ : ∃ n, buffer.length = n + 1 := ⟨buffer.length - 1, by omega⟩
  rw [unpackMessages, hn, unpackLoop, h]
  simp only [unpackMessages, unpackLoop_eq n rest.length rest (by omega) le_rfl]

@[simp] theorem unpackMessages_nil : unpackMessages [] = [] := rfl

@[simp] theorem unpackMessages_append_frame (buffer msg : Bytes) (h : msg.length < 65536) :
    unpackMessages (buffer ++ frame msg) = msg :: unpackMessages buffer :=
  unpackMessages_some (takeMessage_frame buffer msg h)

/-- A block framed message by message is read back newest first. -/
theorem unpackMessages_flatMap_frame (msgs : List Bytes) (h : ∀ m ∈ msgs, m.length < 65536) :
    unpackMessages (msgs.flatMap frame) = msgs.reverse := by
  induction msgs using List.reverseRecOn with
  | nil => rfl
  | append_singleton msgs m ih =>
    rw [List.flatMap_append, List.flatMap_singleton,
      unpackMessages_append_frame _ m (h m (by simp)),
      ih (fun m hm => h m (by simp [hm])), List.reverse_append, List.reverse_singleton,
      List.singleton_append]

/-- Induction over a buffer by the messages taken from its end. -/
theorem unpack_induction {P : Bytes → Prop}
    (stuck : ∀ buffer, takeMessage buffer = none → P buffer)
    (more : ∀ buffer rest msg, takeMessage buffer = some (rest, msg) → P rest → P buffer)
    (buffer : Bytes) : P buffer := by
  induction hn : buffer.length using Nat.strong_induction_on generalizing buffer with
  | _ n ih =>
    cases ht : takeMessage buffer with
    | none => exact stuck buffer ht
    | some p =>
      have hlen := congrArg List.length (eq_append_frame_of_takeMessage ht).1
      simp only [List.length_append, length_frame] at hlen
      exact more buffer p.1 p.2 ht (ih p.1.length (by omega) p.1 rfl)

theorem length_lt_of_mem_unpackMessages (buffer : Bytes) :
    ∀ m ∈ unpackMessages buffer, m.length < 65536 := by
  induction buffer using unpack_induction with
  | stuck buffer ht => simp [unpackMessages_none ht]
  | more buffer rest msg ht ih =>
    rw [unpackMessages_some ht]
    simpa using ⟨(eq_append_frame_of_takeMessage ht).2, ih⟩

/-- `ptr::copy` inside one buffer; the regions may overlap. -/
def copy (buffer : Bytes) (src dst len : ℕ) : Bytes :=
  buffer.take dst ++ (buffer.drop src).take len ++ buffer.drop (dst + len)

/-- Moves the kept bytes between the dropped message and the previous hole up
against the bytes already in place. -/
def moveMem (buffer : Bytes) (holeEnd cursor writeCursor len : ℕ) : Bytes × ℕ :=
  if holeEnd = cursor then (buffer, writeCursor)
  else
    let writeLen := holeEnd - cursor - len
    (if holeEnd = writeCursor then buffer
      else copy buffer (holeEnd - writeLen) (writeCursor - writeLen) writeLen,
      writeCursor - writeLen)

def retainLoop (predicate : Bytes → Bool) : ℕ → Bytes → ℕ → ℕ → ℕ → Bytes
  | 0, buffer, writeCursor, cursor, holeEnd =>
    let moved := moveMem buffer holeEnd cursor writeCursor 0
    moved.1.drop moved.2
  | fuel + 1, buffer, writeCursor, cursor, holeEnd =>
    let len := decodeLen (buffer.getD (cursor - 2) 0) (buffer.getD (cursor - 1) 0)
    if cursor < 2 ∨ cursor < len + 2 then
      let moved := moveMem buffer holeEnd cursor writeCursor 0
      moved.1.drop moved.2
    else
      let next := cursor - (len + 2)
      if predicate ((buffer.drop next).take len) then
        retainLoop predicate fuel buffer writeCursor next holeEnd
      else
        let moved := moveMem buffer holeEnd next writeCursor (len + 2)
        retainLoop predicate fuel moved.1 moved.2 next next

/-- The kept region, at the end of the buffer. -/
def retainMessages (buffer : Bytes) (predicate : Bytes → Bool) : Bytes :=
  retainLoop predicate buffer.length buffer buffer.length buffer.length buffer.length

/-- `drain` removes everything before the kept region. -/
def retainMessagesInVec (buffer : Bytes) (predicate : Bytes → Bool) : Bytes :=
  retainMessages buffer predicate

/-- Frames of the messages passing the test, oldest first. -/
def keptFrames (predicate : Bytes → Bool) (msgs : List Bytes) : Bytes :=
  (msgs.filter predicate).reverse.flatMap frame

lemma moveMem_snd (buffer : Bytes) (holeEnd cursor writeCursor len : ℕ)
    (hc : cursor + len ≤ holeEnd) :
    (moveMem buffer holeEnd cursor writeCursor len).2 =
      writeCursor - (holeEnd - cursor - len) := by
  simp only [moveMem]
  split_ifs with h1 h2
  · change writeCursor = _
    omega
  · rfl
  · rfl

/-- Nothing below the bytes being kept is touched. -/
lemma moveMem_take (buffer : Bytes) (holeEnd cursor writeCursor len k : ℕ)
    (hc : cursor + len ≤ holeEnd) (hh : holeEnd ≤ writeCursor) (hw : writeCursor ≤ buffer.length)
    (hk : k ≤ cursor + len) :
    (moveMem buffer holeEnd cursor writeCursor len).1.take k = buffer.take k := by
  simp only [moveMem]
  split_ifs
  · rfl
  · rfl
  · simp only [copy, List.append_assoc]
    rw [List.take_append_of_le_length (by simp only [List.length_take]; omega), List.take_take,
      Nat.min_eq_left (by omega)]

/-- The kept bytes end up directly before those already in place. -/
lemma moveMem_drop (buffer : Bytes) (holeEnd cursor writeCursor len : ℕ)
    (hc : cursor + len ≤ holeEnd) (hh : holeEnd ≤ writeCursor) (hw : writeCursor ≤ buffer.length) :
    (moveMem buffer holeEnd cursor writeCursor len).1.drop
        (moveMem buffer holeEnd cursor writeCursor len).2 =
      (buffer.take holeEnd).drop (cursor + len) ++ buffer.drop writeCursor := by
  rw [moveMem_snd buffer holeEnd cursor writeCursor len hc]
  simp only [moveMem]
  split_ifs with h1 h2
  · have hl : len = 0 := by omega
    subst h1 hl
    simp
  · subst h2
    have hs : holeEnd - (holeEnd - cursor - len) = cursor + len := by omega
    rw [hs]
    have ht := congrArg (List.drop (cursor + len)) (List.take_append_drop holeEnd buffer)
    rw [← ht, List.drop_append_of_le_length (by simp only [List.length_take]; omega)]
  · have hs : holeEnd - (holeEnd - cursor - len) = cursor + len := by omega
    have hd : writeCursor - (holeEnd - cursor - len) + (holeEnd - cursor - len) = writeCursor := by
      omega
    simp only [copy, hs, hd, List.append_assoc]
    rw [List.drop_append_of_le_length (by simp only [List.length_take]; omega),
      List.drop_eq_nil_of_le (by simp only [List.length_take]; omega), List.nil_append,
      List.drop_take, Nat.sub_sub]

lemma length_moveMem (buffer : Bytes) (holeEnd cursor writeCursor len : ℕ)
    (hc : cursor + len ≤ holeEnd) (hh : holeEnd ≤ writeCursor) (hw : writeCursor ≤ buffer.length) :
    (moveMem buffer holeEnd cursor writeCursor len).1.length = buffer.length := by
  simp only [moveMem]
  split_ifs
  · rfl
  · rfl
  · simp only [copy, List.length_append, List.length_take, List.length_drop]
    omega

lemma last_two_take (buffer : Bytes) (cursor : ℕ) (h2 : 2 ≤ cursor) (hc : cursor ≤ buffer.length) :
    (buffer.take cursor).drop (cursor - 2) =
      [buffer.getD (cursor - 2) 0, buffer.getD (cursor - 1) 0] := by
  have h1 : cursor - 2 + 1 = cursor - 1 := by omega
  have h0 : cursor - (cursor - 2) = 2 := by omega
  rw [List.drop_take, h0, List.drop_eq_getElem_cons (by omega), List.take_succ_cons,
    List.drop_eq_getElem_cons (by omega), List.take_succ_cons, List.take_zero]
  simp only [List.getD_eq_getElem?_getD, h1]
  rw [List.getElem?_eq_getElem (by omega), List.getElem?_eq_getElem (by omega)]
  rfl

/-- The scan of `retain_messages` sees the same frames as `unpack_messages`. -/
lemma takeMessage_take (buffer : Bytes) (cursor : ℕ) (hc : cursor ≤ buffer.length) :
    takeMessage (buffer.take cursor) =
      let len := decodeLen (buffer.getD (cursor - 2) 0) (buffer.getD (cursor - 1) 0)
      if cursor < 2 ∨ cursor < len + 2 then none
      else some (buffer.take (cursor - (len + 2)), (buffer.drop (cursor - (len + 2))).take len) := by
  have hlen : (buffer.take cursor).length = cursor := by simp only [List.length_take]; omega
  by_cases h2 : cursor < 2
  · simp only [h2, true_or, if_true]
    simp only [takeMessage, hlen]
    split
    · rename_i hi lo hlast
      have hl := congrArg List.length hlast
      simp only [List.length_drop, hlen, List.length_cons, List.length_nil] at hl
      omega
    · rfl
  · simp only [takeMessage, hlen, last_two_take buffer cursor (by omega) hc, List.take_take]
    set len := decodeLen (buffer.getD (cursor - 2) 0) (buffer.getD (cursor - 1) 0)
    have hm : min (cursor - 2) cursor = cursor - 2 := by omega
    have hl : (buffer.take (cursor - 2)).length = cursor - 2 := by
      simp only [List.length_take]; omega
    simp only [hm, hl]
    by_cases hfit : len ≤ cursor - 2
    · have hs : cursor - 2 - len = cursor - (len + 2) := by omega
      have hm' : min (cursor - (len + 2)) (cursor - 2) = cursor - (len + 2) := by omega
      have hd : cursor - 2 - (cursor - (len + 2)) = len := by omega
      rw [if_pos hfit, if_neg (by omega), hs, hm', List.drop_take, hd]
    · rw [if_neg hfit, if_pos (by omega)]

/-- What the scan has decided lies in two pieces: the kept messages since the
last hole, and those already moved to the end. -/
theorem retainLoop_eq (predicate : Bytes → Bool) (fuel : ℕ) (buffer : Bytes)
    (writeCursor cursor holeEnd : ℕ) (hf : cursor ≤ fuel) (hc : cursor ≤ holeEnd)
    (hh : holeEnd ≤ writeCursor) (hw : writeCursor ≤ buffer.length) :
    retainLoop predicate fuel buffer writeCursor cursor holeEnd =
      keptFrames predicate (unpackMessages (buffer.take cursor)) ++
        ((buffer.take holeEnd).drop cursor ++ buffer.drop writeCursor) := by
  induction fuel generalizing buffer writeCursor cursor holeEnd with
  | zero =>
    have h0 : cursor = 0 := by omega
    subst h0
    simp only [retainLoop, moveMem_drop buffer holeEnd 0 writeCursor 0 (by omega) hh hw]
    simp [keptFrames]
  | succ fuel ih =>
    have hstep := takeMessage_take buffer cursor (by omega)
    simp only [retainLoop]
    simp only at hstep
    set len := decodeLen (buffer.getD (cursor - 2) 0) (buffer.getD (cursor - 1) 0)
    by_cases hstop : cursor < 2 ∨ cursor < len + 2
    · rw [if_pos hstop] at hstep
      rw [if_pos hstop, moveMem_drop buffer holeEnd cursor writeCursor 0 (by omega) hh hw,
        unpackMessages_none hstep]
      simp [keptFrames]
    · rw [if_neg hstop] at hstep ⊢
      set next := cursor - (len + 2) with hnext
      have hn : next + (len + 2) = cursor := by omega
      obtain ⟨hframe, -⟩ := eq_append_frame_of_takeMessage hstep
      rw [unpackMessages_some hstep]
      by_cases hp : predicate ((buffer.drop next).take len) = true
      · -- kept: the frame joins the piece that starts at the cursor
        rw [if_pos hp, ih buffer writeCursor next holeEnd (by omega) (by omega) hh hw]
        have hpiece : (buffer.take holeEnd).drop next =
            frame ((buffer.drop next).take len) ++ (buffer.take holeEnd).drop cursor := by
          have hsplit : (buffer.take holeEnd).drop next =
              (buffer.take cursor).drop next ++ (buffer.take holeEnd).drop cursor := by
            rw [List.drop_take, List.drop_take, List.drop_take]
            have he : holeEnd - next = (cursor - next) + (holeEnd - cursor) := by omega
            have hcn : next + (cursor - next) = cursor := by omega
            rw [he, List.take_add, List.drop_drop, hcn]
          rw [hsplit, hframe, List.drop_append_of_le_length
            (by simp only [List.length_take]; omega),
            List.drop_eq_nil_of_le (by simp only [List.length_take]; omega), List.nil_append]
        rw [hpiece]
        simp [keptFrames, hp]
      · -- dropped: the piece moves, and the hole now starts at the cursor
        have hm2 := moveMem_snd buffer holeEnd next writeCursor (len + 2) (by omega)
        have hml := length_moveMem buffer holeEnd next writeCursor (len + 2) (by omega) hh hw
        have hmd := moveMem_drop buffer holeEnd next writeCursor (len + 2) (by omega) hh hw
        have hmt := moveMem_take buffer holeEnd next writeCursor (len + 2) next (by omega) hh hw
          (by omega)
        rw [if_neg hp, ih _ _ next next (by omega) le_rfl (by omega) (by omega), hmt, hmd, hn]
        simp [keptFrames, hp]

/-- `retain_messages` is a filter: what remains are the frames of the messages
that pass the test, in their order. -/
theorem retainMessagesInVec_eq (buffer : Bytes) (predicate : Bytes → Bool) :
    retainMessagesInVec buffer predicate = keptFrames predicate (unpackMessages buffer) := by
  rw [retainMessagesInVec, retainMessages,
    retainLoop_eq predicate _ _ _ _ _ le_rfl le_rfl le_rfl le_rfl]
  simp

theorem unpackMessages_retain (buffer : Bytes) (predicate : Bytes → Bool) :
    unpackMessages (retainMessagesInVec buffer predicate) =
      (unpackMessages buffer).filter predicate := by
  rw [retainMessagesInVec_eq, keptFrames, unpackMessages_flatMap_frame, List.reverse_reverse]
  intro m hm
  exact length_lt_of_mem_unpackMessages buffer m (List.mem_of_mem_filter (List.mem_reverse.mp hm))

section Shown

variable {σ : Type*}

/-- `retain_messages` with a predicate that has a state of its own and decides by
it. The predicate does not write to the message. -/
def retainLoopMut (predicate : σ → Bytes → Bool × σ) : ℕ → σ → Bytes → ℕ → ℕ → ℕ → Bytes × σ
  | 0, state, buffer, writeCursor, cursor, holeEnd =>
    let moved := moveMem buffer holeEnd cursor writeCursor 0
    (moved.1.drop moved.2, state)
  | fuel + 1, state, buffer, writeCursor, cursor, holeEnd =>
    let len := decodeLen (buffer.getD (cursor - 2) 0) (buffer.getD (cursor - 1) 0)
    if cursor < 2 ∨ cursor < len + 2 then
      let moved := moveMem buffer holeEnd cursor writeCursor 0
      (moved.1.drop moved.2, state)
    else
      let next := cursor - (len + 2)
      let (keep, state) := predicate state ((buffer.drop next).take len)
      if keep then retainLoopMut predicate fuel state buffer writeCursor next holeEnd
      else
        let moved := moveMem buffer holeEnd next writeCursor (len + 2)
        retainLoopMut predicate fuel state moved.1 moved.2 next next

def retainMessagesMut (buffer : Bytes) (predicate : σ → Bytes → Bool × σ) (state : σ) : Bytes × σ :=
  retainLoopMut predicate buffer.length state buffer buffer.length buffer.length buffer.length

/-- A pure test that writes down what it is shown. -/
def recording (predicate : Bytes → Bool) (seen : List Bytes) (msg : Bytes) : Bool × List Bytes :=
  (predicate msg, seen ++ [msg])

/-- What is moved lies behind the cursor, so the messages that are still to be
shown are those of the buffer at the start. -/
theorem retainLoopMut_recording (predicate : Bytes → Bool) (fuel : ℕ) (seen : List Bytes)
    (buffer : Bytes) (writeCursor cursor holeEnd : ℕ) (hf : cursor ≤ fuel) (hc : cursor ≤ holeEnd)
    (hh : holeEnd ≤ writeCursor) (hw : writeCursor ≤ buffer.length) :
    retainLoopMut (recording predicate) fuel seen buffer writeCursor cursor holeEnd =
      (retainLoop predicate fuel buffer writeCursor cursor holeEnd,
        seen ++ unpackMessages (buffer.take cursor)) := by
  induction fuel generalizing seen buffer writeCursor cursor holeEnd with
  | zero =>
    have h0 : cursor = 0 := by omega
    subst h0
    simp [retainLoopMut, retainLoop]
  | succ fuel ih =>
    have hstep := takeMessage_take buffer cursor (by omega)
    simp only [retainLoopMut, retainLoop]
    simp only at hstep
    set len := decodeLen (buffer.getD (cursor - 2) 0) (buffer.getD (cursor - 1) 0)
    by_cases hstop : cursor < 2 ∨ cursor < len + 2
    · rw [if_pos hstop] at hstep
      rw [if_pos hstop, if_pos hstop, unpackMessages_none hstep, List.append_nil]
    · rw [if_neg hstop] at hstep
      rw [if_neg hstop, if_neg hstop, unpackMessages_some hstep]
      set next := cursor - (len + 2) with hnext
      have hseen : (recording predicate seen ((buffer.drop next).take len)).2 =
          seen ++ [(buffer.drop next).take len] := rfl
      by_cases hp : predicate ((buffer.drop next).take len) = true
      · have hkeep : (recording predicate seen ((buffer.drop next).take len)).1 = true := hp
        rw [if_pos hkeep, if_pos hp, hseen,
          ih _ buffer writeCursor next holeEnd (by omega) (by omega) hh hw, List.append_assoc,
          List.singleton_append]
      · have hkeep : ¬ (recording predicate seen ((buffer.drop next).take len)).1 = true := hp
        have hm2 := moveMem_snd buffer holeEnd next writeCursor (len + 2) (by omega)
        have hml := length_moveMem buffer holeEnd next writeCursor (len + 2) (by omega) hh hw
        have hmt := moveMem_take buffer holeEnd next writeCursor (len + 2) next (by omega) hh hw
          (by omega)
        rw [if_neg hkeep, if_neg hp, hseen,
          ih _ _ _ next next (by omega) le_rfl (by omega) (by omega), hmt, List.append_assoc,
          List.singleton_append]

/-- A buffer is its messages after what cannot be read. -/
theorem eq_append_frames (buffer : Bytes) :
    ∃ unread, takeMessage unread = none ∧
      buffer = unread ++ (unpackMessages buffer).reverse.flatMap frame := by
  induction buffer using unpack_induction with
  | stuck buffer ht => exact ⟨buffer, ht, by simp [unpackMessages_none ht]⟩
  | more buffer rest msg ht ih =>
    obtain ⟨unread, hunread, hrest⟩ := ih
    refine ⟨unread, hunread, ?_⟩
    rw [unpackMessages_some ht, List.reverse_cons, List.flatMap_append, List.flatMap_singleton,
      ← List.append_assoc, ← hrest]
    exact (eq_append_frame_of_takeMessage ht).1

/-- Filtering a block in place. What is left are the frames of the messages that
pass the test; the test is shown each message once, newest first; and a second
time there is nothing to drop. -/
theorem retain_filters (buffer : Bytes) (predicate : Bytes → Bool) :
    retainMessagesInVec buffer predicate =
      ((unpackMessages buffer).reverse.filter predicate).flatMap frame ∧
    (∃ unread, takeMessage unread = none ∧
      buffer = unread ++ (unpackMessages buffer).reverse.flatMap frame) ∧
    retainMessagesMut buffer (recording predicate) [] =
      (retainMessagesInVec buffer predicate, unpackMessages buffer) ∧
    retainMessagesInVec (retainMessagesInVec buffer predicate) predicate =
      retainMessagesInVec buffer predicate := by
  refine ⟨?_, eq_append_frames buffer, ?_, ?_⟩
  · rw [retainMessagesInVec_eq, keptFrames, List.filter_reverse]
  · rw [retainMessagesMut, retainLoopMut_recording _ _ _ _ _ _ _ le_rfl le_rfl le_rfl le_rfl,
      List.take_length, List.nil_append]
    rfl
  · rw [retainMessagesInVec_eq (retainMessagesInVec buffer predicate), unpackMessages_retain,
      keptFrames, List.filter_filter, retainMessagesInVec_eq, keptFrames]
    simp only [Bool.and_self]

end Shown

end OrionNetwork.MessageBlock
