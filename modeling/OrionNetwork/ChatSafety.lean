import OrionNetwork.ChatPagination

/-!
# Requests with arbitrary contents

The bytes of a sent block and the numbers of a cursor are chosen by whoever sends
the request. The hash of a block is taken without a look at its framing, so a block
that does not end in a frame stops the handler wherever a hash is needed. Reading
by a cursor stays within the block it finds; its arithmetic overflows only in a chat
whose number is the largest there is.
-/
namespace OrionNetwork.ChatReplica
open Codec MessageBlock BlockHash Runs

section SentBlocks

variable {host : Host} {chat : Chat}

/-- There is a message to read from the end of the block. -/
def EndsInFrame (block : Bytes) : Prop :=
  ∃ rest msg, block = rest ++ frame msg ∧ msg.length < 65536

theorem endsInFrame_iff (block : Bytes) : EndsInFrame block ↔ unpackMessages block ≠ [] := by
  constructor
  · rintro ⟨rest, msg, rfl, hmsg⟩
    rw [unpackMessages_append_frame _ _ hmsg]
    exact List.cons_ne_nil _ _
  · intro hne
    cases htake : takeMessage block with
    | none => exact absurd (unpackMessages_none htake) hne
    | some taken =>
      obtain ⟨rest, msg⟩ := taken
      exact ⟨rest, msg, eq_append_frame_of_takeMessage htake⟩

/-- A block without a message has no hash. -/
theorem hashBlock_error {block : Bytes} (h : ¬ EndsInFrame block) :
    hashBlock host block = .error (.expect "we checked size limits") := by
  rw [endsInFrame_iff, not_not] at h
  have hleaves : leafHashes host block = [] := by
    apply List.length_eq_zero_iff.mp
    rw [length_leafHashes, h, List.length_nil]
  rw [hashBlock, hleaves]

/-- Wherever the block is hashed, a block without a message stops the handler. -/
theorem sendBlock_error {index : Slot} {number : ℕ} {block : Bytes}
    (hlast : chat.lastFinalizedBlock host = .ok number) (hblock : ¬ EndsInFrame block)
    (hstage : ∀ others, chat.stage ≠ .unfinalized none others) :
    sendBlock host chat index number block = .error (.expect "we checked size limits") := by
  have hhash : hashBlock host block = _ := hashBlock_error hblock
  unfold sendBlock
  rw [hlast]
  simp only [ne_eq, not_true, if_false]
  cases hcase : chat.stage with
  | unfinalized proposed others =>
    cases proposed with
    | none => exact absurd hcase (hstage others)
    | some own => simp only [hhash]
  | recovering finalHash weFinalized => simp only [hhash]

/-- A block that ends in a frame is answered, whatever comes before the frame. -/
theorem sendBlock_ok {index : Slot} {number k : ℕ} {block : Bytes}
    (hlast : chat.lastFinalizedBlock host = .ok k) (hblock : EndsInFrame block) :
    ∃ out, sendBlock host chat index number block = .ok out := by
  obtain ⟨hash, hhash⟩ := hashBlock_ok host block ((endsInFrame_iff block).mp hblock)
  unfold sendBlock
  rw [hlast]
  simp only
  split_ifs
  · exact ⟨_, rfl⟩
  · cases chat.stage with
    | unfinalized proposed others =>
      cases proposed with
      | none => exact ⟨_, rfl⟩
      | some own =>
        simp only [hhash]
        split_ifs
        · exact ⟨_, rfl⟩
        · exact ⟨_, rfl⟩
    | recovering finalHash weFinalized =>
      simp only [hhash]
      split_ifs
      · exact ⟨_, rfl⟩
      · exact ⟨_, rfl⟩

/-- A block that is not expected, or not any more, changes nothing. -/
theorem unchanged_of_send {index : Slot} {number : ℕ} {block : Bytes}
    {out : Outcome (Except SendBlockError Unit)} (h : SendShape host chat index number block out)
    (hreply : out.reply = .error (.invalidBlock .notExpected) ∨
      out.reply = .error (.invalidBlock .outdated)) : out.chat = chat := by
  cases h with
  | rejected => rfl
  | recorded => rcases hreply with hreply | hreply <;> cases hreply
  | replaced => rcases hreply with hreply | hreply <;> cases hreply
  | recovered => rcases hreply with hreply | hreply <;> cases hreply

/-- Sending any bytes as a block is answered, and leaves the chat alone where the
answer says so, exactly when the number is not that of the block that is missing, or
no block is waited for, or the bytes end in a frame. -/
theorem sendBlock_safe_iff (host : Host) (chat : Chat) (index : Slot) (number k : ℕ) (block : Bytes)
    (hlast : chat.lastFinalizedBlock host = .ok k) :
    (∃ out, sendBlock host chat index number block = .ok out ∧
      (out.reply = .error (.invalidBlock .notExpected) ∨
        out.reply = .error (.invalidBlock .outdated) → out.chat = chat)) ↔
    (k ≠ number ∨ (∃ others, chat.stage = .unfinalized none others) ∨ EndsInFrame block) := by
  constructor
  · rintro ⟨out, hout, -⟩
    by_contra hnot
    simp only [not_or, not_exists, ne_eq, not_not] at hnot
    obtain ⟨rfl, hstage, hblock⟩ := hnot
    rw [sendBlock_error hlast hblock hstage] at hout
    cases hout
  · intro hsafe
    have hanswer : ∃ out, sendBlock host chat index number block = .ok out := by
      rcases hsafe with hnumber | ⟨others, hstage⟩ | hblock
      · unfold sendBlock
        rw [hlast]
        exact ⟨_, if_pos hnumber⟩
      · unfold sendBlock
        rw [hlast]
        simp only [hstage]
        split_ifs
        · exact ⟨_, rfl⟩
        · exact ⟨_, rfl⟩
      · exact sendBlock_ok hlast hblock
    obtain ⟨out, hout⟩ := hanswer
    exact ⟨out, hout, unchanged_of_send (sendBlock_shape hout)⟩

/-- A chat that proposed its first block is sent one message for it. -/
theorem sendBlock_safe_frame :
    ∃ out, sendBlock (demoHost true) (proposedChat Hash.zero ⟨filled 7, []⟩) 0 0 (frame [1]) =
      .ok out := by
  have hlast : (proposedChat Hash.zero ⟨filled 7, []⟩).lastFinalizedBlock (demoHost true) =
      .ok 0 := rfl
  obtain ⟨out, hout, -⟩ := (sendBlock_safe_iff _ _ 0 0 0 (frame [1]) hlast).mpr
    (.inr (.inr ⟨[], [1], rfl, by decide⟩))
  exact ⟨out, hout⟩

/-- A replica that has proposed its first block, and one that was outvoted then, stop
at an empty block and at one whose length is cut off. -/
theorem sendBlock_panics : ∃ proposing recovering,
    Run (Step (demoHost true)) (Node.init Hash.zero) ((fillers ++ [filler]).map .push) proposing ∧
    proposing.chat.lastFinalizedBlock (demoHost true) = .ok 0 ∧
    sendBlock (demoHost true) proposing.chat 0 0 [] =
      .error (.expect "we checked size limits") ∧
    Run (Step (demoHost true)) (Node.init Hash.zero)
      ((fillers ++ [filler]).map .push ++
        [.propose 0 0 (filled 1), .propose 1 0 (filled 1), .propose 2 0 (filled 1)]) recovering ∧
    recovering.chat.lastFinalizedBlock (demoHost true) = .ok 0 ∧
    sendBlock (demoHost true) recovering.chat 0 0 [9] =
      .error (.expect "we checked size limits") := by
  have hfill := (run_proposed (fun _ _ => True) (fun _ _ => trivial) true Hash.zero).unguard
  generalize fillers.flatMap frame = own at hfill
  have hempty : ¬ EndsInFrame [] := by
    rw [endsInFrame_iff, not_not]
    rfl
  have hshort : ¬ EndsInFrame [9] := by
    rw [endsInFrame_iff, not_not]
    rfl
  refine ⟨_, _, hfill, rfl, ?_, hfill.append (.next _ (.next _ (.next _ .start (.propose rfl))
    (.propose rfl)) (.propose rfl)), rfl, ?_⟩
  · apply sendBlock_error rfl hempty
    rintro others ⟨⟩
  · apply sendBlock_error rfl hshort
    rintro others ⟨⟩

end SentBlocks

section Cursors

/-- What arithmetic and slicing can run into. -/
inductive FetchFault where
  | overflow
  | underflow
  | sliceRange
  deriving DecidableEq

/-- A cursor with the widths it has on the wire. -/
structure ClientCursor where
  block : UInt64
  offset : UInt64
  deriving DecidableEq

def ClientCursor.init : ClientCursor := ⟨UInt64.ofNat (2 ^ 64 - 1), 0⟩

def ClientCursor.toCursor (cursor : ClientCursor) : Cursor :=
  ⟨cursor.block.toNat, cursor.offset.toNat⟩

/-- A chat whose number is a `u64` and whose blocks are slices. -/
structure StoredChat where
  chat : Chat
  number_lt : chat.blockNumber < 2 ^ 64
  length_lt : ∀ block ∈ blockChain chat, block.length < 2 ^ 63

def checkedAdd (a b : UInt64) : Except FetchFault UInt64 :=
  if a.toNat + b.toNat < 2 ^ 64 then .ok (a + b) else .error .overflow

def checkedSub (a b : UInt64) : Except FetchFault UInt64 :=
  if b.toNat ≤ a.toNat then .ok (a - b) else .error .underflow

/-- `&bytes[start..end]`. -/
def checkedSlice (bytes : Bytes) (start stop : UInt64) : Except FetchFault Bytes :=
  if start.toNat ≤ stop.toNat ∧ stop.toNat ≤ bytes.length then
    .ok ((bytes.take stop.toNat).drop start.toNat)
  else .error .sliceRange

/-- `.map(|msg| msg.len() + 2).sum()`. -/
def checkedSum : List Bytes → UInt64 → Except FetchFault UInt64
  | [], total => .ok total
  | msg :: msgs, total => do
    let length ← checkedAdd (UInt64.ofNat msg.length) 2
    let total ← checkedAdd total length
    checkedSum msgs total

/-- `FetchMessages` once the block is found, with every operation checked. -/
def checkedPage (number offset : UInt64) (block : Bytes) :
    Except FetchFault (ClientCursor × Bytes) := do
  let offset := if offset = 0 then UInt64.ofNat block.length else offset
  if block.length < offset.toNat then .ok (.init, [])
  else
    let page := block.take offset.toNat
    let messageLength ← checkedSum ((unpackMessages page).take messageFetchLimit) 0
    let start ← checkedSub offset messageLength
    let slice ← checkedSlice page start offset
    let offset ← checkedSub offset messageLength
    .ok (⟨number, offset⟩, slice)

/-- The end of the open block in place of `Cursor::INIT`. -/
def ClientCursor.start (chat : Chat) (cursor : ClientCursor) : ClientCursor :=
  if cursor = .init then
    ⟨UInt64.ofNat chat.blockNumber, UInt64.ofNat chat.currentBlock.length⟩
  else cursor

/-- `FetchMessages` after the initial cursor was replaced. -/
def checkedFrom (chat : Chat) (cursor : ClientCursor) : Except FetchFault (ClientCursor × Bytes) :=
  if cursor.offset = 0 ∧ cursor.block = 0 then .ok (.init, [])
  else
    match (if cursor.offset = 0 then checkedAdd cursor.block 1 else .ok cursor.block) with
    | .error fault => .error fault
    | .ok number =>
      match (blockChain chat)[chat.blockNumber - number.toNat]? with
      | none => .ok (.init, [])
      | some block => checkedPage number cursor.offset block

/-- `FetchMessages::execute` on a chat that exists, with every operation checked. The
chat is only borrowed. -/
def checkedFetch (chat : Chat) (cursor : ClientCursor) :
    Except FetchFault (Chat × ClientCursor × Bytes) := do
  let reply ← checkedFrom chat (cursor.start chat)
  .ok (chat, reply)

/-- The messages a page is cut before, in the order in which they were written. -/
def pageFrames (page : Bytes) : List Bytes := ((unpackMessages page).take messageFetchLimit).reverse

/-- Messages that are unpacked are the end of what they are unpacked from. -/
theorem exists_before_messages (n : ℕ) (buffer : Bytes) :
    ∃ older, buffer = older ++ ((unpackMessages buffer).take n).reverse.flatMap frame := by
  induction n generalizing buffer with
  | zero => exact ⟨buffer, by simp⟩
  | succ n ih =>
    cases htake : takeMessage buffer with
    | none => exact ⟨buffer, by rw [unpackMessages_none htake]; simp⟩
    | some taken =>
      obtain ⟨rest, msg⟩ := taken
      obtain ⟨older, holder⟩ := ih rest
      have hbuffer := (eq_append_frame_of_takeMessage htake).1
      refine ⟨older, ?_⟩
      rw [unpackMessages_some htake, List.take_succ_cons, List.reverse_cons, List.flatMap_append,
        List.flatMap_singleton, ← List.append_assoc, ← holder]
      exact hbuffer

theorem length_flatMap_frame_reverse (msgs : List Bytes) :
    (msgs.reverse.flatMap frame).length = (msgs.map fun msg => msg.length + 2).sum := by
  rw [List.length_flatMap, List.map_reverse, List.sum_reverse]
  simp only [length_frame]

/-- The bytes of a page are no more than it has. -/
theorem messageLength_le (page : Bytes) : messageLength page ≤ page.length := by
  obtain ⟨older, holder⟩ := exists_before_messages messageFetchLimit page
  have hlength := congrArg List.length holder
  rw [List.length_append, length_flatMap_frame_reverse] at hlength
  unfold messageLength
  omega

theorem drop_messageLength (page : Bytes) :
    page.drop (page.length - messageLength page) = (pageFrames page).flatMap frame := by
  obtain ⟨older, holder⟩ := exists_before_messages messageFetchLimit page
  have hlength := congrArg List.length holder
  rw [List.length_append, length_flatMap_frame_reverse] at hlength
  have hcut : page.length - messageLength page = older.length := by
    unfold messageLength
    omega
  rw [hcut]
  unfold pageFrames
  conv_lhs => rw [holder]
  exact List.drop_left

theorem checkedSum_eq (msgs : List Bytes) (total : UInt64)
    (h : total.toNat + (msgs.map fun msg => msg.length + 2).sum < 2 ^ 64) :
    ∃ sum, checkedSum msgs total = .ok sum ∧
      sum.toNat = total.toNat + (msgs.map fun msg => msg.length + 2).sum := by
  induction msgs generalizing total with
  | nil => exact ⟨total, rfl, rfl⟩
  | cons msg msgs ih =>
    rw [List.map_cons, List.sum_cons] at h ⊢
    have hmsg : (UInt64.ofNat msg.length).toNat = msg.length := by
      rw [UInt64.toNat_ofNat']
      exact Nat.mod_eq_of_lt (by omega)
    have hlength : (UInt64.ofNat msg.length + 2).toNat = msg.length + 2 := by
      rw [UInt64.toNat_add, hmsg]
      exact Nat.mod_eq_of_lt (by simp only [UInt64.reduceToNat]; omega)
    have htotal : (total + (UInt64.ofNat msg.length + 2)).toNat =
        total.toNat + (msg.length + 2) := by
      rw [UInt64.toNat_add, hlength]
      exact Nat.mod_eq_of_lt (by omega)
    obtain ⟨sum, hsum, hvalue⟩ := ih (total + (UInt64.ofNat msg.length + 2)) (by omega)
    refine ⟨sum, ?_, by omega⟩
    have hfirst : checkedAdd (UInt64.ofNat msg.length) 2 = .ok (UInt64.ofNat msg.length + 2) := by
      unfold checkedAdd
      rw [if_pos (by rw [hmsg]; simp only [UInt64.reduceToNat]; omega)]
    have hsecond : checkedAdd total (UInt64.ofNat msg.length + 2) =
        .ok (total + (UInt64.ofNat msg.length + 2)) := by
      unfold checkedAdd
      rw [if_pos (by omega)]
    unfold checkedSum
    rw [hfirst]
    simp only [bind, Except.bind]
    rw [hsecond]
    exact hsum

/-- Where a page ends: at the offset, or at the end of the block. -/
def stopAt (cursor : ClientCursor) (block : Bytes) : ℕ :=
  if cursor.offset = 0 then block.length else cursor.offset.toNat

theorem toNat_ofNat_length {block : Bytes} (h : block.length < 2 ^ 63) :
    (UInt64.ofNat block.length).toNat = block.length := by
  rw [UInt64.toNat_ofNat']
  exact Nat.mod_eq_of_lt (by omega)

theorem toNat_eq_zero_iff (a : UInt64) : a.toNat = 0 ↔ a = 0 := by
  rw [← UInt64.toNat_zero, UInt64.toNat_inj]

theorem checkedSub_ok {a b : UInt64} (h : b.toNat ≤ a.toNat) :
    checkedSub a b = .ok (a - b) ∧ (a - b).toNat = a.toNat - b.toNat :=
  ⟨if_pos h, UInt64.toNat_sub_of_le _ _ (UInt64.le_iff_toNat_le.mpr h)⟩

/-- The page before an offset inside the block is cut without a fault. -/
theorem checkedCut_ok {offset : UInt64} {block : Bytes} (hlength : block.length < 2 ^ 63)
    (hinside : offset.toNat ≤ block.length) :
    ∃ sum, checkedSum ((unpackMessages (block.take offset.toNat)).take messageFetchLimit) 0 =
        .ok sum ∧ checkedSub offset sum = .ok (offset - sum) ∧
      (offset - sum).toNat = offset.toNat - messageLength (block.take offset.toNat) ∧
      checkedSlice (block.take offset.toNat) (offset - sum) offset =
        .ok ((pageFrames (block.take offset.toNat)).flatMap frame) := by
  have hpage : (block.take offset.toNat).length = offset.toNat := by
    rw [List.length_take, min_eq_left hinside]
  have hle := messageLength_le (block.take offset.toNat)
  rw [hpage] at hle
  obtain ⟨sum, hsum, hvalue⟩ := checkedSum_eq
    ((unpackMessages (block.take offset.toNat)).take messageFetchLimit) 0 (by
      change 0 + messageLength (block.take offset.toNat) < 2 ^ 64
      omega)
  have hsame : sum.toNat = messageLength (block.take offset.toNat) := by
    rw [hvalue, UInt64.toNat_zero, Nat.zero_add]
    rfl
  obtain ⟨hsub, hstart⟩ := checkedSub_ok (by omega : sum.toNat ≤ offset.toNat)
  rw [hsame] at hstart
  refine ⟨sum, hsum, hsub, hstart, ?_⟩
  have hdrop := drop_messageLength (block.take offset.toNat)
  rw [hpage] at hdrop
  unfold checkedSlice
  rw [if_pos (by omega), hstart, List.take_take, min_self, hdrop]

/-- No operation on a block that was found fails, and the reply is the one of the plain
computation. -/
theorem checkedPage_ok (number : UInt64) (cursor : ClientCursor) {block : Bytes}
    (h : block.length < 2 ^ 63) :
    ∃ next slice, checkedPage number cursor.offset block = .ok (next, slice) ∧
      fetchPage number.toNat cursor.offset.toNat block = (next.toCursor, slice) ∧
      ((next = .init ∧ slice = []) ∨ (stopAt cursor block ≤ block.length ∧
        slice = (pageFrames (block.take (stopAt cursor block))).flatMap frame)) := by
  have hstop : (if cursor.offset = 0 then UInt64.ofNat block.length else cursor.offset).toNat =
      stopAt cursor block := by
    unfold stopAt
    split_ifs
    · exact toNat_ofNat_length h
    · rfl
  have hplain : (if cursor.offset.toNat = 0 then block.length else cursor.offset.toNat) =
      stopAt cursor block := by
    simp only [stopAt, toNat_eq_zero_iff]
  unfold checkedPage fetchPage
  simp only [hplain]
  generalize (if cursor.offset = 0 then UInt64.ofNat block.length else cursor.offset) = offset
    at hstop ⊢
  rw [← hstop]
  by_cases houtside : block.length < offset.toNat
  · rw [if_pos houtside, if_pos houtside]
    exact ⟨.init, [], rfl, rfl, .inl ⟨rfl, rfl⟩⟩
  · have hinside : offset.toNat ≤ block.length := Nat.le_of_not_lt houtside
    obtain ⟨sum, hsum, hsub, hstart, hslice⟩ := checkedCut_ok h hinside
    have hpage : (block.take offset.toNat).length = offset.toNat := by
      rw [List.length_take, min_eq_left hinside]
    have hdrop := drop_messageLength (block.take offset.toNat)
    rw [hpage] at hdrop
    rw [if_neg houtside, if_neg houtside]
    refine ⟨⟨number, offset - sum⟩, (pageFrames (block.take offset.toNat)).flatMap frame, ?_, ?_,
      .inr ⟨hinside, rfl⟩⟩
    · simp only [bind, Except.bind, hsum, hsub, hslice]
    · rw [hdrop, ClientCursor.toCursor, hstart]

theorem toNat_start_block (stored : StoredChat) :
    (ClientCursor.init.start stored.chat).block.toNat = stored.chat.blockNumber := by
  change (UInt64.ofNat stored.chat.blockNumber).toNat = _
  rw [UInt64.toNat_ofNat']
  exact Nat.mod_eq_of_lt stored.number_lt

theorem toCursor_start (stored : StoredChat) (cursor : ClientCursor) :
    (cursor.start stored.chat).toCursor = if cursor.toCursor = .init then
      ⟨stored.chat.blockNumber, stored.chat.currentBlock.length⟩ else cursor.toCursor := by
  have hlength := toNat_ofNat_length (stored.length_lt _ (List.mem_cons_self))
  have hinit : cursor.toCursor = .init ↔ cursor = .init := by
    obtain ⟨block, offset⟩ := cursor
    simp only [ClientCursor.toCursor, Cursor.init, ClientCursor.init, Cursor.mk.injEq,
      ClientCursor.mk.injEq, toNat_eq_zero_iff, ← UInt64.toNat_inj]
    rfl
  by_cases hcursor : cursor = .init
  · rw [if_pos (hinit.mpr hcursor), hcursor, ClientCursor.toCursor, toNat_start_block]
    exact congrArg _ hlength
  · rw [if_neg (hinit.not.mpr hcursor), ClientCursor.start, if_neg hcursor]

/-- Both handlers look for the block of the same number. -/
theorem number_refines (host : Host) {cursor : ClientCursor} {number : UInt64}
    (h : (if cursor.offset = 0 then checkedAdd cursor.block 1 else .ok cursor.block) = .ok number) :
    (if cursor.offset = 0 then addU64 host cursor.block.toNat 1 else .ok cursor.block.toNat) =
      .ok number.toNat := by
  split_ifs at h ⊢ with hoffset
  · unfold checkedAdd at h
    split_ifs at h with hroom
    cases h
    have hplain : cursor.block.toNat + 1 < 2 ^ 64 := hroom
    rw [addU64, if_pos hplain, UInt64.toNat_add]
    exact congrArg _ (Nat.mod_eq_of_lt hroom).symm
  · cases h
    rfl

/-- Where nothing fails, the checked handler is the plain one, in either build. -/
theorem checkedFetch_refines (host : Host) (stored : StoredChat) {cursor next : ClientCursor}
    {after : Chat} {slice : Bytes}
    (h : checkedFetch stored.chat cursor = .ok (after, next, slice)) :
    after = stored.chat ∧
      fetchMessages host stored.chat cursor.toCursor = .ok (next.toCursor, slice) := by
  cases hfrom : checkedFrom stored.chat (cursor.start stored.chat) with
  | error fault =>
    rw [checkedFetch, hfrom] at h
    cases h
  | ok reply =>
    rw [checkedFetch, hfrom] at h
    cases h
    refine ⟨rfl, ?_⟩
    unfold fetchMessages
    simp only [← toCursor_start]
    generalize cursor.start stored.chat = cursor at hfrom ⊢
    unfold checkedFrom at hfrom
    simp only [ClientCursor.toCursor, toNat_eq_zero_iff] at hfrom ⊢
    by_cases hbail : cursor.offset = 0 ∧ cursor.block = 0
    · rw [if_pos hbail] at hfrom ⊢
      cases hfrom
      rfl
    · rw [if_neg hbail] at hfrom ⊢
      cases hnumber : (if cursor.offset = 0 then checkedAdd cursor.block 1 else .ok cursor.block)
        with
      | error fault =>
        rw [hnumber] at hfrom
        cases hfrom
      | ok number =>
        rw [hnumber] at hfrom
        rw [number_refines host hnumber]
        simp only at hfrom ⊢
        cases hblock : (blockChain stored.chat)[stored.chat.blockNumber - number.toNat]? with
        | none =>
          rw [hblock] at hfrom
          cases hfrom
          rfl
        | some block =>
          rw [hblock] at hfrom
          obtain ⟨next', slice', hpage, hplain, -⟩ :=
            checkedPage_ok number cursor (stored.length_lt block (List.mem_of_getElem? hblock))
          simp only [hpage] at hfrom
          cases hfrom
          exact congrArg _ hplain

end Cursors

end OrionNetwork.ChatReplica
