import OrionNetwork.ChatFinality

/-!
# Reading the history of a chat

`FetchMessages` walks from the open block towards older blocks by a cursor. The
number in the cursor should go down at the end of a block. It goes up, and since
the position of a block is `block_number` less that number, saturated at zero,
the walk stays in the open block. It ends there only while no block was ever
finished.
-/
namespace OrionNetwork.ChatReplica
open Codec MessageBlock BlockHash Runs

def messageFetchLimit : ℕ := 20

structure Cursor where
  block : ℕ
  offset : ℕ
  deriving DecidableEq, Repr

/-- `Cursor::INIT`. -/
def Cursor.init : Cursor := ⟨2 ^ 64 - 1, 0⟩

/-- `u64` addition under the overflow mode of the build. -/
def addU64 (host : Host) (a b : ℕ) : Except Panic ℕ :=
  if a + b < 2 ^ 64 then .ok (a + b)
  else if host.overflowChecks then .error .overflow
  else .ok (a + b - 2 ^ 64)

/-- The open block, the proposed one, and the history from its newest block. -/
def blockChain (chat : Chat) : List Bytes :=
  chat.currentBlock :: (chat.stage.unfinalizedBlock.toList ++ chat.finalized.map Block.data)

/-- Bytes taken by the newest messages of a page. -/
def messageLength (page : Bytes) : ℕ :=
  (((unpackMessages page).take messageFetchLimit).map fun msg => msg.length + 2).sum

/-- The part of `FetchMessages` after the block is found. -/
def fetchPage (number offset : ℕ) (block : Bytes) : Cursor × Bytes :=
  let offset := if offset = 0 then block.length else offset
  if block.length < offset then (.init, [])
  else
    let page := block.take offset
    (⟨number, offset - messageLength page⟩, page.drop (offset - messageLength page))

/-- `FetchMessages` on a chat that exists. -/
def fetchMessages (host : Host) (chat : Chat) (cursor : Cursor) : Except Panic (Cursor × Bytes) :=
  let cursor := if cursor = .init then ⟨chat.blockNumber, chat.currentBlock.length⟩ else cursor
  if cursor.offset = 0 ∧ cursor.block = 0 then .ok (.init, [])
  else
    match (if cursor.offset = 0 then addU64 host cursor.block 1 else .ok cursor.block) with
    | .error p => .error p
    | .ok number =>
      match (blockChain chat)[chat.blockNumber - number]? with
      | none => .ok (.init, [])
      | some block => .ok (fetchPage number cursor.offset block)

/-- The messages a reader gets by following the cursors until the initial one
comes back. -/
inductive Pages (host : Host) (chat : Chat) : Cursor → List Bytes → Prop where
  | last {cursor : Cursor} {page : Bytes}
      (h : fetchMessages host chat cursor = .ok (.init, page)) :
      Pages host chat cursor (unpackMessages page)
  | more {cursor next : Cursor} {page : Bytes} {rest : List Bytes}
      (h : fetchMessages host chat cursor = .ok (next, page)) (hnext : next ≠ .init)
      (hrest : Pages host chat next rest) :
      Pages host chat cursor (unpackMessages page ++ rest)

/-- Every message, newest first. -/
def storedMessages (chat : Chat) : List Bytes := (blockChain chat).flatMap unpackMessages

/-- The reader ends, and gets every message once, newest first. -/
def Paginates (host : Host) (chat : Chat) : Prop := Pages host chat .init (storedMessages chat)

variable {host : Host} {chat : Chat}

/-- The handler is a function, so the reader gets one answer. -/
theorem Pages.unique {cursor : Cursor} {msgs msgs' : List Bytes} (h : Pages host chat cursor msgs)
    (h' : Pages host chat cursor msgs') : msgs = msgs' := by
  induction h generalizing msgs' with
  | last h =>
    cases h' with
    | last h' =>
      rw [h, Except.ok.injEq, Prod.mk.injEq] at h'
      rw [h'.2]
    | more h' hnext _ =>
      rw [h, Except.ok.injEq, Prod.mk.injEq] at h'
      exact absurd h'.1.symm hnext
  | more h hnext _ ih =>
    cases h' with
    | last h' =>
      rw [h, Except.ok.injEq, Prod.mk.injEq] at h'
      exact absurd h'.1 hnext
    | more h' _ hrest =>
      rw [h, Except.ok.injEq, Prod.mk.injEq] at h'
      obtain ⟨rfl, rfl⟩ := h'
      rw [ih hrest]

/-- Messages that a frame can hold. -/
def Sized (msgs : List Bytes) : Prop := ∀ m ∈ msgs, m.length < 65536

/-- The newest messages of a framed page are the last ones pushed, and the page
is cut right before them. -/
lemma messageLength_flatMap {old new : List Bytes} (hsized : Sized (old ++ new))
    (hnew : new.length = min messageFetchLimit (old ++ new).length) :
    messageLength ((old ++ new).flatMap frame) = (new.flatMap frame).length := by
  have htake : (old ++ new).reverse.take messageFetchLimit = new.reverse := by
    rw [List.reverse_append]
    obtain hle | hlt := Nat.lt_or_ge messageFetchLimit (old ++ new).length
    · rw [min_eq_left hle.le] at hnew
      rw [← hnew, ← List.length_reverse, List.take_left]
    · rw [min_eq_right hlt, List.length_append] at hnew
      have hold : old = [] := List.length_eq_zero_iff.mp (by omega)
      subst hold
      rw [List.nil_append] at hlt
      rw [List.reverse_nil, List.append_nil, List.take_of_length_le (by simpa using hlt)]
  rw [messageLength, unpackMessages_flatMap_frame _ hsized, htake, List.map_reverse,
    List.sum_reverse, List.length_flatMap]
  simp only [length_frame]

/-- A list of messages without the page that is read first. -/
def olderThanPage (msgs : List Bytes) : List Bytes := msgs.take (msgs.length - messageFetchLimit)

def newestPage (msgs : List Bytes) : List Bytes := msgs.drop (msgs.length - messageFetchLimit)

lemma olderThanPage_append_newestPage (msgs : List Bytes) :
    olderThanPage msgs ++ newestPage msgs = msgs := List.take_append_drop _ _

lemma length_newestPage (msgs : List Bytes) :
    (newestPage msgs).length = min messageFetchLimit msgs.length := by
  rw [newestPage, List.length_drop]
  omega

/-- What one call delivers from the first messages of a block. -/
lemma fetchPage_flatMap {number : ℕ} {read unread : List Bytes} (hsized : Sized (unread ++ read))
    (hne : unread ≠ []) :
    fetchPage number (unread.flatMap frame).length ((unread ++ read).flatMap frame) =
      (⟨number, ((olderThanPage unread).flatMap frame).length⟩,
        (newestPage unread).flatMap frame) := by
  have hpos : (unread.flatMap frame).length ≠ 0 := by
    obtain ⟨m, ms, rfl⟩ := List.exists_cons_of_ne_nil hne
    simp only [List.flatMap_cons, List.length_append, length_frame]
    omega
  have hsplit := olderThanPage_append_newestPage unread
  have hlength : messageLength (unread.flatMap frame) = ((newestPage unread).flatMap frame).length := by
    have hs : Sized (olderThanPage unread ++ newestPage unread) := by
      rw [hsplit]
      exact fun m hm => hsized m (List.mem_append_left _ hm)
    have h := messageLength_flatMap hs (by rw [hsplit]; exact length_newestPage unread)
    rwa [hsplit] at h
  have hcut : (unread.flatMap frame).length - ((newestPage unread).flatMap frame).length =
      ((olderThanPage unread).flatMap frame).length := by
    conv_lhs => rw [← hsplit]
    rw [List.flatMap_append, List.length_append, hsplit]
    omega
  have hdrop : (unread.flatMap frame).drop ((olderThanPage unread).flatMap frame).length =
      (newestPage unread).flatMap frame := by
    conv_lhs => rw [← hsplit]
    rw [List.flatMap_append, hsplit, List.drop_left]
  simp only [fetchPage, if_neg hpos, List.flatMap_append, List.length_append]
  rw [if_neg (by omega), List.take_left, hlength, hcut, hdrop]

lemma fetchPage_whole {number : ℕ} {msgs : List Bytes} (hsized : Sized msgs) :
    fetchPage number 0 (msgs.flatMap frame) =
      (⟨number, ((olderThanPage msgs).flatMap frame).length⟩, (newestPage msgs).flatMap frame) := by
  by_cases hne : msgs = []
  · subst hne
    rfl
  · have happend : msgs ++ [] = msgs := List.append_nil msgs
    have h : fetchPage number (msgs.flatMap frame).length ((msgs ++ []).flatMap frame) = _ :=
      fetchPage_flatMap (by rwa [happend]) hne
    rw [happend] at h
    rw [← h]
    simp [fetchPage]

lemma unpackMessages_newestPage {msgs : List Bytes} (hsized : Sized msgs) :
    unpackMessages ((newestPage msgs).flatMap frame) = (newestPage msgs).reverse :=
  unpackMessages_flatMap_frame _ fun m hm => hsized m (List.mem_of_mem_drop hm)

/-- Inside the open block the cursor moves to the next older page. -/
lemma fetchMessages_inside (host : Host) {b : ℕ} {unread read : List Bytes}
    (hblock : chat.currentBlock = (unread ++ read).flatMap frame) (hsized : Sized (unread ++ read))
    (hne : unread ≠ []) (hb : chat.blockNumber ≤ b)
    (hinit : Cursor.mk b (unread.flatMap frame).length ≠ .init) :
    fetchMessages host chat ⟨b, (unread.flatMap frame).length⟩ =
      .ok (⟨b, ((olderThanPage unread).flatMap frame).length⟩, (newestPage unread).flatMap frame) := by
  have hpos : (unread.flatMap frame).length ≠ 0 := by
    obtain ⟨m, ms, rfl⟩ := List.exists_cons_of_ne_nil hne
    simp only [List.flatMap_cons, List.length_append, length_frame]
    omega
  have hchain : (blockChain chat)[chat.blockNumber - b]? = some chat.currentBlock := by
    rw [Nat.sub_eq_zero_of_le hb]
    rfl
  simp only [fetchMessages, if_neg hinit, hpos, false_and, if_false, hchain]
  rw [hblock, fetchPage_flatMap hsized hne]

/-- At the end of the open block the number in the cursor grows, and the open
block is read again. -/
lemma fetchMessages_end (host : Host) {b : ℕ} {msgs : List Bytes}
    (hblock : chat.currentBlock = msgs.flatMap frame) (hsized : Sized msgs)
    (hb : chat.blockNumber ≤ b) (hpos : b ≠ 0) (hlt : b + 1 < 2 ^ 64) :
    fetchMessages host chat ⟨b, 0⟩ =
      .ok (⟨b + 1, ((olderThanPage msgs).flatMap frame).length⟩, (newestPage msgs).flatMap frame) := by
  have hinit : Cursor.mk b 0 ≠ .init := by
    intro h
    have hblock := congrArg Cursor.block h
    simp only [Cursor.init] at hblock
    omega
  have hchain : (blockChain chat)[chat.blockNumber - (b + 1)]? = some chat.currentBlock := by
    rw [Nat.sub_eq_zero_of_le (by omega)]
    rfl
  simp only [fetchMessages, if_neg hinit, hpos, and_false, if_false, if_true, addU64, if_pos hlt,
    hchain]
  rw [hblock, fetchPage_whole hsized]

/-- Before any block is finished the walk ends in front of the oldest message. -/
lemma fetchMessages_zero : fetchMessages host chat ⟨0, 0⟩ = .ok (.init, []) := by
  simp [fetchMessages, Cursor.init]

/-- The initial cursor stands for the end of the open block. -/
lemma fetchMessages_init (h : Cursor.mk chat.blockNumber chat.currentBlock.length ≠ .init) :
    fetchMessages host chat .init =
      fetchMessages host chat ⟨chat.blockNumber, chat.currentBlock.length⟩ := by
  simp [fetchMessages, h]

lemma Pages.congr {cursor cursor' : Cursor} {msgs : List Bytes}
    (h : fetchMessages host chat cursor = fetchMessages host chat cursor') :
    Pages host chat cursor msgs ↔ Pages host chat cursor' msgs := by
  constructor
  · intro hp
    cases hp with
    | last hl => exact .last (h ▸ hl)
    | more hm hnext hrest => exact .more (h ▸ hm) hnext hrest
  · intro hp
    cases hp with
    | last hl => exact .last (h ▸ hl)
    | more hm hnext hrest => exact .more (h ▸ hm) hnext hrest

/-- While the number is zero, the reader gets the open block and ends. -/
theorem pages_open {unread read : List Bytes}
    (hblock : chat.currentBlock = (unread ++ read).flatMap frame) (hsized : Sized (unread ++ read))
    (hzero : chat.blockNumber = 0) :
    Pages host chat ⟨0, (unread.flatMap frame).length⟩ unread.reverse := by
  induction hn : unread.length using Nat.strong_induction_on generalizing unread read with
  | _ n ih =>
    have hinit (offset : ℕ) : Cursor.mk 0 offset ≠ .init := by
      intro h
      have hb := congrArg Cursor.block h
      simp only [Cursor.init] at hb
      omega
    by_cases hne : unread = []
    · subst hne
      exact .last fetchMessages_zero
    · have hsplit := olderThanPage_append_newestPage unread
      have hpage := length_newestPage unread
      have hlen := congrArg List.length hsplit
      rw [List.length_append, hpage] at hlen
      have hpos : 0 < unread.length := List.length_pos_iff.mpr hne
      have hlimit : 0 < messageFetchLimit := by decide
      have hall : olderThanPage unread ++ (newestPage unread ++ read) = unread ++ read := by
        rw [← List.append_assoc, hsplit]
      have hrest := ih (olderThanPage unread).length (by omega) (hall ▸ hblock) (hall ▸ hsized) rfl
      have hpages := Pages.more (fetchMessages_inside host hblock hsized hne hzero.le (hinit _))
        (hinit _) hrest
      have hnew : Sized unread := fun m hm => hsized m (List.mem_append_left _ hm)
      rwa [unpackMessages_newestPage hnew, ← List.reverse_append, hsplit] at hpages

/-- Messages left to deliver when the number of the cursor only grows: the rest
of this reading of the open block, and one reading for each larger number. -/
def remaining (msgs unread : List Bytes) (b : ℕ) : ℕ :=
  unread.length + (2 ^ 64 - 1 - b) * msgs.length

lemma flatMap_frame_eq_nil {msgs : List Bytes} (h : (msgs.flatMap frame).length = 0) : msgs = [] := by
  by_contra hne
  obtain ⟨m, ms, rfl⟩ := List.exists_cons_of_ne_nil hne
  simp only [List.flatMap_cons, List.length_append, length_frame] at h
  omega

lemma length_page {msgs : List Bytes} (hsized : Sized msgs) :
    (unpackMessages ((newestPage msgs).flatMap frame)).length + (olderThanPage msgs).length =
      msgs.length := by
  have hlen := congrArg List.length (olderThanPage_append_newestPage msgs)
  rw [List.length_append] at hlen
  rw [unpackMessages_newestPage hsized, List.length_reverse]
  omega

/-- Past the first block, one call keeps the cursor in the open block. -/
lemma fetchMessages_remaining (host : Host) {msgs unread read : List Bytes} {b : ℕ}
    (hblock : chat.currentBlock = msgs.flatMap frame) (hsized : Sized msgs)
    (hpos : 0 < chat.blockNumber) (hsplit : msgs = unread ++ read) (hb : chat.blockNumber ≤ b)
    (hlt : b < 2 ^ 64) (hinit : Cursor.mk b (unread.flatMap frame).length ≠ .init) :
    ∃ b' unread' read' page, fetchMessages host chat ⟨b, (unread.flatMap frame).length⟩ =
        .ok (⟨b', (unread'.flatMap frame).length⟩, page) ∧ msgs = unread' ++ read' ∧
      chat.blockNumber ≤ b' ∧ b' < 2 ^ 64 ∧
      (unpackMessages page).length + remaining msgs unread' b' = remaining msgs unread b := by
  by_cases hne : unread = []
  · subst hne
    have hb1 : b + 1 < 2 ^ 64 := by
      have hlast : b ≠ 2 ^ 64 - 1 := fun h => hinit (by rw [h]; rfl)
      omega
    refine ⟨b + 1, olderThanPage msgs, newestPage msgs, _,
      fetchMessages_end host hblock hsized hb (by omega) hb1,
      (olderThanPage_append_newestPage msgs).symm, by omega, hb1, ?_⟩
    have hpage := length_page hsized
    have hmul : (2 ^ 64 - 1 - b) * msgs.length =
        msgs.length + (2 ^ 64 - 1 - (b + 1)) * msgs.length := by
      rw [show 2 ^ 64 - 1 - b = 1 + (2 ^ 64 - 1 - (b + 1)) by omega, Nat.add_mul, Nat.one_mul]
    rw [remaining, remaining, hmul, List.length_nil]
    omega
  · subst hsplit
    have hunread : Sized unread := fun m hm => hsized m (List.mem_append_left _ hm)
    refine ⟨b, olderThanPage unread, newestPage unread ++ read, _,
      fetchMessages_inside host hblock hsized hne hb hinit, ?_, hb, hlt, ?_⟩
    · rw [← List.append_assoc, olderThanPage_append_newestPage]
    · have hpage := length_page hunread
      rw [remaining, remaining]
      omega

/-- Past the first block, the reader counts the number up to its last value and
reads the open block again for each of them. -/
theorem pages_length {msgs got : List Bytes} {cursor : Cursor}
    (hblock : chat.currentBlock = msgs.flatMap frame) (hsized : Sized msgs)
    (hpos : 0 < chat.blockNumber) (h : Pages host chat cursor got) {b : ℕ}
    {unread read : List Bytes} (hsplit : msgs = unread ++ read)
    (hcursor : cursor = ⟨b, (unread.flatMap frame).length⟩) (hb : chat.blockNumber ≤ b)
    (hlt : b < 2 ^ 64) (hinit : cursor ≠ .init) : got.length = remaining msgs unread b := by
  induction h generalizing b unread read with
  | last h =>
    subst hcursor
    obtain ⟨b', unread', read', page', hfetch, -, -, -, hsum⟩ :=
      fetchMessages_remaining host hblock hsized hpos hsplit hb hlt hinit
    rw [h, Except.ok.injEq, Prod.mk.injEq] at hfetch
    obtain ⟨hend, rfl⟩ := hfetch
    obtain ⟨rfl, hoff⟩ := Cursor.mk.inj hend
    have hnil : unread' = [] := flatMap_frame_eq_nil hoff.symm
    subst hnil
    simpa [remaining] using hsum
  | more h hnext hrest ih =>
    subst hcursor
    obtain ⟨b', unread', read', page', hfetch, hsplit', hb', hlt', hsum⟩ :=
      fetchMessages_remaining host hblock hsized hpos hsplit hb hlt hinit
    rw [h, Except.ok.injEq, Prod.mk.injEq] at hfetch
    obtain ⟨rfl, rfl⟩ := hfetch
    rw [List.length_append, ih hsplit' rfl hb' hlt' hnext, hsum]

/-- A block written frame by frame. -/
def Framed (block : Bytes) : Prop := ∃ msgs, Sized msgs ∧ block = msgs.flatMap frame

lemma Framed.nil : Framed [] := ⟨[], by simp [Sized], rfl⟩

lemma Framed.append {block msg : Bytes} (h : Framed block)
    (hroom : msg.length + packetLenWidth ≤ blockSize) : Framed (block ++ frame msg) := by
  obtain ⟨msgs, hsized, rfl⟩ := h
  refine ⟨msgs ++ [msg], fun m hm => ?_, by simp⟩
  obtain hm | hm := List.mem_append.mp hm
  · exact hsized m hm
  · rw [List.mem_singleton.mp hm]
    change msg.length + 2 ≤ 32768 at hroom
    omega

lemma framed_unknownTo (leaves : List Hash) (block : Bytes) : Framed (unknownTo host leaves block) := by
  refine ⟨_, fun m hm => ?_, retainMessagesInVec_eq _ _⟩
  exact length_lt_of_mem_unpackMessages block m (List.mem_of_mem_filter (List.mem_reverse.mp hm))

/-- What makes the history of a chat readable: the open block is framed, every
other block holds a message, and a chat past its first block is not empty. -/
structure Readable (chat : Chat) : Prop where
  framed : Framed chat.currentBlock
  proposed : ∀ own others, chat.stage = .unfinalized (some own) others →
    unpackMessages own.data ≠ [] ∧ 1 ≤ chat.blockNumber ∧ chat.currentBlock ≠ []
  finalized : ∀ block ∈ chat.finalized, unpackMessages block.data ≠ []
  nonempty : 1 ≤ chat.blockNumber → chat.finalized ≠ [] ∨ chat.currentBlock ≠ []

lemma mem_pushToFinalized {block b : Block} (h : b ∈ (chat.pushToFinalized block).finalized) :
    b = block ∨ b ∈ chat.finalized := by
  unfold Chat.pushToFinalized at h
  split_ifs at h
  · exact (List.mem_cons.mp h).imp_right List.mem_of_mem_dropLast
  · exact List.mem_cons.mp h

lemma frame_ne_nil (msg : Bytes) : frame msg ≠ [] := by
  intro h
  have hlen := congrArg List.length h
  simp at hlen

lemma readable_push {msg : Bytes} {out : Outcome (Except (Option Hash) Unit)}
    (hr : Readable chat) (hs : PushShape host chat msg out) : Readable out.chat := by
  have hframe (hroom : msg.length + packetLenWidth ≤ blockSize) : Framed (frame msg) := by
    simpa using Framed.nil.append hroom
  cases hs with
  | stored hfit =>
    have hnil : chat.currentBlock ++ frame msg ≠ [] := by simp [frame_ne_nil]
    exact ⟨hr.framed.append (by omega),
      fun own others hstage => ⟨(hr.proposed own others hstage).1,
        (hr.proposed own others hstage).2.1, hnil⟩,
      hr.finalized, fun _ => .inr hnil⟩
  | blocked => exact hr
  | finalized hfull hroom hhash hstage =>
    refine ⟨hframe hroom, fun own others h => (by cases h), fun b hb => ?_,
      fun _ => .inr (frame_ne_nil msg)⟩
    obtain rfl | hold := mem_pushToFinalized hb
    · exact ne_nil_of_hashBlock hhash
    · exact hr.finalized b hold
  | proposed hfull hroom hhash hstage hfew =>
    refine ⟨hframe hroom, fun own others h => ?_, hr.finalized, fun _ => .inr (frame_ne_nil msg)⟩
    cases h
    exact ⟨ne_nil_of_hashBlock hhash, Nat.le_add_left _ _, frame_ne_nil msg⟩
  | discarded hfull hroom hhash hstage hne =>
    exact ⟨hframe hroom, fun own others h => (by cases h), hr.finalized,
      fun _ => .inr (frame_ne_nil msg)⟩

lemma readable_propose {index : Slot} {number : ℕ} {hash : Hash} {after : Chat}
    {pushed : Option (ℕ × Hash)} (hr : Readable chat)
    (hs : ProposeShape host chat index number hash after pushed) : Readable after := by
  cases hs with
  | ignored => exact hr
  | recorded hlast hnumber hstage =>
    rename_i k proposed others
    refine ⟨hr.framed, fun own others' h => ?_, hr.finalized, hr.nonempty⟩
    cases h
    exact hr.proposed own others hstage
  | finalized hlast hnumber hstage hown hvotes =>
    rename_i k own others
    refine ⟨hr.framed, fun own others h => (by cases h), fun b hb => ?_,
      fun _ => .inl (by simp [Chat.pushToFinalized])⟩
    obtain rfl | hold := mem_pushToFinalized hb
    · exact (hr.proposed _ others hstage).1
    · exact hr.finalized b hold
  | outvoted hlast hnumber hstage hown hvotes =>
    exact ⟨hr.framed, fun own others h => (by cases h), hr.finalized, hr.nonempty⟩
  | overtaken hlast hnumber hstage hvotes =>
    exact ⟨hr.framed, fun own others h => (by cases h), hr.finalized, hr.nonempty⟩

lemma readable_send {index : Slot} {number : ℕ} {block : Bytes}
    {out : Outcome (Except SendBlockError Unit)} (hr : Readable chat)
    (hs : SendShape host chat index number block out) : Readable out.chat := by
  cases hs with
  | rejected reason => exact hr
  | recorded hlast hstage hhash hfew =>
    rename_i own others hash leaves
    refine ⟨hr.framed, fun own others' h => ?_, hr.finalized, hr.nonempty⟩
    cases h
    exact hr.proposed _ others hstage
  | replaced hlast hstage hhash hvotes =>
    refine ⟨hr.framed, fun own others h => (by cases h), fun b hb => ?_,
      fun _ => .inl (by simp [Chat.pushToFinalized])⟩
    obtain rfl | hold := mem_pushToFinalized hb
    · exact ne_nil_of_hashBlock hhash
    · exact hr.finalized b hold
  | recovered hlast hstage hhash =>
    refine ⟨framed_unknownTo _ _, fun own others h => ?_, fun b hb => ?_,
      fun _ => .inl (by simp [Chat.pushToFinalized])⟩
    · rw [stage_pushToFinalized] at h
      exact absurd (hstage.symm.trans h) (by simp)
    · obtain rfl | hold := mem_pushToFinalized hb
      · exact ne_nil_of_hashBlock hhash
      · exact hr.finalized b hold

theorem readable_run {id : Identity} {es : List Event} {node : Node}
    (h : Run (Step host) (Node.init id) es node) : Readable node.chat := by
  refine h.stateInvariant (P := fun node => Readable node.chat) ?_ (fun node e next hr he => ?_)
  · exact ⟨.nil, fun own others h => (by cases h), by simp [Node.init, new], by simp [Node.init, new]⟩
  · cases he with
    | push h => exact readable_push hr (pushMessage_shape h)
    | propose h => exact readable_propose hr (proposeMsgBlock_shape h)
    | send h => exact readable_send hr (sendBlock_shape h)

/-- A readable chat past its first block stores a message. -/
lemma Readable.storedMessages_ne_nil (hr : Readable chat) (hpos : 0 < chat.blockNumber) :
    storedMessages chat ≠ [] := by
  intro hnil
  have hempty (block : Bytes) (hmem : block ∈ blockChain chat) : unpackMessages block = [] :=
    List.flatMap_eq_nil_iff.mp hnil block hmem
  obtain hfinal | hopen := hr.nonempty hpos
  · obtain ⟨block, rest, hcons⟩ := List.exists_cons_of_ne_nil hfinal
    refine hr.finalized block (by simp [hcons]) (hempty _ ?_)
    simp [blockChain, hcons]
  · obtain ⟨msgs, hsized, hblock⟩ := hr.framed
    have hmsgs := hempty chat.currentBlock (by simp [blockChain])
    rw [hblock, unpackMessages_flatMap_frame _ hsized, List.reverse_eq_nil_iff] at hmsgs
    rw [hblock, hmsgs] at hopen
    exact hopen rfl

/-- While the number is zero there is no proposed block. -/
lemma Readable.storedMessages_zero {msgs : List Bytes} (hr : Readable chat) (hsized : Sized msgs)
    (hblock : chat.currentBlock = msgs.flatMap frame) (hzero : chat.blockNumber = 0) :
    storedMessages chat =
      msgs.reverse ++ (chat.finalized.map Block.data).flatMap unpackMessages := by
  have hproposed : chat.stage.unfinalizedBlock = none := by
    match hstage : chat.stage with
    | .unfinalized (some own) others =>
      have hone := (hr.proposed own others hstage).2.1
      omega
    | .unfinalized none others => rfl
    | .recovering hash w => rfl
  rw [storedMessages, blockChain, hproposed, Option.toList_none, List.nil_append,
    List.flatMap_cons, hblock, unpackMessages_flatMap_frame _ hsized]

lemma init_ne_of_lt {b offset : ℕ} (h : b < 2 ^ 64 - 1) : Cursor.mk b offset ≠ .init := by
  intro he
  have hb := congrArg Cursor.block he
  simp only [Cursor.init] at hb
  omega

lemma pages_init {msgs : List Bytes} (hsized : Sized msgs)
    (hblock : chat.currentBlock = msgs.flatMap frame) (hzero : chat.blockNumber = 0) :
    Pages host chat .init msgs.reverse := by
  have happend : msgs ++ [] = msgs := List.append_nil msgs
  rw [Pages.congr (fetchMessages_init (init_ne_of_lt (by omega))), hzero, hblock]
  exact pages_open (by rw [happend]; exact hblock) (by rwa [happend]) hzero

lemma pages_init_length {msgs got : List Bytes} (hsized : Sized msgs)
    (hblock : chat.currentBlock = msgs.flatMap frame) (hpos : 0 < chat.blockNumber)
    (hlt : chat.blockNumber < 2 ^ 64 - 1) (h : Pages host chat .init got) :
    got.length = (2 ^ 64 - chat.blockNumber) * msgs.length := by
  rw [Pages.congr (fetchMessages_init (init_ne_of_lt hlt)), hblock] at h
  rw [pages_length hblock hsized hpos h (List.append_nil msgs).symm rfl le_rfl (by omega)
    (init_ne_of_lt hlt), remaining,
    show 2 ^ 64 - chat.blockNumber = 1 + (2 ^ 64 - 1 - chat.blockNumber) by omega, Nat.add_mul,
    Nat.one_mul]

/-- In every reachable state without a finished block, the reader gets every
message once, newest first, and the initial cursor comes back. In every other
reachable state it does not, as long as the block number and the stored messages
together can be counted in 64 bits. -/
theorem paginates_iff_unfinished (host : Host) (id : Identity) (es : List Event) (node : Node)
    (h : Run (Step host) (Node.init id) es node) :
    (node.chat.blockNumber = 0 ∧ node.chat.finalized = [] → Paginates host node.chat) ∧
    (node.chat.blockNumber + (storedMessages node.chat).length < 2 ^ 64 →
      Paginates host node.chat → node.chat.blockNumber = 0 ∧ node.chat.finalized = []) := by
  have hr := readable_run h
  obtain ⟨msgs, hsized, hblock⟩ := hr.framed
  refine ⟨?_, fun hcount hpages => ?_⟩
  · rintro ⟨hzero, hfinal⟩
    have hstored := hr.storedMessages_zero hsized hblock hzero
    rw [hfinal, List.map_nil, List.flatMap_nil, List.append_nil] at hstored
    rw [Paginates, hstored]
    exact pages_init hsized hblock hzero
  · have hzero : node.chat.blockNumber = 0 := by
      by_contra hne
      have hpos : 0 < node.chat.blockNumber := Nat.pos_of_ne_zero hne
      have hstored := List.length_pos_iff.mpr (hr.storedMessages_ne_nil hpos)
      have hlen := pages_init_length hsized hblock hpos (by omega) hpages
      have hmsgs : 0 < msgs.length := by
        refine Nat.pos_of_ne_zero fun hm => ?_
        rw [hm, Nat.mul_zero] at hlen
        omega
      have hle : 2 ^ 64 - node.chat.blockNumber ≤
          (2 ^ 64 - node.chat.blockNumber) * msgs.length := Nat.le_mul_of_pos_right _ hmsgs
      omega
    refine ⟨hzero, ?_⟩
    by_contra hfinal
    obtain ⟨block, rest, hcons⟩ := List.exists_cons_of_ne_nil hfinal
    have hsame := hpages.unique (pages_init hsized hblock hzero)
    rw [hr.storedMessages_zero hsized hblock hzero] at hsame
    have hnone := List.append_cancel_left (hsame.trans (List.append_nil _).symm)
    refine hr.finalized block (by simp [hcons]) ?_
    exact List.flatMap_eq_nil_iff.mp hnone block.data (by simp [hcons])

/-- Two messages of the first block are read newest first. -/
theorem paginates_two_messages :
    Run (Step (demoHost true)) (Node.init Hash.zero) [.push [1], .push [2]]
      (Node.holding Hash.zero [[1], [2]]) ∧
    Pages (demoHost true) (Node.holding Hash.zero [[1], [2]]).chat .init [[2], [1]] := by
  have hrun : Run (Step (demoHost true)) (Node.init Hash.zero) [.push [1], .push [2]]
      (Node.holding Hash.zero [[1], [2]]) :=
    (run_holding (fun _ _ => True) (fun _ _ => trivial) Hash.zero [[1], [2]] (by decide)).unguard
  exact ⟨hrun, (paginates_iff_unfinished _ _ _ _ hrun).1 ⟨rfl, rfl⟩⟩

/-- A single message in the open block, read twice. -/
lemma fetchMessages_twice (host : Host) {msg : Bytes} {b : ℕ} (hblock : chat.currentBlock = frame msg)
    (hlen : msg.length < 65536) (hb : chat.blockNumber = b) (hpos : 0 < b) (hlt : b < 2 ^ 64 - 1) :
    fetchMessages host chat .init = .ok (⟨b, 0⟩, frame msg) ∧
      fetchMessages host chat ⟨b, 0⟩ = .ok (⟨b + 1, 0⟩, frame msg) := by
  have hsized : Sized [msg] := fun m hm => by rwa [List.mem_singleton.mp hm]
  have hframe : chat.currentBlock = [msg].flatMap frame := by rw [hblock, List.flatMap_singleton]
  have hold : ((olderThanPage [msg]).flatMap frame).length = 0 := rfl
  have hnew : (newestPage [msg]).flatMap frame = frame msg := List.flatMap_singleton _ _
  constructor
  · have hfetch := fetchMessages_inside host
      (show chat.currentBlock = ([msg] ++ []).flatMap frame from hframe)
      (show Sized ([msg] ++ []) from hsized) (by simp) hb.le (init_ne_of_lt hlt)
    rwa [hold, hnew, ← hframe, ← hb, ← fetchMessages_init (init_ne_of_lt (by omega)), hb] at hfetch
  · have hfetch := fetchMessages_end host hframe hsized hb.le (by omega) (by omega)
    rwa [hold, hnew] at hfetch

/-- Once the first block is proposed, the reader gets the one message of the
open block again and again, and the proposed block never. -/
theorem rereads_open_block : ∃ node,
    Run (Step (demoHost true)) (Node.init Hash.zero) ((fillers ++ [filler]).map .push) node ∧
    fetchMessages (demoHost true) node.chat .init = .ok (⟨1, 0⟩, frame filler) ∧
    fetchMessages (demoHost true) node.chat ⟨1, 0⟩ = .ok (⟨2, 0⟩, frame filler) ∧
    ¬ Paginates (demoHost true) node.chat := by
  have hrun := (run_proposed (fun _ _ => True) (fun _ _ => trivial) true Hash.zero).unguard
  have hfiller : filler.length < 65536 := by
    rw [filler, List.length_replicate]
    decide
  have htwice := fetchMessages_twice (demoHost true)
    (show (proposedChat Hash.zero ⟨filled 7, fillers.flatMap frame⟩).currentBlock = _ from rfl)
    hfiller rfl (by decide) (by decide)
  refine ⟨_, hrun, htwice.1, htwice.2, fun hpages => ?_⟩
  have hsized : Sized [filler] := fun m hm => by rwa [List.mem_singleton.mp hm]
  have hblock : (proposedChat Hash.zero ⟨filled 7, fillers.flatMap frame⟩).currentBlock =
      [filler].flatMap frame := (List.flatMap_singleton _ _).symm
  have hlen := pages_init_length hsized hblock (by decide) (by decide) hpages
  have hchain : blockChain (proposedChat Hash.zero ⟨filled 7, fillers.flatMap frame⟩) =
      [[filler].flatMap frame, fillers.flatMap frame] := by
    rw [blockChain, hblock]
    rfl
  have hpair (a b : Bytes) : [a, b].flatMap unpackMessages = unpackMessages a ++ unpackMessages b := by
    simp
  have hstored : (storedMessages (proposedChat Hash.zero
      ⟨filled 7, fillers.flatMap frame⟩)).length = 32 := by
    rw [storedMessages, hchain, hpair, unpackMessages_fillers,
      unpackMessages_flatMap_frame _ hsized, List.length_append, fillers, List.length_replicate,
      List.length_reverse, List.length_singleton]
  rw [hstored] at hlen
  change 32 = (2 ^ 64 - 1) * 1 at hlen
  omega

end OrionNetwork.ChatReplica
