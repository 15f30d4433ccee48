import OrionNetwork.ChatSteps
import OrionNetwork.CodecTypes

/-!
# Writing a message into the open block

A message is encoded slice by slice into a vector that must not grow. What was
written before a slice did not fit is cut off again, and the message is written
to an emptied block. The open block is then at all times the frames of the
messages that were pushed and have not left it, and a message of the size that
users may send always finds its place.
-/
namespace OrionNetwork.ChatPush
open Codec MessageBlock BlockHash ChatReplica Runs

/-- `NoCapOverflow`: the slices go into the vector as long as they fit. -/
def writeSlices : List Bytes → Bytes → Bytes × Bool
  | [], vec => (vec, true)
  | slice :: slices, vec =>
    if vec.length + slice.length > blockSize then (vec, false)
    else writeSlices slices (vec ++ slice)

/-- `try_push`. A failed write leaves what came before it in the vector. -/
def tryPushSlices (slices : List Bytes) (block : Bytes) : Bytes × Bool :=
  match writeSlices slices block with
  | (vec, false) => (vec, false)
  | (vec, true) => writeSlices [encodeLen (vec.length - block.length)] vec

/-- The second attempt of `push_message`. -/
def pushSlicesAgain (chat : Chat) (slices : List Bytes) (hash : Hash)
    (pushed : Option (ℕ × Hash)) : Except Panic (Outcome (Except (Option Hash) Unit)) :=
  match tryPushSlices slices chat.currentBlock with
  | (block, true) => .ok ⟨{ chat with currentBlock := block }, .error (some hash), pushed⟩
  | (_, false) => .error (.expect "we checked size limits")

/-- `push_message` with the writes it makes. The block is truncated before
anything else is decided. -/
def pushSlices (host : Host) (chat : Chat) (slices : List Bytes) :
    Except Panic (Outcome (Except (Option Hash) Unit)) :=
  match tryPushSlices slices chat.currentBlock with
  | (block, true) => .ok ⟨{ chat with currentBlock := block }, .ok (), none⟩
  | (block, false) =>
    let chat := { chat with currentBlock := block.take chat.currentBlock.length }
    match chat.stage with
    | .unfinalized (some _) _ => .ok ⟨chat, .error none, none⟩
    | .unfinalized none others =>
      match hashBlock host chat.currentBlock with
      | .error p => .error p
      | .ok (hash, _) =>
        if votes others hash ≥ replicationFactor / 2 then
          pushSlicesAgain (chat.finalizeCurrentBlock hash) slices hash
            (some (chat.blockNumber, hash))
        else
          pushSlicesAgain { chat with
              stage := .unfinalized (some ⟨hash, chat.currentBlock⟩) others
              currentBlock := []
              blockNumber := chat.blockNumber + 1 } slices hash none
    | .recovering _ true => .ok ⟨chat, .error none, none⟩
    | .recovering finalHash false =>
      match hashBlock host chat.currentBlock with
      | .error p => .error p
      | .ok (hash, _) =>
        if hash = finalHash then
          pushSlicesAgain (chat.finalizeCurrentBlock hash) slices hash
            (some (chat.blockNumber, hash))
        else
          pushSlicesAgain { chat with stage := .recovering finalHash true, currentBlock := [] }
            slices hash none

/-- The codec of `Message`: arrays and integers are pushed byte by byte. -/
def messageSlices (identity : Identity) (nonce : Nonce) (content : Bytes) : List Bytes :=
  identity.bytes.map (fun byte => [byte]) ++ (base128Encode nonce).map (fun byte => [byte]) ++
    [content]

/-- A chat with the messages that were pushed and have not left the open block,
newest first. -/
structure Held where
  chat : Chat
  messages : List Bytes

inductive Event where
  | push (slices : List Bytes)
  | propose (index : Slot) (number : ℕ) (hash : Hash)
  | send (index : Slot) (number : ℕ) (block : Bytes)

/-- The messages after a push: all earlier ones leave when the block is full. -/
def afterPush (messages : List Bytes) (msg : Bytes) : Except (Option Hash) Unit → List Bytes
  | .ok () => msg :: messages
  | .error none => messages
  | .error (some _) => [msg]

/-- The messages after a foreign block: those it contains leave in recovery. -/
def afterSend (host : Host) (chat : Chat) (block : Bytes) (messages : List Bytes) :
    Except SendBlockError Unit → List Bytes
  | .ok () =>
    match chat.stage with
    | .recovering _ _ =>
      messages.filter fun msg => host.blake3 msg ∉ (unpackMessages block).map host.blake3
    | .unfinalized _ _ => messages
  | .error _ => messages

/-- One handled event. A panicking handler has no step. -/
inductive Step (host : Host) (s : Held) : Event → Held → Prop where
  | push {slices : List Bytes} {out : Outcome (Except (Option Hash) Unit)}
      (h : pushSlices host s.chat slices = .ok out) :
      Step host s (.push slices) ⟨out.chat, afterPush s.messages slices.flatten out.reply⟩
  | propose {index : Slot} {number : ℕ} {hash : Hash} {out : Outcome ProposeReply}
      (h : proposeMsgBlock host s.chat index number hash = .ok out) :
      Step host s (.propose index number hash) ⟨out.chat, s.messages⟩
  | send {index : Slot} {number : ℕ} {block : Bytes}
      {out : Outcome (Except SendBlockError Unit)}
      (h : sendBlock host s.chat index number block = .ok out) :
      Step host s (.send index number block)
        ⟨out.chat, afterSend host s.chat block s.messages out.reply⟩

section Writes

variable {slices : List Bytes} {vec : Bytes}

/-- Writing is all or nothing up to the part that is cut off again. -/
theorem writeSlices_spec (slices : List Bytes) {vec : Bytes} (hvec : vec.length ≤ blockSize) :
    (vec.length + slices.flatten.length ≤ blockSize →
      writeSlices slices vec = (vec ++ slices.flatten, true)) ∧
    (blockSize < vec.length + slices.flatten.length →
      ∃ part, writeSlices slices vec = (vec ++ part, false)) := by
  induction slices generalizing vec with
  | nil =>
    rw [List.flatten_nil, List.length_nil, List.append_nil]
    exact ⟨fun _ => rfl, fun h => by omega⟩
  | cons slice slices ih =>
    rw [List.flatten_cons, List.length_append]
    unfold writeSlices
    by_cases hslice : vec.length + slice.length > blockSize
    · rw [if_pos hslice]
      refine ⟨fun h => by omega, fun _ => ⟨[], ?_⟩⟩
      rw [List.append_nil]
    · rw [if_neg hslice]
      have hlength : (vec ++ slice).length = vec.length + slice.length := List.length_append
      have hroom : (vec ++ slice).length ≤ blockSize := by omega
      obtain ⟨hfits, hfull⟩ := ih hroom
      constructor
      · intro h
        rw [hfits (by omega), List.append_assoc]
      · intro h
        obtain ⟨part, hpart⟩ := hfull (by omega)
        exact ⟨slice ++ part, by rw [hpart, List.append_assoc]⟩

/-- A message is in the block with its length, or what there is of it can be cut
off. -/
theorem tryPushSlices_spec (slices : List Bytes) {block : Bytes} (hblock : block.length ≤ blockSize) :
    (∃ after, tryPush block slices.flatten = some after ∧
      tryPushSlices slices block = (after, true)) ∨
    ∃ part, tryPush block slices.flatten = none ∧
      tryPushSlices slices block = (block ++ part, false) := by
  obtain ⟨hfits, hfull⟩ := writeSlices_spec slices hblock
  unfold tryPush tryPushSlices
  by_cases hmessage : block.length + slices.flatten.length ≤ blockSize
  · rw [hfits hmessage]
    have hlength : (block ++ slices.flatten).length = block.length + slices.flatten.length :=
      List.length_append
    simp only [hlength, Nat.add_sub_cancel_left]
    have hroom : (block ++ slices.flatten).length ≤ blockSize := by omega
    obtain ⟨hfits', hfull'⟩ := writeSlices_spec [encodeLen slices.flatten.length] hroom
    rw [List.flatten_singleton, length_encodeLen, hlength] at hfits' hfull'
    unfold packetLenWidth
    by_cases hlen : block.length + slices.flatten.length + 2 ≤ blockSize
    · rw [if_pos hlen, hfits' hlen]
      exact .inl ⟨_, rfl, by rw [frame, List.append_assoc]⟩
    · obtain ⟨part, hpart⟩ := hfull' (by omega)
      rw [if_neg hlen, hpart]
      exact .inr ⟨slices.flatten ++ part, rfl, by rw [List.append_assoc]⟩
  · obtain ⟨part, hpart⟩ := hfull (by omega)
    rw [hpart, if_neg (by omega)]
    exact .inr ⟨part, rfl, rfl⟩

theorem pushSlicesAgain_eq {chat : Chat} (hblock : chat.currentBlock.length ≤ blockSize)
    (slices : List Bytes) (hash : Hash) (pushed : Option (ℕ × Hash)) :
    pushSlicesAgain chat slices hash pushed = pushAgain chat slices.flatten hash pushed := by
  unfold pushSlicesAgain pushAgain
  obtain ⟨after, hpush, hslices⟩ | ⟨part, hpush, hslices⟩ := tryPushSlices_spec slices hblock
  · rw [hpush, hslices]
  · rw [hpush, hslices]

/-- The writes of `push_message` have the effect of appending the whole frame. -/
theorem pushSlices_eq (host : Host) {chat : Chat} (hblock : chat.currentBlock.length ≤ blockSize)
    (slices : List Bytes) : pushSlices host chat slices = pushMessage host chat slices.flatten := by
  obtain ⟨members, finalized, currentBlock, blockNumber, stage⟩ := chat
  unfold pushSlices pushMessage
  obtain ⟨after, hpush, hslices⟩ | ⟨part, hpush, hslices⟩ := tryPushSlices_spec slices hblock
  · rw [hpush, hslices]
  · simp only [hpush, hslices, List.take_left]
    cases stage with
    | unfinalized proposed others =>
      cases proposed with
      | some own => rfl
      | none =>
        cases hashBlock host currentBlock with
        | error p => rfl
        | ok r =>
          simp only
          split_ifs
          · exact pushSlicesAgain_eq (Nat.zero_le _) slices r.1 _
          · exact pushSlicesAgain_eq (Nat.zero_le _) slices r.1 none
    | recovering finalHash weFinalized =>
      cases weFinalized with
      | true => rfl
      | false =>
        cases hashBlock host currentBlock with
        | error p => rfl
        | ok r =>
          simp only
          split_ifs
          · exact pushSlicesAgain_eq (Nat.zero_le _) slices r.1 _
          · exact pushSlicesAgain_eq (Nat.zero_le _) slices r.1 none

end Writes

section Messages

variable {host : Host} {s s' : Held} {chat : Chat} {messages : List Bytes}

/-- The open block is the frames of the messages it should hold, and fits. -/
structure Kept (chat : Chat) (messages : List Bytes) : Prop where
  block : chat.currentBlock = messages.reverse.flatMap frame
  room : chat.currentBlock.length ≤ blockSize

/-- A message in a block that fits has a length that can be read back. -/
theorem Kept.length_lt (h : Kept chat messages) : ∀ msg ∈ messages, msg.length < 65536 := by
  intro msg hmsg
  have hmem : [msg].Sublist messages.reverse :=
    List.singleton_sublist.mpr (List.mem_reverse.mpr hmsg)
  have hle := (hmem.flatMap frame).length_le
  rw [← h.block, List.flatMap_singleton, length_frame] at hle
  have hroom := h.room
  unfold blockSize at hroom
  omega

theorem Kept.unpack (h : Kept chat messages) : unpackMessages chat.currentBlock = messages := by
  rw [h.block, unpackMessages_flatMap_frame _ fun msg hmsg =>
    h.length_lt msg (List.mem_reverse.mp hmsg), List.reverse_reverse]

theorem Kept.append {after : Chat} {msg : Bytes} (h : Kept chat messages)
    (hblock : after.currentBlock = chat.currentBlock ++ frame msg)
    (hroom : chat.currentBlock.length + msg.length + packetLenWidth ≤ blockSize) :
    Kept after (msg :: messages) := by
  constructor
  · rw [hblock, h.block, List.reverse_cons, List.flatMap_append, List.flatMap_singleton]
  · rw [hblock, List.length_append, length_frame]
    unfold packetLenWidth at hroom
    omega

theorem Kept.single {after : Chat} {msg : Bytes} (hblock : after.currentBlock = frame msg)
    (hroom : msg.length + packetLenWidth ≤ blockSize) : Kept after [msg] := by
  constructor
  · rw [hblock, List.reverse_singleton, List.flatMap_singleton]
  · rw [hblock, length_frame]
    exact hroom

theorem Kept.push (h : Kept chat messages) {msg : Bytes}
    {out : Outcome (Except (Option Hash) Unit)} (hshape : PushShape host chat msg out) :
    Kept out.chat (afterPush messages msg out.reply) := by
  cases hshape with
  | stored hfit => exact h.append rfl hfit
  | blocked => exact h
  | finalized _ hroom => exact .single rfl hroom
  | proposed _ hroom => exact .single rfl hroom
  | discarded _ hroom => exact .single rfl hroom

theorem Kept.propose (h : Kept chat messages) {index : Slot} {number : ℕ} {hash : Hash}
    {after : Chat} {pushed : Option (ℕ × Hash)}
    (hshape : ProposeShape host chat index number hash after pushed) : Kept after messages := by
  cases hshape with
  | ignored => exact h
  | recorded => exact ⟨h.block, h.room⟩
  | finalized => exact ⟨h.block, h.room⟩
  | outvoted => exact ⟨h.block, h.room⟩
  | overtaken => exact ⟨h.block, h.room⟩

/-- The messages that a recovered block contains are told by their hashes. -/
theorem Kept.unknownTo (h : Kept chat messages) {block : Bytes} {after : Chat}
    (hblock : after.currentBlock = unknownTo host (leafHashes host block) chat.currentBlock) :
    Kept after (messages.filter fun msg =>
      host.blake3 msg ∉ (unpackMessages block).map host.blake3) := by
  have hmem : ∀ hash, (leafHashes host block).contains hash =
      decide (hash ∈ (unpackMessages block).map host.blake3) := by
    intro hash
    rw [List.contains_eq_mem]
    exact decide_eq_decide.mpr (leafHashes_perm host block).mem_iff
  have hkept : after.currentBlock = (messages.filter fun msg =>
      host.blake3 msg ∉ (unpackMessages block).map host.blake3).reverse.flatMap frame := by
    rw [hblock, ChatReplica.unknownTo, retainMessagesInVec_eq, h.unpack, keptFrames]
    simp only [hmem, decide_not]
  refine ⟨hkept, ?_⟩
  have hsub : (messages.filter fun msg =>
      host.blake3 msg ∉ (unpackMessages block).map host.blake3).reverse.Sublist
        messages.reverse := List.filter_sublist.reverse
  have hle := (hsub.flatMap frame).length_le
  rw [← hkept, ← h.block] at hle
  exact hle.trans h.room

theorem Kept.send (h : Kept chat messages) {index : Slot} {number : ℕ} {block : Bytes}
    {out : Outcome (Except SendBlockError Unit)}
    (hshape : SendShape host chat index number block out) :
    Kept out.chat (afterSend host chat block messages out.reply) := by
  cases hshape with
  | rejected => exact h
  | recorded => exact ⟨h.block, h.room⟩
  | replaced _ hstage =>
    simp only [afterSend, hstage]
    exact ⟨h.block, h.room⟩
  | recovered _ hstage hhash =>
    obtain ⟨hash, hleaves⟩ := hashBlock_ok host block (ne_nil_of_hashBlock hhash)
    rw [hhash] at hleaves
    cases hleaves
    simp only [afterSend, hstage]
    exact h.unknownTo rfl

theorem Kept.step (h : Kept s.chat s.messages) {e : Event} (hstep : Step host s e s') :
    Kept s'.chat s'.messages := by
  cases hstep with
  | push hpush =>
    rw [pushSlices_eq host h.room] at hpush
    exact h.push (pushMessage_shape hpush)
  | propose hpropose => exact h.propose (proposeMsgBlock_shape hpropose)
  | send hsend => exact h.send (sendBlock_shape hsend)

theorem length_encodeMessage_le {identity : Identity} {nonce : Nonce} {content : Bytes}
    (h : content.length ≤ maxMessageSize) :
    (encodeMessage identity nonce content).length ≤ 1066 := by
  have hnonce := length_base128Encode_le nonce
  have hsize := identity.size
  simp only [encodeMessage, List.length_append, maxMessageSize] at *
  omega

theorem flatten_messageSlices (identity : Identity) (nonce : Nonce) (content : Bytes) :
    (messageSlices identity nonce content).flatten = encodeMessage identity nonce content := by
  simp only [messageSlices, encodeMessage, List.flatten_append, flatten_map_singleton,
    List.flatten_singleton]

/-- A short message finds its place: a block without room for it has something to
hash, and an emptied one has room. -/
theorem Kept.pushMessage_ok (h : Kept chat messages) {msg : Bytes} (hmsg : msg.length ≤ 1066) :
    ∃ out, pushMessage host chat msg = .ok out := by
  have hagain : ∀ (emptied : Chat) (hash : Hash) (pushed : Option (ℕ × Hash)),
      emptied.currentBlock = [] → ∃ out, pushAgain emptied msg hash pushed = .ok out := by
    intro emptied hash pushed hempty
    have hfit : ([] : Bytes).length + msg.length + packetLenWidth ≤ blockSize := by
      unfold packetLenWidth blockSize
      rw [List.length_nil]
      omega
    unfold pushAgain tryPush
    rw [hempty, if_pos hfit]
    exact ⟨_, rfl⟩
  unfold pushMessage
  cases hpush : tryPush chat.currentBlock msg with
  | some block => exact ⟨_, rfl⟩
  | none =>
    have hne : unpackMessages chat.currentBlock ≠ [] := by
      intro hnil
      rw [h.unpack] at hnil
      have hblock := h.block
      rw [hnil, List.reverse_nil, List.flatMap_nil] at hblock
      unfold tryPush at hpush
      rw [hblock, if_pos (by unfold packetLenWidth blockSize; rw [List.length_nil]; omega)] at hpush
      cases hpush
    obtain ⟨hash, hhash⟩ := hashBlock_ok host chat.currentBlock hne
    simp only [hhash]
    split
    · exact ⟨_, rfl⟩
    · split_ifs
      · exact hagain _ hash _ rfl
      · exact hagain _ hash _ rfl
    · exact ⟨_, rfl⟩
    · split_ifs
      · exact hagain _ hash _ rfl
      · exact hagain _ hash _ rfl

theorem eq_of_blocked {msg : Bytes} {out : Outcome (Except (Option Hash) Unit)}
    (hshape : PushShape host chat msg out) (hreply : out.reply = .error none) :
    out.chat = chat := by
  cases hshape with
  | blocked => rfl
  | stored => cases hreply
  | finalized => cases hreply
  | proposed => cases hreply
  | discarded => cases hreply

/-- In every chat that was created and only handled events since, the open block
keeps within its capacity and is the frames of the messages that were pushed and
have not left it. A message of a user can be pushed without a panic, and one
that is refused changes nothing. -/
theorem push_keeps_block (host : Host) (id : Identity) (events : List Event) (s : Held)
    (h : Run (Step host) ⟨new id, []⟩ events s) :
    s.chat.currentBlock.length ≤ blockSize ∧
    s.chat.currentBlock = s.messages.reverse.flatMap frame ∧
    unpackMessages s.chat.currentBlock = s.messages ∧
    ∀ identity nonce content, content.length ≤ maxMessageSize →
      ∃ out, pushSlices host s.chat (messageSlices identity nonce content) = .ok out ∧
        (out.reply = .error none → out.chat = s.chat) := by
  have hkept : Kept s.chat s.messages :=
    h.stateInvariant (P := fun s => Kept s.chat s.messages) ⟨rfl, Nat.zero_le _⟩
      fun _ _ _ hkept hstep => hkept.step hstep
  refine ⟨hkept.room, hkept.block, hkept.unpack, ?_⟩
  intro identity nonce content hcontent
  have hlength : (encodeMessage identity nonce content).length ≤ 1066 :=
    length_encodeMessage_le hcontent
  rw [pushSlices_eq host hkept.room, flatten_messageSlices]
  obtain ⟨out, hout⟩ : ∃ out, pushMessage host s.chat _ = .ok out := hkept.pushMessage_ok hlength
  exact ⟨out, hout, eq_of_blocked (pushMessage_shape hout)⟩

/-- An open block that holds the bytes. -/
def holding (block : Bytes) : Chat := { new .zero with currentBlock := block }

/-- Two messages, the second one written in two slices. -/
theorem push_keeps_block_pair : ∃ s,
    Run (Step ⟨fun _ => .zero, true⟩) ⟨new .zero, []⟩ [.push [[1]], .push [[2], [3]]] s ∧
      s.messages = [[2, 3], [1]] ∧ unpackMessages s.chat.currentBlock = s.messages ∧
      ∃ out, pushSlices ⟨fun _ => .zero, true⟩ s.chat (messageSlices .zero 7 [5]) = .ok out := by
  have hfirst : Step ⟨fun _ => .zero, true⟩ ⟨new .zero, []⟩ (.push [[1]])
      ⟨holding [1, 0, 1], [[1]]⟩ := by
    have h : pushSlices ⟨fun _ => .zero, true⟩ (new .zero) [[1]] =
        .ok ⟨holding [1, 0, 1], .ok (), none⟩ := rfl
    exact Step.push (s := ⟨new .zero, []⟩) h
  have hsecond : Step ⟨fun _ => .zero, true⟩ ⟨holding [1, 0, 1], [[1]]⟩ (.push [[2], [3]])
      ⟨holding [1, 0, 1, 2, 3, 0, 2], [[2, 3], [1]]⟩ := by
    have h : pushSlices ⟨fun _ => .zero, true⟩ (holding [1, 0, 1]) [[2], [3]] =
        .ok ⟨holding [1, 0, 1, 2, 3, 0, 2], .ok (), none⟩ := rfl
    exact Step.push (s := ⟨holding [1, 0, 1], [[1]]⟩) h
  have hrun := (Run.single hfirst).append (Run.single hsecond)
  obtain ⟨-, -, hunpack, hpush⟩ := push_keeps_block _ _ _ _ hrun
  obtain ⟨out, hout, -⟩ := hpush .zero 7 [5] (by decide)
  exact ⟨_, hrun, rfl, hunpack, out, hout⟩

end Messages

end OrionNetwork.ChatPush
