import OrionNetwork.OnionPacket

/-!
# Peeling in place

A node takes its layer off in the buffer that the packet came in. The decrypted bytes
overwrite the encrypted ones, and the key of the sender is copied to where the rest of
the packet ends. Every cut is checked. The length of the peer id is a byte that the
sender wrote under the layer, so that decryption says nothing about it.
-/
namespace OrionNetwork.Onion
open Codec

variable {s : Suite}

/-- `split_at_mut` in front of the last `n` bytes. It panics when there are fewer. -/
def cutTail (n : ℕ) (buffer : Bytes) : Except Panic (Bytes × Sized n) :=
  match splitTail n buffer with
  | none => .error .splitOutOfRange
  | some parts => .ok parts

/-- The length of what was decrypted and the whole buffer afterwards. -/
def peelWihKeyInPlace (s : Suite) (key : SharedSecret) (buffer : Bytes) :
    Except Panic (Option (ℕ × Bytes)) :=
  if buffer.length < tagSize + nonceSize then .ok none
  else
    match cutTail nonceSize buffer with
    | .error e => .error e
    | .ok (buffer, nonce) =>
      match cutTail tagSize buffer with
      | .error e => .error e
      | .ok (buffer, tag) =>
        match s.decrypt key nonce buffer tag with
        | none => .ok none
        | some plain => .ok (some (buffer.length, plain ++ tag.val ++ nonce.val))

/-- What is returned, and the buffer afterwards. -/
structure Peeling (s : Suite) where
  next : Option s.PeerId
  secret : SharedSecret
  len : ℕ
  buffer : Bytes

/-- The packet that is passed on. -/
def Peeling.toPeeled (p : Peeling s) : Peeled s := ⟨p.next, p.secret, p.buffer.take p.len⟩

/-- The end of `peel_initial`, where `plain` is the part of the buffer that was decrypted. -/
def nextHopInPlace (ss : SharedSecret) (sender : Sized pks) (original plain : Bytes) :
    Except Panic (Option (Peeling s)) :=
  match plain.getLast? with
  | none => .ok none
  | some last =>
    let buffer := plain.dropLast
    if buffer.length < last.toNat then .error .splitOutOfRange
    else
      let len := buffer.length - last.toNat
      match s.peerFromBytes (buffer.drop len) with
      | none => .ok none
      | some id =>
        if original.length < len + pks then .error .splitOutOfRange
        else
          .ok (some ⟨some id, ss, len + pks, original.take len ++
            (PublicKey.fromBytes sender).intoBytes.val ++ original.drop (len + pks)⟩)

def peelInitialInPlace (node : KeyPair s) (original : Bytes) :
    Except Panic (Option (Peeling s)) :=
  if original.length < pks + cs then .ok none
  else
    match cutTail pks original with
    | .error e => .error e
    | .ok (buffer, sender) =>
      match cutTail cs buffer with
      | .error e => .error e
      | .ok (buffer, ciphertext) =>
        match node.decapsulate (Ciphertext.fromBytes ciphertext) with
        | none => .ok none
        | some ss =>
          if buffer.isEmpty then .ok (some ⟨none, ss, 0, original⟩)
          else
            match peelWihKeyInPlace s ss buffer with
            | .error e => .error e
            | .ok none => .ok none
            | .ok (some (packetLen, buffer)) =>
              if buffer.length < packetLen then .error .splitOutOfRange
              else
                nextHopInPlace ss sender (buffer ++ ciphertext.val ++ sender.val)
                  (buffer.take packetLen)

/-- Decryption in place does not change the length. -/
def Suite.KeepsLength (s : Suite) : Prop :=
  ∀ key nonce data tag plain, s.decrypt key nonce data tag = some plain → plain.length = data.length

/-- The packet has a layer for the node with this plaintext under it. -/
def HoldsLayer (node : KeyPair s) (buffer plain : Bytes) : Prop :=
  ∃ (data : Bytes) (tag : Sized tagSize) (nonce : Sized nonceSize) (ciphertext : Sized cs)
    (sender : Sized pks) (ss : SharedSecret),
    buffer = data ++ tag.val ++ nonce.val ++ ciphertext.val ++ sender.val ∧
    node.decapsulate (Ciphertext.fromBytes ciphertext) = some ss ∧
    s.decrypt ss nonce data tag = some plain

/-- The last byte of the plaintext promises more bytes than there are. -/
def Misleading (node : KeyPair s) (buffer : Bytes) : Prop :=
  ∃ plain last, HoldsLayer node buffer (plain ++ [last]) ∧ plain.length < last.toNat

/-- No panic, and a packet that is passed on fits and ends with the key of the sender. -/
def PeelsSafely (node : KeyPair s) (buffer : Bytes) : Prop :=
  ∃ outcome, peelInitialInPlace node buffer = .ok outcome ∧
    ∀ p, outcome = some p → p.next ≠ none →
      p.buffer.length = buffer.length ∧ p.len ≤ buffer.length ∧
        buffer.drop (buffer.length - pks) <:+ p.buffer.take p.len

@[simp] theorem cutTail_append {n : ℕ} (body : Bytes) (tail : Sized n) :
    cutTail n (body ++ tail.val) = .ok (body, tail) := by
  unfold cutTail
  rw [splitTail_append]

theorem exists_tail {n : ℕ} {buffer : Bytes} (h : n ≤ buffer.length) :
    ∃ (body : Bytes) (tail : Sized n), buffer = body ++ tail.val := by
  refine ⟨buffer.take (buffer.length - n), ⟨buffer.drop (buffer.length - n), ?_⟩, ?_⟩
  · rw [List.length_drop]
    omega
  · exact (List.take_append_drop _ _).symm

/-- Two arrays at the end of a buffer that is long enough. -/
theorem exists_arrays {m n : ℕ} {buffer : Bytes} (h : n + m ≤ buffer.length) :
    ∃ (body : Bytes) (first : Sized m) (second : Sized n),
      buffer = body ++ first.val ++ second.val := by
  obtain ⟨rest, second, rfl⟩ := exists_tail (show n ≤ buffer.length by omega)
  have hrest : m ≤ rest.length := by
    rw [List.length_append, second.property] at h
    omega
  obtain ⟨body, first, rfl⟩ := exists_tail hrest
  exact ⟨body, first, second, rfl⟩

theorem peelWihKeyInPlace_append (key : SharedSecret) (data : Bytes) (tag : Sized tagSize)
    (nonce : Sized nonceSize) :
    peelWihKeyInPlace s key (data ++ tag.val ++ nonce.val) =
      .ok ((s.decrypt key nonce data tag).map fun plain =>
        (data.length, plain ++ tag.val ++ nonce.val)) := by
  have htag := tag.property
  have hnonce := nonce.property
  unfold peelWihKeyInPlace
  rw [if_neg]
  · simp only [cutTail_append]
    cases s.decrypt key nonce data tag with
    | none => rfl
    | some plain => rfl
  · simp only [List.length_append]
    omega

section Cut

variable (node : KeyPair s) (ciphertext : Sized cs) (sender : Sized pks)

theorem cut_packet (body : Bytes) :
    ¬(body ++ ciphertext.val ++ sender.val).length < pks + cs := by
  have hct := ciphertext.property
  have hpk := sender.property
  simp only [List.length_append]
  omega

/-- A packet without a layer that opens is refused, or it is for this node. -/
theorem peelInitialInPlace_other {body : Bytes}
    (h : ∀ plain, ¬HoldsLayer node (body ++ ciphertext.val ++ sender.val) plain) :
    peelInitialInPlace node (body ++ ciphertext.val ++ sender.val) = .ok none ∨
      ∃ ss, peelInitialInPlace node (body ++ ciphertext.val ++ sender.val) =
        .ok (some ⟨none, ss, 0, body ++ ciphertext.val ++ sender.val⟩) := by
  unfold peelInitialInPlace
  rw [if_neg (cut_packet ciphertext sender body)]
  simp only [cutTail_append]
  cases hss : node.decapsulate (Ciphertext.fromBytes ciphertext) with
  | none => exact .inl rfl
  | some ss =>
    simp only
    by_cases hempty : body.isEmpty = true
    · rw [if_pos hempty]
      exact .inr ⟨ss, rfl⟩
    · rw [if_neg hempty]
      by_cases hshort : body.length < tagSize + nonceSize
      · rw [peelWihKeyInPlace, if_pos hshort]
        exact .inl rfl
      · obtain ⟨data, tag, nonce, rfl⟩ := exists_arrays (Nat.add_comm .. ▸ not_lt.mp hshort)
        rw [peelWihKeyInPlace_append]
        cases hplain : s.decrypt ss nonce data tag with
        | none => exact .inl rfl
        | some plain =>
          exact absurd ⟨data, tag, nonce, ciphertext, sender, ss, rfl, hss, hplain⟩ (h plain)

/-- Under a layer that opens, the next hop is read from the plaintext. -/
theorem peelInitialInPlace_layer {ss : SharedSecret} {data plain : Bytes} {tag : Sized tagSize}
    {nonce : Sized nonceSize} (hlen : plain.length = data.length)
    (hss : node.decapsulate (Ciphertext.fromBytes ciphertext) = some ss)
    (hplain : s.decrypt ss nonce data tag = some plain) :
    peelInitialInPlace node (data ++ tag.val ++ nonce.val ++ ciphertext.val ++ sender.val) =
      nextHopInPlace ss sender
        (plain ++ (tag.val ++ nonce.val ++ ciphertext.val ++ sender.val)) plain := by
  have htag := tag.property
  unfold peelInitialInPlace
  rw [if_neg (cut_packet ciphertext sender _)]
  simp only [cutTail_append, hss]
  rw [if_neg, peelWihKeyInPlace_append, hplain]
  · simp only [Option.map_some]
    rw [if_neg, ← hlen, List.append_assoc plain, List.take_left]
    · simp only [List.append_assoc]
    · simp only [List.length_append]
      omega
  · rw [List.isEmpty_iff]
    intro hnil
    rw [List.append_eq_nil_iff, List.append_eq_nil_iff] at hnil
    rw [hnil.1.2] at htag
    cases htag

end Cut

theorem join_split {m n : ℕ} (bytes : Sized (m + n)) :
    join (split m bytes).1 (split m bytes).2 = bytes :=
  Subtype.ext (List.take_append_drop m bytes.val)

theorem PublicKey.intoBytes_fromBytes (bytes : Sized pks) :
    (PublicKey.fromBytes bytes).intoBytes = bytes :=
  join_split (m := 1184) (n := 32) bytes

section NextHop

variable (ss : SharedSecret) {sender : Sized pks} {plain behind : Bytes} {last : UInt8}

theorem length_body (plain : Bytes) (n : ℕ) :
    (plain.take (plain.length - n)).length = plain.length - n :=
  List.length_take_of_le (Nat.sub_le _ _)

theorem take_body (plain behind : Bytes) (last : UInt8) (n : ℕ) :
    (plain ++ [last] ++ behind).take (plain.length - n) = plain.take (plain.length - n) := by
  rw [List.append_assoc, List.take_append_of_le_length (Nat.sub_le _ _)]

theorem body_fits (hroom : pks ≤ behind.length) (n : ℕ) :
    ¬(plain ++ [last] ++ behind).length < plain.length - n + pks := by
  rw [List.length_append, List.length_append]
  omega

theorem nextHopInPlace_long (hlong : plain.length < last.toNat) (original : Bytes) :
    nextHopInPlace (s := s) ss sender original (plain ++ [last]) = .error .splitOutOfRange := by
  unfold nextHopInPlace
  simp only [List.getLast?_concat, List.dropLast_concat]
  rw [if_pos hlong]

/-- What lies behind the plaintext has room for the key that is copied. -/
theorem nextHopInPlace_fits (hfits : last.toNat ≤ plain.length) (hroom : pks ≤ behind.length) :
    nextHopInPlace (s := s) ss sender (plain ++ [last] ++ behind) (plain ++ [last]) = .ok none ∨
      ∃ id body, nextHopInPlace (s := s) ss sender (plain ++ [last] ++ behind) (plain ++ [last]) =
        .ok (some ⟨some id, ss, body.length + pks, body ++ sender.val ++
          (plain ++ [last] ++ behind).drop (body.length + pks)⟩) ∧ body <+: plain := by
  unfold nextHopInPlace
  simp only [List.getLast?_concat, List.dropLast_concat]
  rw [if_neg (not_lt.mpr hfits)]
  cases s.peerFromBytes (plain.drop (plain.length - last.toNat)) with
  | none => exact .inl rfl
  | some id =>
    right
    refine ⟨id, plain.take (plain.length - last.toNat), ?_, List.take_prefix _ _⟩
    simp only
    rw [if_neg (body_fits hroom _), length_body, take_body, PublicKey.intoBytes_fromBytes]

end NextHop

/-- The packet that is passed on is the one of the buffers that are not overwritten. -/
theorem nextHopInPlace_refines (ss : SharedSecret) (sender : Sized pks) {plain behind : Bytes}
    (hroom : pks ≤ behind.length) :
    (nextHopInPlace (s := s) ss sender (plain ++ behind) plain).map (Option.map Peeling.toPeeled) =
      nextHop ss sender plain := by
  rcases List.eq_nil_or_concat plain with rfl | ⟨plain, last, rfl⟩
  · rfl
  · rw [List.concat_eq_append]
    unfold nextHop nextHopInPlace
    simp only [List.getLast?_concat, List.dropLast_concat]
    by_cases hlong : plain.length < last.toNat
    · rw [if_pos hlong, if_pos hlong]
      rfl
    · rw [if_neg hlong, if_neg hlong]
      cases s.peerFromBytes (plain.drop (plain.length - last.toNat)) with
      | none => rfl
      | some id =>
        simp only
        rw [if_neg (body_fits hroom _), take_body]
        simp only [Except.map, Option.map_some, Peeling.toPeeled]
        rw [List.take_left']
        rw [List.length_append, length_body, (PublicKey.fromBytes sender).intoBytes.property]

/-- The buffers may be taken apart instead of being overwritten. -/
theorem peelInitialInPlace_refines (hs : s.KeepsLength) (node : KeyPair s) (buffer : Bytes) :
    (peelInitialInPlace node buffer).map (Option.map Peeling.toPeeled) =
      peelInitial node buffer := by
  unfold peelInitialInPlace peelInitial
  by_cases hshort : buffer.length < pks + cs
  · rw [if_pos hshort, if_pos hshort]
    rfl
  · rw [if_neg hshort, if_neg hshort]
    obtain ⟨body, ciphertext, sender, rfl⟩ := exists_arrays (not_lt.mp hshort)
    simp only [cutTail_append, splitTail_append]
    cases node.decapsulate (Ciphertext.fromBytes ciphertext) with
    | none => rfl
    | some ss =>
      simp only
      by_cases hempty : body.isEmpty = true
      · rw [if_pos hempty, if_pos hempty]
        rfl
      · rw [if_neg hempty, if_neg hempty]
        by_cases hlayer : body.length < tagSize + nonceSize
        · rw [peelWihKeyInPlace, peelWihKey, if_pos hlayer, if_pos hlayer]
          rfl
        · obtain ⟨data, tag, nonce, rfl⟩ := exists_arrays (Nat.add_comm .. ▸ not_lt.mp hlayer)
          rw [peelWihKeyInPlace_append, peelWihKey, if_neg hlayer]
          simp only [splitTail_append, Option.bind_eq_bind, Option.bind_some]
          cases hplain : s.decrypt ss nonce data tag with
          | none => rfl
          | some plain =>
            have hlen := hs _ _ _ _ _ hplain
            simp only [Option.map_some]
            rw [if_neg, ← hlen]
            · simp only [List.append_assoc, List.take_left]
              apply nextHopInPlace_refines
              simp only [List.length_append, sender.property]
              omega
            · simp only [List.length_append]
              omega

theorem drop_sender (body : Bytes) (sender : Sized pks) :
    (body ++ sender.val).drop ((body ++ sender.val).length - pks) = sender.val := by
  rw [List.length_append, sender.property, Nat.add_sub_cancel, List.drop_left]

/-- A plaintext whose last byte promises what is there. -/
theorem peelsSafely_layer (node : KeyPair s) {ciphertext : Sized cs} {sender : Sized pks}
    {ss : SharedSecret} {data plain : Bytes} {last : UInt8} {tag : Sized tagSize}
    {nonce : Sized nonceSize} (hlen : (plain ++ [last]).length = data.length)
    (hss : node.decapsulate (Ciphertext.fromBytes ciphertext) = some ss)
    (hplain : s.decrypt ss nonce data tag = some (plain ++ [last]))
    (hfits : last.toNat ≤ plain.length) :
    PeelsSafely node (data ++ tag.val ++ nonce.val ++ ciphertext.val ++ sender.val) := by
  have hpk := sender.property
  have hpeel := peelInitialInPlace_layer node ciphertext sender hlen hss hplain
  have hdrop := drop_sender (data ++ tag.val ++ nonce.val ++ ciphertext.val) sender
  generalize hbehind : tag.val ++ nonce.val ++ ciphertext.val ++ sender.val = behind at hpeel
  have hbuffer : data ++ tag.val ++ nonce.val ++ ciphertext.val ++ sender.val = data ++ behind := by
    rw [← hbehind]
    simp only [List.append_assoc]
  have hroom : pks ≤ behind.length := by
    rw [← hbehind, List.length_append, hpk]
    omega
  have hlength : (plain ++ [last] ++ behind).length = (data ++ behind).length := by
    rw [List.length_append, hlen, List.length_append]
  rw [hbuffer] at hpeel hdrop ⊢
  rcases nextHopInPlace_fits ss hfits hroom with hnone | ⟨id, body, hsome, hbody⟩
  · refine ⟨none, hpeel.trans hnone, ?_⟩
    intro p hp
    cases hp
  · refine ⟨_, hpeel.trans hsome, ?_⟩
    intro p hp _
    cases hp
    have hshort := hbody.length_le
    have htotal : body.length + pks ≤ (data ++ behind).length := by
      rw [← hlength, List.length_append, List.length_append]
      omega
    refine ⟨?_, htotal, ?_⟩
    · rw [List.length_append, List.length_append, hpk, List.length_drop, hlength]
      omega
    · rw [hdrop, List.take_left' (by rw [List.length_append, hpk])]
      exact List.suffix_append _ _

theorem HoldsLayer.unique {node : KeyPair s} {buffer plain plain' : Bytes}
    (h : HoldsLayer node buffer plain) (h' : HoldsLayer node buffer plain') : plain = plain' := by
  obtain ⟨data, tag, nonce, ciphertext, sender, ss, hbuffer, hss, hplain⟩ := h
  obtain ⟨data', tag', nonce', ciphertext', sender', ss', hbuffer', hss', hplain'⟩ := h'
  rw [hbuffer] at hbuffer'
  obtain ⟨hbuffer', -⟩ := List.append_inj' hbuffer' (sender.property.trans sender'.property.symm)
  obtain ⟨hbuffer', hct⟩ :=
    List.append_inj' hbuffer' (ciphertext.property.trans ciphertext'.property.symm)
  obtain ⟨hbuffer', hnonce⟩ := List.append_inj' hbuffer' (nonce.property.trans nonce'.property.symm)
  obtain ⟨rfl, htag⟩ := List.append_inj' hbuffer' (tag.property.trans tag'.property.symm)
  cases Subtype.ext hct
  cases Subtype.ext hnonce
  cases Subtype.ext htag
  cases hss.symm.trans hss'
  exact Option.some_injective _ (hplain.symm.trans hplain')

/-- Peeling is safe exactly if no layer for the node opens to a plaintext whose last byte
promises more bytes than there are. -/
theorem peelsSafely_iff (hs : s.KeepsLength) (node : KeyPair s) (buffer : Bytes) :
    PeelsSafely node buffer ↔ ¬Misleading node buffer := by
  constructor
  · rintro ⟨outcome, hok, -⟩ ⟨plain, last,
      ⟨data, tag, nonce, ciphertext, sender, ss, rfl, hss, hplain⟩, hlong⟩
    rw [peelInitialInPlace_layer node ciphertext sender (hs _ _ _ _ _ hplain) hss hplain,
      nextHopInPlace_long ss hlong] at hok
    cases hok
  · intro hmisleading
    by_cases hshort : buffer.length < pks + cs
    · refine ⟨none, by rw [peelInitialInPlace, if_pos hshort], ?_⟩
      intro p hp
      cases hp
    · obtain ⟨body, ciphertext, sender, rfl⟩ := exists_arrays (not_lt.mp hshort)
      by_cases hlayer : ∃ plain, HoldsLayer node (body ++ ciphertext.val ++ sender.val) plain
      · obtain ⟨plain, hlayer⟩ := hlayer
        rcases List.eq_nil_or_concat plain with rfl | ⟨plain, last, rfl⟩
        · obtain ⟨data, tag, nonce, ciphertext, sender, ss, hbuffer, hss, hplain⟩ := hlayer
          rw [hbuffer]
          refine ⟨none, peelInitialInPlace_layer node ciphertext sender (hs _ _ _ _ _ hplain) hss
            hplain, ?_⟩
          intro p hp
          cases hp
        · rw [List.concat_eq_append] at hlayer
          have hfits : last.toNat ≤ plain.length := by
            by_contra hlong
            exact hmisleading ⟨plain, last, hlayer, not_le.mp hlong⟩
          obtain ⟨data, tag, nonce, ciphertext, sender, ss, hbuffer, hss, hplain⟩ := hlayer
          rw [hbuffer]
          exact peelsSafely_layer node (hs _ _ _ _ _ hplain) hss hplain hfits
      · rcases peelInitialInPlace_other node ciphertext sender (not_exists.mp hlayer) with
          hnone | ⟨ss, hlast⟩
        · refine ⟨none, hnone, ?_⟩
          intro p hp
          cases hp
        · refine ⟨_, hlast, ?_⟩
          intro p hp hnext
          cases hp
          exact absurd rfl hnext

section Example

/-- A packet for the third node with this plaintext under its layer. -/
def layered (plain : Bytes) : Bytes :=
  wrap (maskPair 5) (maskPair 3).publicKey ⟨repeated 32 1, repeated 12 0⟩ plain ++
    (maskPair 5).publicKey.intoBytes.val

theorem maskSuite_keepsLength : maskSuite.KeepsLength := by
  intro key nonce data tag plain h
  change (if tag = keyTag key then some (mask key data) else none) = some plain at h
  split_ifs at h
  cases h
  exact List.length_map ..

theorem holdsLayer_layered (plain : Bytes) : HoldsLayer (maskPair 3) (layered plain) plain := by
  let key := ((maskPair 5).encapsulate (maskPair 3).publicKey (repeated 32 1)).2
  have hss := KeyPair.decapsulate_encapsulate maskSuite_lawful (maskPair 5) (maskPair 3)
    (repeated 32 1)
  have hplain := maskSuite_lawful.decrypt_encrypt key (repeated 12 0) plain
  exact ⟨_, _, _, _, _, _, rfl, by rw [Ciphertext.fromBytes_intoBytes]; exact hss, hplain⟩

/-- Three bytes of a peer id follow the rest of the packet. -/
theorem peelsSafely_iff_hop : PeelsSafely (maskPair 3) (layered [9, 0, 1, 2, 3]) := by
  rw [peelsSafely_iff maskSuite_keepsLength]
  rintro ⟨plain, last, hlayer, hlong⟩
  obtain ⟨rfl, hlast⟩ := List.append_inj' (hlayer.unique (holdsLayer_layered _) :
    plain ++ [last] = [9, 0, 1, 2] ++ [3]) rfl
  cases hlast
  exact absurd hlong (by decide)

/-- A plaintext of one byte that promises five. -/
theorem peeling_panics :
    peelInitialInPlace (maskPair 3) (layered [5]) = .error .splitOutOfRange ∧
      ¬PeelsSafely (maskPair 3) (layered [5]) := by
  obtain ⟨data, tag, nonce, ciphertext, sender, ss, hbuffer, hss, hplain⟩ := holdsLayer_layered [5]
  have hpanic : peelInitialInPlace (maskPair 3) (layered [5]) = .error .splitOutOfRange := by
    have hlen := maskSuite_keepsLength _ _ _ _ _ hplain
    rw [hbuffer, peelInitialInPlace_layer (maskPair 3) ciphertext sender hlen hss hplain]
    have hlong : ([] : Bytes).length < (5 : UInt8).toNat := by decide
    exact nextHopInPlace_long ss hlong _
  refine ⟨hpanic, ?_⟩
  rintro ⟨outcome, hok, -⟩
  rw [hpanic] at hok
  cases hok

end Example

end OrionNetwork.Onion
