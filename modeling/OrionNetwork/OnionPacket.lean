import OrionNetwork.Codec
import Mathlib.Data.Vector.Zip

/-!
# Onion packets

A client sends one packet along a route. Each node takes off the layer that is
encrypted for it, learns the next node and passes on what is left. Layers are
added at the end of the buffer, the one for the entry node last, and the public
key of the client always follows the last layer. Key exchange, encryption and
peer ids come from other libraries. Random bytes are given by the caller.
-/
namespace OrionNetwork.Onion
open Codec

/-- An array of `n` bytes. -/
abbrev Sized (n : ℕ) := List.Vector UInt8 n

abbrev SharedSecret := Sized 32

def tagSize : ℕ := 16
def nonceSize : ℕ := 12

/-- The sizes of a public key and of a ciphertext. -/
def pks : ℕ := 1184 + 32
def cs : ℕ := 1088 + 32

/-- What the packets are built from. -/
structure Suite where
  Kyber : Type
  X25519 : Type
  PeerId : Type
  kyberPublic : Kyber → Sized 1184
  enc : Sized 1184 → Sized 32 → Sized 1088 × Sized 32
  dec : Kyber → Sized 1088 → Option (Sized 32)
  xPublic : X25519 → Sized 32
  diffieHellman : X25519 → Sized 32 → Sized 32
  encrypt : SharedSecret → Sized nonceSize → Bytes → Bytes × Sized tagSize
  decrypt : SharedSecret → Sized nonceSize → Bytes → Sized tagSize → Option Bytes
  peerToBytes : PeerId → Bytes
  peerFromBytes : Bytes → Option PeerId

/-- What is relied on. -/
structure Suite.Lawful (s : Suite) : Prop where
  dec_enc : ∀ k seed, s.dec k (s.enc (s.kyberPublic k) seed).1 =
    some (s.enc (s.kyberPublic k) seed).2
  diffieHellman_comm : ∀ a b, s.diffieHellman a (s.xPublic b) = s.diffieHellman b (s.xPublic a)
  length_encrypt : ∀ key nonce data, (s.encrypt key nonce data).1.length = data.length
  decrypt_encrypt : ∀ key nonce data,
    s.decrypt key nonce (s.encrypt key nonce data).1 (s.encrypt key nonce data).2 = some data
  fromBytes_toBytes : ∀ id, s.peerFromBytes (s.peerToBytes id) = some id
  length_toBytes : ∀ id, (s.peerToBytes id).length < 256

structure PublicKey where
  post : Sized 1184
  pre : Sized 32

structure Ciphertext where
  pl : Sized 1088
  x : Sized 32

structure KeyPair (s : Suite) where
  post : s.Kyber
  pre : s.X25519

/-- The random bytes of one layer. -/
structure Coins where
  seed : Sized 32
  nonce : Sized nonceSize

/-- The first `m` of `m + n` bytes and the others. -/
def split (m : ℕ) {n : ℕ} (bytes : Sized (m + n)) : Sized m × Sized n :=
  (⟨bytes.val.take m, by simp [bytes.property]⟩, ⟨bytes.val.drop m, by simp [bytes.property]⟩)

def join {m n : ℕ} (a : Sized m) (b : Sized n) : Sized (m + n) :=
  ⟨a.val ++ b.val, by rw [List.length_append, a.property, b.property]⟩

@[simp] theorem split_join {m n : ℕ} (a : Sized m) (b : Sized n) : split m (join a b) = (a, b) := by
  obtain ⟨a, rfl⟩ := a
  obtain ⟨b, rfl⟩ := b
  simp [split, join]

def PublicKey.intoBytes (k : PublicKey) : Sized pks := join k.post k.pre

def PublicKey.fromBytes (bytes : Sized pks) : PublicKey :=
  ⟨(split 1184 bytes).1, (split 1184 bytes).2⟩

def Ciphertext.intoBytes (c : Ciphertext) : Sized cs := join c.pl c.x

def Ciphertext.fromBytes (bytes : Sized cs) : Ciphertext :=
  ⟨(split 1088 bytes).1, (split 1088 bytes).2⟩

@[simp] theorem PublicKey.fromBytes_intoBytes (k : PublicKey) : fromBytes k.intoBytes = k := by
  unfold fromBytes intoBytes
  rw [split_join]

@[simp] theorem Ciphertext.fromBytes_intoBytes (c : Ciphertext) : fromBytes c.intoBytes = c := by
  unfold fromBytes intoBytes
  rw [split_join]

variable {s : Suite}

namespace KeyPair

def publicKey (kp : KeyPair s) : PublicKey := ⟨s.kyberPublic kp.post, s.xPublic kp.pre⟩

def encapsulate (kp : KeyPair s) (pk : PublicKey) (seed : Sized 32) : Ciphertext × SharedSecret :=
  let (data, kSecret) := s.enc pk.post seed
  let xSecret := s.diffieHellman kp.pre pk.pre
  (⟨data, s.xPublic kp.pre⟩, .zipWith (· ^^^ ·) kSecret xSecret)

def decapsulate (kp : KeyPair s) (c : Ciphertext) : Option SharedSecret :=
  let xSecret := s.diffieHellman kp.pre c.x
  match s.dec kp.post c.pl with
  | none => none
  | some kSecret => some (.zipWith (· ^^^ ·) kSecret xSecret)

theorem decapsulate_encapsulate (hs : s.Lawful) (client node : KeyPair s) (seed : Sized 32) :
    node.decapsulate (client.encapsulate node.publicKey seed).1 =
      some (client.encapsulate node.publicKey seed).2 := by
  simp only [decapsulate, encapsulate, publicKey, hs.dec_enc, hs.diffieHellman_comm node.pre]

end KeyPair

def wrap (client : KeyPair s) (sender : PublicKey) (coins : Coins) (buffer : Bytes) : Bytes :=
  let (cp, key) := client.encapsulate sender coins.seed
  let (buffer, tag) := s.encrypt key coins.nonce buffer
  buffer ++ tag.val ++ coins.nonce.val ++ cp.intoBytes.val

/-- One turn of the loop: where to go next, and a layer over all of it. -/
def addHop (client : KeyPair s) (hop : PublicKey × s.PeerId) (coins : Coins) (buffer : Bytes) :
    Bytes :=
  let mh := s.peerToBytes hop.2
  wrap client hop.1 coins (buffer ++ mh ++ [UInt8.ofNat mh.length])

def addHops (client : KeyPair s) :
    List (PublicKey × s.PeerId) → (ℕ → Coins) → Bytes → Bytes
  | [], _, buffer => buffer
  | hop :: path, coins, buffer =>
    addHops client path (fun i => coins (i + 1)) (addHop client hop (coins 0) buffer)

def newInitial (recipient : PublicKey) (path : List (PublicKey × s.PeerId)) (client : KeyPair s)
    (seed : Sized 32) (coins : ℕ → Coins) : Bytes × SharedSecret :=
  let (cp, key) := client.encapsulate recipient seed
  (addHops client path coins cp.intoBytes.val ++ client.publicKey.intoBytes.val, key)

/-- The last `n` bytes of a buffer as an array. -/
def splitTail (n : ℕ) (buffer : Bytes) : Option (Bytes × Sized n) :=
  if h : n ≤ buffer.length then
    some (buffer.take (buffer.length - n),
      ⟨buffer.drop (buffer.length - n), by rw [List.length_drop]; omega⟩)
  else none

@[simp] theorem splitTail_append {n : ℕ} (body : Bytes) (tail : Sized n) :
    splitTail n (body ++ tail.val) = some (body, tail) := by
  obtain ⟨tail, rfl⟩ := tail
  unfold splitTail
  rw [dif_pos (by simp)]
  simp

/-- The decrypted buffer. -/
def peelWihKey (s : Suite) (key : SharedSecret) (buffer : Bytes) : Option Bytes :=
  if buffer.length < tagSize + nonceSize then none
  else do
    let (buffer, nonce) ← splitTail nonceSize buffer
    let (buffer, tag) ← splitTail tagSize buffer
    s.decrypt key nonce buffer tag

inductive Panic where
  | splitOutOfRange
  | equalPeers

/-- Where to go next, the key, and the part of the buffer that is left. -/
structure Peeled (s : Suite) where
  next : Option s.PeerId
  secret : SharedSecret
  packet : Bytes

/-- Reading the id off the end of a decrypted layer. -/
def nextHop (ss : SharedSecret) (sender : Sized pks) (plain : Bytes) :
    Except Panic (Option (Peeled s)) :=
  match plain.getLast? with
  | none => .ok none
  | some len =>
    let buffer := plain.dropLast
    if buffer.length < len.toNat then .error .splitOutOfRange
    else
      match s.peerFromBytes (buffer.drop (buffer.length - len.toNat)) with
      | none => .ok none
      | some id =>
        .ok (some ⟨some id, ss, buffer.take (buffer.length - len.toNat) ++
          (PublicKey.fromBytes sender).intoBytes.val⟩)

def peelInitial (node : KeyPair s) (buffer : Bytes) : Except Panic (Option (Peeled s)) :=
  if buffer.length < pks + cs then .ok none
  else
    match splitTail pks buffer with
    | none => .ok none
    | some (buffer, sender) =>
      match splitTail cs buffer with
      | none => .ok none
      | some (buffer, ciphertext) =>
        match node.decapsulate (Ciphertext.fromBytes ciphertext) with
        | none => .ok none
        | some ss =>
          if buffer.isEmpty then .ok (some ⟨none, ss, []⟩)
          else
            match peelWihKey s ss buffer with
            | none => .ok none
            | some plain => nextHop ss sender plain

section Layers

variable (hs : s.Lawful) (client node : KeyPair s)

include hs

theorem peelWihKey_encrypt (key : SharedSecret) (nonce : Sized nonceSize) (data : Bytes) :
    peelWihKey s key ((s.encrypt key nonce data).1 ++ (s.encrypt key nonce data).2.val ++
      nonce.val) = some data := by
  unfold peelWihKey
  rw [if_neg, splitTail_append]
  · simp only [Option.bind_eq_bind, Option.bind_some, splitTail_append, hs.decrypt_encrypt]
  · have htag := (s.encrypt key nonce data).2.property
    have hnonce := nonce.property
    simp only [List.length_append]
    omega

theorem nextHop_append (ss : SharedSecret) (sender : PublicKey) (id : s.PeerId) (body : Bytes) :
    nextHop ss sender.intoBytes
        (body ++ s.peerToBytes id ++ [UInt8.ofNat (s.peerToBytes id).length]) =
      .ok (some ⟨some id, ss, body ++ sender.intoBytes.val⟩) := by
  have hlen : (UInt8.ofNat (s.peerToBytes id).length).toNat = (s.peerToBytes id).length := by
    rw [UInt8.toNat_ofNat']
    exact Nat.mod_eq_of_lt (hs.length_toBytes id)
  unfold nextHop
  rw [List.getLast?_concat, List.dropLast_concat]
  simp [hlen, hs.fromBytes_toBytes]

/-- The two arrays at the end of every packet for `node`. -/
theorem peelInitial_append (seed : Sized 32) (body : Bytes) :
    peelInitial node (body ++ (client.encapsulate node.publicKey seed).1.intoBytes.val ++
        client.publicKey.intoBytes.val) =
      if body.isEmpty then .ok (some ⟨none, (client.encapsulate node.publicKey seed).2, []⟩)
      else
        match peelWihKey s (client.encapsulate node.publicKey seed).2 body with
        | none => .ok none
        | some plain =>
          nextHop (client.encapsulate node.publicKey seed).2 client.publicKey.intoBytes plain := by
  unfold peelInitial
  rw [if_neg]
  · simp only [splitTail_append, Ciphertext.fromBytes_intoBytes,
      KeyPair.decapsulate_encapsulate hs]
  · have hct := (client.encapsulate node.publicKey seed).1.intoBytes.property
    have hpk := client.publicKey.intoBytes.property
    simp only [List.length_append]
    omega

/-- A node that takes off its layer finds what the client put there. -/
theorem peelInitial_addHop (id : s.PeerId) (coins : Coins) (body : Bytes) :
    peelInitial node (addHop client (node.publicKey, id) coins body ++
        client.publicKey.intoBytes.val) =
      .ok (some ⟨some id, (client.encapsulate node.publicKey coins.seed).2,
        body ++ client.publicKey.intoBytes.val⟩) := by
  unfold addHop wrap
  simp only
  rw [peelInitial_append hs, if_neg, peelWihKey_encrypt hs]
  · exact nextHop_append hs _ _ _ _
  · have hlen := hs.length_encrypt (client.encapsulate node.publicKey coins.seed).2 coins.nonce
      (body ++ s.peerToBytes id ++ [UInt8.ofNat (s.peerToBytes id).length])
    rw [List.length_append, List.length_singleton] at hlen
    rw [List.isEmpty_iff]
    intro hnil
    rw [List.append_eq_nil_iff, List.append_eq_nil_iff] at hnil
    rw [hnil.1.1, List.length_nil] at hlen
    omega

/-- The recipient finds no layer. -/
theorem peelInitial_last (seed : Sized 32) :
    peelInitial node ((client.encapsulate node.publicKey seed).1.intoBytes.val ++
        client.publicKey.intoBytes.val) =
      .ok (some ⟨none, (client.encapsulate node.publicKey seed).2, []⟩) := by
  have hpeel := peelInitial_append hs client node seed []
  rw [List.nil_append] at hpeel
  exact hpeel

theorem length_addHop (hop : PublicKey × s.PeerId) (coins : Coins) (body : Bytes) :
    body.length < (addHop client hop coins body).length := by
  unfold addHop wrap
  simp only [List.length_append, List.length_singleton, hs.length_encrypt]
  omega

end Layers

abbrev PathId := UInt64

structure StreamRequest (s : Suite) where
  receiver : s.PeerId
  pathId : PathId
  recipient : PublicKey
  path : List (PublicKey × s.PeerId)

/-- From the last element on, each key is swapped with the one kept in hand. -/
def swapKeys (path : List (PublicKey × s.PeerId)) (recipient : PublicKey) :
    List (PublicKey × s.PeerId) × PublicKey :=
  path.foldr (fun hop acc => ((acc.2, hop.2) :: acc.1, hop.1)) ([], recipient)

/-- The request that is pushed, unless it is for this node. `last` is the last
element of the array and `path` the others. -/
def openPath [DecidableEq s.PeerId] (current : s.PeerId) (pathId : PathId)
    (path : List (PublicKey × s.PeerId)) (last : PublicKey × s.PeerId) :
    Except Panic (Option (StreamRequest s)) :=
  if (path.zip path.tail).all fun (a, b) => a.2 ≠ b.2 then
    let (path, recipient) := swapKeys path last.1
    if last.2 = current then .ok none
    else .ok (some ⟨last.2, pathId, recipient, path⟩)
  else .error .equalPeers

/-- Every id is paired with the key of the node that is told about it. -/
theorem openPath_eq_some [DecidableEq s.PeerId] {a b c : PublicKey} {idA idB idC current : s.PeerId}
    {pathId : PathId} {request : StreamRequest s}
    (hopen : openPath current pathId [(a, idA), (b, idB)] (c, idC) = .ok (some request)) :
    request = ⟨idC, pathId, a, [(b, idA), (c, idB)]⟩ := by
  unfold openPath at hopen
  split_ifs at hopen
  · cases hopen
  · cases hopen
    rfl

/-- The packet of a path of three nodes goes from the last one over the second to
the first, which gets the key of the client. -/
theorem openPath_leads_to_recipient [DecidableEq s.PeerId] (hs : s.Lawful)
    (client a b c : KeyPair s) (idA idB idC current : s.PeerId) (pathId : PathId)
    (seed : Sized 32) (coins : ℕ → Coins) (request : StreamRequest s)
    (hopen : openPath current pathId [(a.publicKey, idA), (b.publicKey, idB)]
      (c.publicKey, idC) = .ok (some request)) :
    let (packet, key) := newInitial request.recipient request.path client seed coins
    request.receiver = idC ∧ ∃ forB forA atA,
      peelInitial c packet = .ok (some forB) ∧ forB.next = some idB ∧
      forB.packet.length < packet.length ∧
      peelInitial b forB.packet = .ok (some forA) ∧ forA.next = some idA ∧
      forA.packet.length < forB.packet.length ∧
      peelInitial a forA.packet = .ok (some atA) ∧ atA.next = none ∧ atA.secret = key := by
  cases openPath_eq_some hopen
  simp only [newInitial, addHops, Nat.zero_add]
  refine ⟨trivial, _, _, _, peelInitial_addHop hs client c idB _ _, rfl, ?_,
    peelInitial_addHop hs client b idA _ _, rfl, ?_, peelInitial_last hs client a seed, rfl, rfl⟩
  · simp only [List.length_append]
    have hlen := length_addHop hs client (c.publicKey, idB) (coins 1) (addHop client
      (b.publicKey, idA) (coins 0) (client.encapsulate a.publicKey seed).1.intoBytes.val)
    omega
  · simp only [List.length_append]
    have hlen := length_addHop hs client (b.publicKey, idA) (coins 0)
      (client.encapsulate a.publicKey seed).1.intoBytes.val
    omega

section Example

def repeated (n : ℕ) (byte : UInt8) : Sized n := ⟨List.replicate n byte, List.length_replicate⟩

/-- Bytes that are added to the key stream are taken off by adding them again. -/
def mask (key : SharedSecret) (data : Bytes) : Bytes := data.map (· ^^^ key.head)

def keyTag (key : SharedSecret) : Sized tagSize := ⟨key.val.take 16, by simp [tagSize]⟩

/-- A cipher that adds the first byte of the key and is authenticated by all of
it, over keys that are their own public keys. Peer ids are hashes of one byte. -/
def maskSuite : Suite where
  Kyber := Sized 1184
  X25519 := Sized 32
  PeerId := UInt8
  kyberPublic := id
  enc pk seed := (join seed (repeated 1056 0), .zipWith (· ^^^ ·) seed (@split 32 1152 pk).1)
  dec k c := some (.zipWith (· ^^^ ·) (@split 32 1056 c).1 (@split 32 1152 k).1)
  xPublic := id
  diffieHellman a b := .zipWith (· ^^^ ·) a b
  encrypt key _ data := (mask key data, keyTag key)
  decrypt key _ data tag := if tag = keyTag key then some (mask key data) else none
  peerToBytes id := [0, 1, id]
  peerFromBytes bytes := if bytes.take 2 = [0, 1] then bytes[2]? else none

theorem zipWith_xor_comm (a b : Sized 32) :
    List.Vector.zipWith (· ^^^ ·) a b = List.Vector.zipWith (· ^^^ ·) b a := by
  apply List.Vector.ext
  intro i
  rw [List.Vector.zipWith_get, List.Vector.zipWith_get, UInt8.xor_comm]

theorem maskSuite_lawful : maskSuite.Lawful where
  dec_enc k seed := by
    simp only [maskSuite, id, split_join]
  diffieHellman_comm := zipWith_xor_comm
  length_encrypt key nonce data := by
    change (mask key data).length = data.length
    simp [mask]
  decrypt_encrypt key nonce data := by
    change (if keyTag key = keyTag key then some (mask key (mask key data)) else none) = some data
    rw [if_pos rfl]
    simp [mask, Function.comp_def, UInt8.xor_assoc]
  fromBytes_toBytes id := rfl
  length_toBytes id := by
    change 3 < 256
    omega

def maskPair (byte : UInt8) : KeyPair maskSuite := ⟨repeated 1184 byte, repeated 32 byte⟩

instance : DecidableEq maskSuite.PeerId := inferInstanceAs (DecidableEq UInt8)

theorem openPath_leads_over_three : ∃ request : StreamRequest maskSuite,
    openPath (s := maskSuite) (4 : UInt8) 0 [((maskPair 1).publicKey, (1 : UInt8)),
      ((maskPair 2).publicKey, (2 : UInt8))] ((maskPair 3).publicKey, (3 : UInt8)) =
        .ok (some request) ∧
    request.receiver = (3 : UInt8) ∧ ∃ forB, peelInitial (maskPair 3) (newInitial request.recipient
      request.path (maskPair 5) (repeated 32 0) fun _ => ⟨repeated 32 1, repeated 12 0⟩).1 =
        .ok (some forB) ∧ forB.next = some (2 : UInt8) := by
  have hopen : openPath (s := maskSuite) (4 : UInt8) 0 [((maskPair 1).publicKey, (1 : UInt8)),
      ((maskPair 2).publicKey, (2 : UInt8))] ((maskPair 3).publicKey, (3 : UInt8)) =
        .ok (some ⟨(3 : UInt8), 0, (maskPair 1).publicKey, [((maskPair 2).publicKey, (1 : UInt8)),
          ((maskPair 3).publicKey, (2 : UInt8))]⟩) := rfl
  obtain ⟨hreceiver, forB, -, -, hpeel, hnext, -⟩ := openPath_leads_to_recipient maskSuite_lawful
    (maskPair 5) (maskPair 1) (maskPair 2) (maskPair 3) _ _ _ _ _ (repeated 32 0)
    (fun _ => ⟨repeated 32 1, repeated 12 0⟩) _ hopen
  exact ⟨_, hopen, hreceiver, forB, hpeel, hnext⟩

end Example

end OrionNetwork.Onion
