import OrionNetwork.MessageBlock

/-!
# Hashes of message blocks

A block hash is a left fold of a two-argument hash over the sorted hashes of
its messages. Leaves and inner nodes come from one unkeyed function, which is a
parameter here: `combine l r` hashes the 64 bytes of `l` followed by `r`, and a
leaf hashes the bytes of a message.
-/
namespace OrionNetwork.BlockHash
open Codec MessageBlock

/-- `[u8; 32]`. -/
structure Hash where
  bytes : Bytes
  size : bytes.length = 32
  deriving DecidableEq

namespace Hash

@[ext] theorem ext_bytes {a b : Hash} (h : a.bytes = b.bytes) : a = b := by
  cases a; cases b; simp_all

/-- The array of zeros, which is also what an unused vote slot holds. -/
def zero : Hash := ⟨List.replicate 32 0, by simp⟩

instance : Inhabited Hash := ⟨zero⟩

/-- Arrays are ordered lexicographically. -/
def le (a b : Hash) : Bool := decide (a.bytes ≤ b.bytes)

theorem le_trans' (a b c : Hash) (hab : le a b = true) (hbc : le b c = true) : le a c = true := by
  simp only [le, decide_eq_true_eq] at *
  exact List.le_trans hab hbc

theorem le_total' (a b : Hash) : (le a b || le b a) = true := by
  simp only [le, Bool.or_eq_true, decide_eq_true_eq]
  exact List.le_total _ _

theorem le_antisymm' (a b : Hash) (hab : le a b = true) (hba : le b a = true) : a = b := by
  simp only [le, decide_eq_true_eq] at *
  exact ext_bytes (List.le_antisymm hab hba)

end Hash

/-- What a handler takes from outside the repository: the hash function, and
whether the build profile panics on arithmetic overflow or wraps. -/
structure Host where
  blake3 : Bytes → Hash
  overflowChecks : Bool

/-- Ways a handler ends without returning. -/
inductive Panic where
  | overflow
  | todo (msg : String)
  | expect (msg : String)
  deriving DecidableEq, Repr

def combine (host : Host) (left right : Hash) : Hash := host.blake3 (left.bytes ++ right.bytes)

/-- `hash_temp` after the sort. A total antisymmetric order leaves no choice to
an unstable sort. -/
def leafHashes (host : Host) (block : Bytes) : List Hash :=
  ((unpackMessages block).map host.blake3).mergeSort Hash.le

/-- The hash of the block, with the sorted leaf hashes left in `hash_temp`. -/
def hashBlock (host : Host) (block : Bytes) : Except Panic (Hash × List Hash) :=
  match leafHashes host block with
  | [] => .error (.expect "we checked size limits")
  | leaf :: leaves => .ok (leaves.foldl (combine host) leaf, leaf :: leaves)

/-- The same with the vector `hash_temp`, which other calls have used before. -/
def hashBlockTemp (host : Host) (block : Bytes) (hashTemp : List Hash) :
    Except Panic Hash × List Hash :=
  let hashTemp := hashTemp.take 0
  let hashTemp := hashTemp ++ (unpackMessages block).map host.blake3
  let hashTemp := hashTemp.mergeSort Hash.le
  match hashTemp with
  | [] => (.error (.expect "we checked size limits"), [])
  | leaf :: leaves => (.ok (leaves.foldl (combine host) leaf), leaf :: leaves)

theorem hashBlock_of_leaves {host : Host} {block : Bytes} {leaf : Hash} {leaves : List Hash}
    (h : leafHashes host block = leaf :: leaves) :
    hashBlock host block = .ok (leaves.foldl (combine host) leaf, leaf :: leaves) := by
  rw [hashBlock, h]

/-- A block of one message has the hash of the message. -/
theorem hashBlock_singleton {host : Host} {msg : Bytes} {hash : Hash} (h : host.blake3 msg = hash)
    (hlen : msg.length < 65536) : hashBlock host (frame msg) = .ok (hash, [hash]) := by
  have hmsgs : unpackMessages (frame msg) = [msg] := by
    simpa using unpackMessages_append_frame [] msg hlen
  have hleaves : leafHashes host (frame msg) = [hash] := by
    simp [leafHashes, hmsgs, h]
  exact hashBlock_of_leaves hleaves

theorem leafHashes_perm (host : Host) (block : Bytes) :
    (leafHashes host block).Perm ((unpackMessages block).map host.blake3) :=
  List.mergeSort_perm _ _

theorem leafHashes_sorted (host : Host) (block : Bytes) :
    (leafHashes host block).Pairwise (fun a b => Hash.le a b = true) :=
  List.pairwise_mergeSort Hash.le_trans' Hash.le_total' _

/-- The order of the messages does not matter. -/
theorem leafHashes_eq_of_perm {host : Host} {a b : Bytes}
    (h : (unpackMessages a).Perm (unpackMessages b)) : leafHashes host a = leafHashes host b := by
  have hperm : (leafHashes host a).Perm (leafHashes host b) :=
    (leafHashes_perm host a).trans ((h.map _).trans (leafHashes_perm host b).symm)
  exact hperm.eq_of_pairwise (fun x y _ _ hxy hyx => Hash.le_antisymm' x y hxy hyx)
    (leafHashes_sorted host a) (leafHashes_sorted host b)

theorem mem_leafHashes (host : Host) (block : Bytes) (h : Hash) :
    h ∈ leafHashes host block ↔ ∃ m ∈ unpackMessages block, host.blake3 m = h := by
  rw [(leafHashes_perm host block).mem_iff, List.mem_map]

theorem length_leafHashes (host : Host) (block : Bytes) :
    (leafHashes host block).length = (unpackMessages block).length := by
  rw [(leafHashes_perm host block).length_eq, List.length_map]

/-- Hashing panics exactly on a block without a readable message. -/
theorem hashBlock_ok (host : Host) (block : Bytes) (h : unpackMessages block ≠ []) :
    ∃ hash, hashBlock host block = .ok (hash, leafHashes host block) := by
  have hl := length_leafHashes host block
  rw [hashBlock]
  cases he : leafHashes host block with
  | nil =>
    rw [he] at hl
    exact absurd (List.length_eq_zero_iff.mp hl.symm) h
  | cons leaf leaves => exact ⟨_, rfl⟩

theorem hashBlockTemp_eq (host : Host) (block : Bytes) (hashTemp : List Hash) :
    hashBlockTemp host block hashTemp =
      ((hashBlock host block).map Prod.fst, leafHashes host block) := by
  have hleaves : (hashTemp.take 0 ++ (unpackMessages block).map host.blake3).mergeSort Hash.le =
      leafHashes host block := by
    rw [List.take_zero, List.nil_append, leafHashes]
  simp only [hashBlockTemp, hashBlock, hleaves]
  cases leafHashes host block <;> rfl

theorem ne_nil_of_hashBlock {host : Host} {block : Bytes} {r : Hash × List Hash}
    (h : hashBlock host block = .ok r) : unpackMessages block ≠ [] := by
  intro hn
  have hl := length_leafHashes host block
  rw [hn, List.length_nil] at hl
  rw [hashBlock, List.length_eq_zero_iff.mp hl] at h
  contradiction

end OrionNetwork.BlockHash
