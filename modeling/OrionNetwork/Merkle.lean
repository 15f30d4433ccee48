import OrionNetwork.CountingLoops
import OrionNetwork.DyadicBlocks

/-!
# The Merkle tree

The nodes of a binary tree over the leaves are kept in one vector, in order. A
tree whose number of leaves is no power of two lacks nodes on its right edge:
where the right half of a block is empty, the block has no node of its own and
the root of its left half stands for it. Walks from a leaf to the root follow
the centers of the blocks as if all of them were there, and `clamp` is the node
that really stands for the last block.
-/
namespace OrionNetwork.Merkle
open Loops DyadicBlocks

class MerkleHash (T : Type*) extends Inhabited T where
  combine : T → T → T

open MerkleHash

variable {T : Type*}

structure MerkleTree (T : Type*) where
  nodes : List T

def nextPowerOfTwo (n : ℕ) : ℕ := 2 ^ Nat.clog 2 n

/-- The variables of the loop in `psuh`. -/
structure Climb (T : Type*) where
  nodes : List T
  cursor : ℕ
  clamp : ℕ
  width : ℕ
  directionMask : ℕ

/-- The variables of the iterator `proof`, which does not change the nodes. -/
structure Walk where
  clampCursor : ℕ
  clamp : ℕ
  clampMask : ℕ
  cursor : ℕ
  width : ℕ
  directionMask : ℕ

section Code

variable [MerkleHash T]

/-- One round of `psuh`. An index out of bounds panics, like a subtraction below
zero. -/
def Climb.round (c : Climb T) : Option (Climb T) :=
  if c.directionMask &&& 1 = 0 then
    some { c with
      cursor := c.cursor + c.width
      width := c.width <<< 1
      directionMask := c.directionMask >>> 1 }
  else if c.cursor < 2 * c.width then none
  else
    let cursor := c.cursor - c.width
    match c.nodes[cursor - c.width]?, c.nodes[min (cursor + c.width) c.clamp]? with
    | some left, some right =>
      if cursor < c.nodes.length then
        some {
          nodes := c.nodes.set cursor (combine left right)
          cursor := cursor
          clamp := cursor
          width := c.width <<< 1
          directionMask := c.directionMask >>> 1 }
      else none
    | _, _ => none

/-- One pass of the loop in `proof`: the sibling, if it has a node. -/
def Walk.pass (nodes : List T) (w : Walk) : Option (Option T × Walk) :=
  if w.directionMask &&& 1 ≠ 0 ∧ w.cursor < 2 * w.width then none
  else
    let cursor :=
      if w.directionMask &&& 1 = 0 then w.cursor + w.width else w.cursor - w.width
    let opposite :=
      if w.directionMask &&& 1 = 0 then cursor + w.width else cursor - w.width
    if w.clampMask &&& 1 = 0 then
      some (nodes[opposite]?, {
        clampCursor := w.clampCursor + w.width
        clamp := w.clamp
        clampMask := w.clampMask >>> 1
        cursor := cursor
        width := w.width <<< 1
        directionMask := w.directionMask >>> 1 })
    else if w.clampCursor < w.width then none
    else
      match nodes[min opposite w.clamp]? with
      | none => none
      | some value =>
        some (some value, {
          clampCursor := w.clampCursor - w.width
          clamp := w.clampCursor - w.width
          clampMask := w.clampMask >>> 1
          cursor := cursor
          width := w.width <<< 1
          directionMask := w.directionMask >>> 1 })

/-- The items of the iterator. A pass without an item goes on with the next. -/
def Walk.items (nodes : List T) : ℕ → Walk → Option (List T)
  | 0, _ => some []
  | fuel + 1, w =>
    match w.pass nodes with
    | none => none
    | some (value, w) => (items nodes fuel w).map (value.toList ++ ·)

/-- The nodes afterwards and the hash of the slice; an empty slice panics. -/
def comuteRecur (nodes : List T) : Option (List T × T) :=
  match nodes with
  | [] => none
  | [node] => some ([node], node)
  | a :: b :: rest =>
    let mid := (a :: b :: rest).length / 2
    let left := (a :: b :: rest).take mid
    let right := (a :: b :: rest).drop (mid + 1)
    (comuteRecur left).bind fun l => (comuteRecur right).map fun r =>
      (l.1 ++ combine l.2 r.2 :: r.1, combine l.2 r.2)
termination_by nodes.length
decreasing_by
  · simp only [List.length_take, List.length_cons]; omega
  · simp only [List.length_drop, List.length_cons]; omega

namespace MerkleTree

def new (root : T) : MerkleTree T := ⟨[root]⟩

def fromBase (base : List T) : Option (MerkleTree T) :=
  (comuteRecur (base.intersperse default)).map fun r => ⟨r.1⟩

def root (t : MerkleTree T) : Option T :=
  if nextPowerOfTwo t.nodes.length / 2 = 0 then none
  else t.nodes[nextPowerOfTwo t.nodes.length / 2 - 1]?

def psuh (t : MerkleTree T) (value : T) : Option (MerkleTree T) :=
  let nodes := t.nodes ++ [default, value]
  let climb : Climb T := {
    nodes := nodes
    cursor := nodes.length - 1
    clamp := nodes.length - 1
    width := 1
    directionMask := nodes.length >>> 1 }
  (tryTo (fun _ c => c.round) nodes.length.log2 climb).map fun c => ⟨c.nodes⟩

def proof (t : MerkleTree T) (index : ℕ) : Option (List T) :=
  Walk.items t.nodes t.nodes.length.log2 {
    clampCursor := t.nodes.length - 1
    clamp := t.nodes.length - 1
    clampMask := t.nodes.length >>> 1
    cursor := index
    width := 1
    directionMask := (index + 1) >>> 1 }

/-- `new` of the first leaf, then `psuh` of the others. -/
def ofLeaves (first : T) (rest : List T) : Option (MerkleTree T) :=
  rest.foldlM psuh (new first)

end MerkleTree

end Code

section Specification

variable [MerkleHash T]

/-- The largest power of two below `n`. -/
def splitPoint (n : ℕ) : ℕ := 2 ^ (n - 1).log2

theorem splitPoint_lt {n : ℕ} (h : 2 ≤ n) : splitPoint n < n := by
  have hle := Nat.log2_self_le (n := n - 1) (by omega)
  unfold splitPoint
  omega

theorem splitPoint_pos (n : ℕ) : 0 < splitPoint n := Nat.two_pow_pos _

/-- The hash of a sequence of leaves. -/
def rootHash (leaves : List T) : T :=
  match leaves with
  | [] => default
  | [leaf] => leaf
  | a :: b :: rest =>
    let mid := splitPoint (a :: b :: rest).length
    combine (rootHash ((a :: b :: rest).take mid)) (rootHash ((a :: b :: rest).drop mid))
termination_by leaves.length
decreasing_by
  · have hlt := splitPoint_lt (n := (a :: b :: rest).length) (by simp)
    rw [List.length_take]
    omega
  · have hpos := splitPoint_pos (a :: b :: rest).length
    have hlen : 0 < (a :: b :: rest).length := Nat.succ_pos _
    rw [List.length_drop]
    omega

/-- Where a sibling is. -/
inductive Side where
  | left
  | right
  deriving DecidableEq

/-- The sibling subtrees on the path of leaf `i`, leaf to root. -/
def siblings (leaves : List T) (i : ℕ) : List (Side × T) :=
  match leaves with
  | [] => []
  | [_] => []
  | a :: b :: rest =>
    let mid := splitPoint (a :: b :: rest).length
    if i < mid then
      siblings ((a :: b :: rest).take mid) i ++
        [(.right, rootHash ((a :: b :: rest).drop mid))]
    else
      siblings ((a :: b :: rest).drop mid) (i - mid) ++
        [(.left, rootHash ((a :: b :: rest).take mid))]
termination_by leaves.length
decreasing_by
  · have hlt := splitPoint_lt (n := (a :: b :: rest).length) (by simp)
    rw [List.length_take]
    omega
  · have hpos := splitPoint_pos (a :: b :: rest).length
    have hlen : 0 < (a :: b :: rest).length := Nat.succ_pos _
    rw [List.length_drop]
    omega

def fold (leaf : T) (path : List (Side × T)) : T :=
  path.foldl (fun acc sibling =>
    match sibling.1 with
    | .left => combine sibling.2 acc
    | .right => combine acc sibling.2) leaf

theorem fold_concat (leaf : T) (path : List (Side × T)) (sibling : Side × T) :
    fold leaf (path ++ [sibling]) =
      match sibling.1 with
      | .left => combine sibling.2 (fold leaf path)
      | .right => combine (fold leaf path) sibling.2 := by
  rw [fold, List.foldl_append]
  rfl

theorem rootHash_eq {leaves : List T} (h : 2 ≤ leaves.length) :
    rootHash leaves = combine (rootHash (leaves.take (splitPoint leaves.length)))
      (rootHash (leaves.drop (splitPoint leaves.length))) := by
  match leaves, h with
  | a :: b :: rest, _ => rw [rootHash]

theorem siblings_eq {leaves : List T} (h : 2 ≤ leaves.length) (i : ℕ) :
    siblings leaves i =
      if i < splitPoint leaves.length then
        siblings (leaves.take (splitPoint leaves.length)) i ++
          [(.right, rootHash (leaves.drop (splitPoint leaves.length)))]
      else
        siblings (leaves.drop (splitPoint leaves.length)) (i - splitPoint leaves.length) ++
          [(.left, rootHash (leaves.take (splitPoint leaves.length)))] := by
  match leaves, h with
  | a :: b :: rest, _ => rw [siblings]

/-- Folding the siblings into the leaf gives the hash of the sequence. -/
theorem fold_siblings {leaves : List T} {i : ℕ} {leaf : T} (hleaf : leaves[i]? = some leaf) :
    fold leaf (siblings leaves i) = rootHash leaves := by
  induction hn : leaves.length using Nat.strong_induction_on generalizing leaves i with
  | _ n ih =>
    obtain ⟨hi, rfl⟩ := List.getElem?_eq_some_iff.mp hleaf
    rcases Nat.lt_or_ge n 2 with hsmall | hlarge
    · obtain ⟨x, rfl⟩ : ∃ x, leaves = [x] := List.length_eq_one_iff.mp (by omega)
      obtain rfl : i = 0 := by simpa using hi
      simp [siblings, fold, rootHash]
    · have hlt := splitPoint_lt (n := leaves.length) (by omega)
      have hpos := splitPoint_pos leaves.length
      have hroot := rootHash_eq (T := T) (show 2 ≤ leaves.length by omega)
      rw [siblings_eq (by omega), hroot]
      split_ifs with hside
      · have htake : (leaves.take (splitPoint leaves.length))[i]? = some leaves[i] := by
          rw [List.getElem?_take_of_lt hside, hleaf]
        rw [fold_concat, ih _ (by rw [List.length_take]; omega) htake rfl]
      · have hdrop : (leaves.drop (splitPoint leaves.length))[i - splitPoint leaves.length]? =
            some leaves[i] := by
          rw [List.getElem?_drop, Nat.add_sub_cancel' (Nat.le_of_not_lt hside), hleaf]
        rw [fold_concat, ih _ (by rw [List.length_drop]; omega) hdrop rfl]

/-- A commutative hash does not mind the sides. -/
theorem foldl_siblings_of_comm (hcomm : ∀ a b : T, combine a b = combine b a) (leaf : T)
    (path : List (Side × T)) :
    (path.map (·.2)).foldl combine leaf = fold leaf path ∧
      (path.map (·.2)).foldl (fun acc h => combine h acc) leaf = fold leaf path := by
  rw [fold, List.foldl_map, List.foldl_map]
  constructor
  · congr 1
    funext acc sibling
    cases sibling.1
    · exact hcomm _ _
    · rfl
  · congr 1
    funext acc sibling
    cases sibling.1
    · rfl
    · exact hcomm _ _

end Specification

section Blocks

variable {leaves : List T} {b s : ℕ}

/-- The leaves of a block. -/
def block (leaves : List T) (b s : ℕ) : List T := (leaves.drop s).take (2 ^ b)

theorem length_block (leaves : List T) (b s : ℕ) :
    (block leaves b s).length = min (2 ^ b) (leaves.length - s) := by
  rw [block, List.length_take, List.length_drop]

theorem splitPoint_block (h : s + 2 ^ b < leaves.length) :
    splitPoint (block leaves (b + 1) s).length = 2 ^ b := by
  have hpos := Nat.two_pow_pos b
  have hpow : 2 ^ (b + 1) = 2 * 2 ^ b := pow_succ' 2 b
  have hlow : 2 ^ b < (block leaves (b + 1) s).length := by
    rw [length_block, hpow]
    omega
  have hhigh : (block leaves (b + 1) s).length ≤ 2 ^ (b + 1) := by
    rw [length_block]
    exact Nat.min_le_left _ _
  have hlog : ((block leaves (b + 1) s).length - 1).log2 = b :=
    (Nat.log2_eq_iff (by omega)).mpr ⟨by omega, by omega⟩
  rw [splitPoint, hlog]

theorem two_le_block (h : s + 2 ^ b < leaves.length) : 2 ≤ (block leaves (b + 1) s).length := by
  have hpow : 2 ^ (b + 1) = 2 * 2 ^ b := pow_succ' 2 b
  have hpos := Nat.two_pow_pos b
  rw [length_block, hpow]
  omega

theorem take_block (leaves : List T) (b s : ℕ) :
    (block leaves (b + 1) s).take (2 ^ b) = block leaves b s := by
  have hpow := pow_succ 2 b
  rw [block, block, List.take_take, Nat.min_eq_left (by omega)]

theorem drop_block (leaves : List T) (b s : ℕ) :
    (block leaves (b + 1) s).drop (2 ^ b) = block leaves b (s + 2 ^ b) := by
  have hpow : 2 ^ (b + 1) - 2 ^ b = 2 ^ b := by rw [pow_succ]; omega
  rw [block, block, List.drop_take, List.drop_drop, hpow]

theorem block_succ_of_le (h : leaves.length ≤ s + 2 ^ b) :
    block leaves (b + 1) s = block leaves b s := by
  have hpow := pow_succ 2 b
  rw [block, block, List.take_of_length_le, List.take_of_length_le]
  · rw [List.length_drop]; omega
  · rw [List.length_drop]; omega

variable [MerkleHash T]

def blockHash (leaves : List T) (b s : ℕ) : T := rootHash (block leaves b s)

theorem blockHash_zero (h : s < leaves.length) : blockHash leaves 0 s = leaves[s] := by
  have hblock : block leaves 0 s = [leaves[s]] := by
    rw [block, List.drop_eq_getElem_cons h]
    rfl
  rw [blockHash, hblock, rootHash]

theorem blockHash_succ (h : s + 2 ^ b < leaves.length) :
    blockHash leaves (b + 1) s =
      combine (blockHash leaves b s) (blockHash leaves b (s + 2 ^ b)) := by
  rw [blockHash, rootHash_eq (two_le_block h), splitPoint_block h, take_block, drop_block]
  rfl

theorem blockHash_succ_of_le (h : leaves.length ≤ s + 2 ^ b) :
    blockHash leaves (b + 1) s = blockHash leaves b s := by
  rw [blockHash, block_succ_of_le h, blockHash]

/-- A block that covers the leaves has the hash of all of them. -/
theorem blockHash_all (h : leaves.length ≤ 2 ^ b) : blockHash leaves b 0 = rootHash leaves := by
  rw [blockHash, block, List.drop_zero, List.take_of_length_le h]

/-- The hash of a block does not depend on leaves after it. -/
theorem blockHash_append (h : s + 2 ^ b ≤ leaves.length) (more : List T) :
    blockHash (leaves ++ more) b s = blockHash leaves b s := by
  have hs : s ≤ leaves.length := Nat.le_of_add_right_le h
  have hb : 2 ^ b ≤ (leaves.drop s).length := by
    rw [List.length_drop]
    omega
  rw [blockHash, blockHash, block, block, List.drop_append_of_le_length hs,
    List.take_append_of_le_length hb]

/-- The index of the node that stands for a block, with `n` leaves in all. -/
def stand (n : ℕ) : ℕ → ℕ → ℕ
  | 0, s => 2 * s
  | b + 1, s => if s + 2 ^ b < n then center (b + 1) s else stand n b s

theorem stand_le_center (n b s : ℕ) : stand n b s ≤ center b s := by
  induction b with
  | zero => rw [stand, center_zero]
  | succ b ih =>
    rw [stand]
    split_ifs
    · exact le_rfl
    · rw [center_left]
      exact Nat.le_add_right_of_le ih

theorem le_stand (n b s : ℕ) : 2 * s ≤ stand n b s := by
  induction b with
  | zero => rw [stand]
  | succ b ih =>
    have hpos := Nat.two_pow_pos (b + 1)
    rw [stand]
    split_ifs
    · rw [center]
      omega
    · exact ih

/-- The standing node is that of a smaller block with the same leaves. -/
theorem stand_spec (hs : s < leaves.length) (b : ℕ) :
    ∃ c ≤ b, stand leaves.length b s = center c s ∧ center c s + 1 < 2 * leaves.length ∧
      blockHash leaves b s = blockHash leaves c s := by
  induction b with
  | zero => exact ⟨0, le_rfl, by rw [stand, center_zero], by rw [center_zero]; omega, rfl⟩
  | succ b ih =>
    rw [stand]
    split_ifs with hsplit
    · have hpow := pow_succ 2 b
      exact ⟨b + 1, le_rfl, rfl, by rw [center]; omega, rfl⟩
    · obtain ⟨c, hc, hstand, hlt, hhash⟩ := ih
      exact ⟨c, by omega, hstand, hlt, (blockHash_succ_of_le (by omega)).trans hhash⟩

/-- Every node has the hash of its block. -/
structure Right (leaves nodes : List T) : Prop where
  length : nodes.length + 1 = 2 * leaves.length
  node : ∀ b s, 2 ^ b ∣ s → center b s < nodes.length →
    nodes[center b s]? = some (blockHash leaves b s)

theorem Right.stand {nodes : List T} (h : Right leaves nodes) (hs : s < leaves.length)
    (hdvd : 2 ^ b ∣ s) : nodes[stand leaves.length b s]? = some (blockHash leaves b s) := by
  obtain ⟨c, hc, hstand, hlt, hhash⟩ := stand_spec hs b
  have hlen := h.length
  rw [hstand, hhash]
  exact h.node c s ((Nat.pow_dvd_pow 2 hc).trans hdvd) (by omega)

theorem Right.unique {nodes nodes' : List T} (h : Right leaves nodes) (h' : Right leaves nodes') :
    nodes = nodes' := by
  have hlen : nodes.length = nodes'.length := by
    have := h.length
    have := h'.length
    omega
  apply List.ext_getElem? 
  intro x
  obtain ⟨b, s, hdvd, rfl⟩ := exists_center x
  by_cases hx : center b s < nodes.length
  · rw [h.node b s hdvd hx, h'.node b s hdvd (hlen ▸ hx)]
  · rw [List.getElem?_eq_none (by omega), List.getElem?_eq_none (by omega)]

end Blocks

end OrionNetwork.Merkle
