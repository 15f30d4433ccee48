import OrionNetwork.Merkle

/-!
# Walks through the Merkle tree

What `psuh`, `proof` and `from_base` do, level by level. Both walks keep the
center of the block around their leaf and the node that stands for the block
around the last leaf. `from_base` halves the vector instead, which meets the
blocks only if the number of leaves is a power of two.
-/
namespace OrionNetwork.Merkle
open Loops DyadicBlocks MerkleHash

variable {T : Type*}

section Push

variable [MerkleHash T] {leaves : List T} {k b : ℕ} {c : Climb T}

/-- Before the round of level `b`: the blocks around the last leaf `k` have
their nodes up to that level, all other blocks have theirs. -/
structure Climbed (leaves : List T) (k b : ℕ) (c : Climb T) : Prop where
  length : c.nodes.length = 2 * k + 1
  cursor : c.cursor = center b (start k b)
  clamp : c.clamp = stand (k + 1) b (start k b)
  width : c.width = 2 ^ b
  directionMask : c.directionMask = k / 2 ^ b
  node : ∀ l s, 2 ^ l ∣ s → center l s ≤ 2 * k → l ≤ b ∨ s + 2 ^ l ≤ k →
    c.nodes[center l s]? = some (blockHash leaves l s)

theorem halve_mask (k b : ℕ) : (k / 2 ^ b) >>> 1 = k / 2 ^ (b + 1) := by
  rw [Nat.shiftRight_eq_div_pow, Nat.div_div_eq_div_mul, pow_one, pow_succ]

theorem double_width (b : ℕ) : 2 ^ b <<< 1 = 2 ^ (b + 1) := by
  rw [Nat.shiftLeft_eq, pow_one, pow_succ]

/-- What is new at the next level is the block around `k`. -/
theorem level_cases {l s : ℕ} (hdvd : 2 ^ l ∣ s) (hcenter : center l s ≤ 2 * k)
    (hl : l ≤ b + 1 ∨ s + 2 ^ l ≤ k) :
    (l ≤ b ∨ s + 2 ^ l ≤ k) ∨ (l = b + 1 ∧ s = start k (b + 1) ∧ s + 2 ^ b ≤ k) := by
  by_cases hold : l ≤ b ∨ s + 2 ^ l ≤ k
  · exact .inl hold
  · push Not at hold
    obtain rfl : l = b + 1 := by omega
    have hhalf := half_le_of_center_le hcenter
    have hle : s ≤ k := Nat.le_of_add_right_le hhalf
    exact .inr ⟨rfl, start_unique hdvd hle hold.2, hhalf⟩

/-- Without leaves in its right half the next block has no node. -/
theorem Climbed.of_even (h : Climbed leaves k b c) (heven : k / 2 ^ b % 2 = 0) :
    Climbed leaves k (b + 1) { c with
      cursor := c.cursor + c.width
      width := c.width <<< 1
      directionMask := c.directionMask >>> 1 } := by
  have hstart := start_succ_of_even heven
  have hlt := lt_start_add k b
  refine ⟨h.length, ?_, ?_, ?_, ?_, ?_⟩
  · rw [h.cursor, h.width, hstart, center_left]
  · rw [h.clamp, hstart, stand, if_neg (by omega)]
  · rw [h.width, double_width]
  · rw [h.directionMask, halve_mask]
  · intro l s hdvd hcenter hl
    rcases level_cases hdvd hcenter hl with hold | ⟨rfl, rfl, hhalf⟩
    · exact h.node l s hdvd hcenter hold
    · omega

/-- The left half of a block around `k` lies before `k`. -/
theorem Climbed.left_half (h : Climbed leaves k b c) (hodd : k / 2 ^ b % 2 = 1) :
    c.nodes[center b (start k (b + 1))]? = some (blockHash leaves b (start k (b + 1))) := by
  have hstart := start_of_odd hodd
  have hle := start_le k b
  have hbefore : start k (b + 1) + 2 ^ b ≤ k := by omega
  have hlt := center_lt_of_le hbefore
  exact h.node b _ ((Nat.pow_dvd_pow 2 (Nat.le_succ b)).trans (dvd_start k (b + 1)))
    (by omega) (.inl le_rfl)

/-- The right half is the block around `k` of the level below. -/
theorem Climbed.right_half (h : Climbed leaves k b c) (hlen : leaves.length = k + 1) :
    c.nodes[stand (k + 1) b (start k b)]? = some (blockHash leaves b (start k b)) := by
  have hle := start_le k b
  have hin : start k b < leaves.length := by omega
  obtain ⟨l, hlb, hstand, hlt, hhash⟩ := stand_spec hin b
  rw [← hlen, hstand, hhash]
  exact h.node l _ ((Nat.pow_dvd_pow 2 hlb).trans (dvd_start k b)) (by omega) (.inl hlb)

theorem Climbed.of_odd (h : Climbed leaves k b c) (hlen : leaves.length = k + 1)
    (hodd : k / 2 ^ b % 2 = 1) :
    ∃ c', c.round = some c' ∧ Climbed leaves k (b + 1) c' := by
  have hpos := Nat.two_pow_pos b
  have hstart := start_of_odd hodd
  have hle := start_le k b
  have hleft := center_left b (start k (b + 1))
  have hright := center_right b (start k (b + 1))
  rw [← hstart] at hright
  have hl := h.left_half hodd
  have hr := h.right_half hlen
  have hmin : min (center b (start k b)) (stand (k + 1) b (start k b)) =
      stand (k + 1) b (start k b) := Nat.min_eq_right (stand_le_center _ _ _)
  have hsum : blockHash leaves (b + 1) (start k (b + 1)) =
      combine (blockHash leaves b (start k (b + 1))) (blockHash leaves b (start k b)) := by
    rw [hstart]
    exact blockHash_succ (by omega)
  have hcenter : center (b + 1) (start k (b + 1)) < 2 * k + 1 := by
    rw [center, pow_succ]
    omega
  refine ⟨{
      nodes := c.nodes.set (center (b + 1) (start k (b + 1)))
        (blockHash leaves (b + 1) (start k (b + 1)))
      cursor := center (b + 1) (start k (b + 1))
      clamp := center (b + 1) (start k (b + 1))
      width := c.width <<< 1
      directionMask := c.directionMask >>> 1 }, ?_, ?_⟩
  · have hcursor : center b (start k b) - 2 ^ b = center (b + 1) (start k (b + 1)) := by omega
    have hopposite : center (b + 1) (start k (b + 1)) - 2 ^ b = center b (start k (b + 1)) := by
      omega
    simp only [Climb.round, h.directionMask, Nat.and_one_is_mod, hodd, h.cursor, h.width,
      h.clamp, hcursor, hopposite, hright, hmin, hl, hr, h.length, hsum]
    rw [if_neg (by decide), if_neg (by omega), if_pos hcenter]
  · refine ⟨?_, rfl, ?_, ?_, ?_, ?_⟩
    · rw [List.length_set, h.length]
    · rw [stand, if_pos (by omega)]
    · rw [h.width, double_width]
    · rw [h.directionMask, halve_mask]
    · intro l s hdvd hin hl
      by_cases heq : center (b + 1) (start k (b + 1)) = center l s
      · obtain ⟨rfl, rfl⟩ := center_injective (dvd_start k (b + 1)) hdvd heq
        exact List.getElem?_set_self (by rw [h.length]; exact hcenter)
      · rw [List.getElem?_set_ne heq]
        rcases level_cases hdvd hin hl with hold | ⟨rfl, rfl, -⟩
        · exact h.node l s hdvd hin hold
        · exact absurd rfl heq

theorem Climbed.round (h : Climbed leaves k b c) (hlen : leaves.length = k + 1) :
    ∃ c', c.round = some c' ∧ Climbed leaves k (b + 1) c' := by
  rcases Nat.mod_two_eq_zero_or_one (k / 2 ^ b) with heven | hodd
  · refine ⟨_, ?_, h.of_even heven⟩
    rw [Climb.round, h.directionMask, Nat.and_one_is_mod, if_pos heven]
  · exact h.of_odd hlen hodd

/-- The whole walk reaches the root. -/
theorem Climbed.right (h : Climbed leaves k b c) (hlen : leaves.length = k + 1)
    (hb : k < 2 ^ b) : Right leaves c.nodes := by
  have hlength := h.length
  refine ⟨by omega, ?_⟩
  intro l s hdvd hin
  refine h.node l s hdvd (by omega) ?_
  by_contra hcontra
  push Not at hcontra
  obtain ⟨hbl, hcover⟩ := hcontra
  obtain ⟨d, rfl⟩ : ∃ d, l = d + 1 := ⟨l - 1, by omega⟩
  have hpow : 2 ^ b ≤ 2 ^ d := Nat.pow_le_pow_right (by decide) (by omega)
  have hhalf := half_le_of_center_le (b := d) (s := s) (k := k) (by omega)
  omega

theorem psuh_right {t : MerkleTree T} (h : Right leaves t.nodes) (hne : leaves ≠ [])
    (value : T) :
    ∃ t', t.psuh value = some t' ∧ Right (leaves ++ [value]) t'.nodes := by
  have hlength := h.length
  have hpos : 0 < leaves.length := List.length_pos_iff.mpr hne
  have hnodes : (t.nodes ++ [default, value]).length = 2 * leaves.length + 1 := by
    simp only [List.length_append, List.length_cons, List.length_nil]
    omega
  have hlen : (leaves ++ [value]).length = leaves.length + 1 := by simp
  have hclimb : Climbed (leaves ++ [value]) leaves.length 0 {
      nodes := t.nodes ++ [default, value]
      cursor := 2 * leaves.length
      clamp := 2 * leaves.length
      width := 1
      directionMask := leaves.length } := by
    refine ⟨hnodes, ?_, ?_, rfl, ?_, ?_⟩
    · rw [start_zero, center_zero]
    · rw [start_zero, stand]
    · rw [pow_zero, Nat.div_one]
    · intro l s hdvd hcenter hl
      by_cases hbefore : s + 2 ^ l ≤ leaves.length
      · have hlt := center_lt_of_le hbefore
        rw [List.getElem?_append_left (by omega), blockHash_append hbefore]
        exact h.node l s hdvd (by omega)
      · obtain rfl : l = 0 := by omega
        rw [center_zero] at hcenter ⊢
        obtain rfl : s = leaves.length := by omega
        rw [blockHash_zero (by omega), List.getElem?_append_right (by omega)]
        have hindex : 2 * leaves.length - t.nodes.length = 1 := by omega
        simp [hindex]
  obtain ⟨c, hc, hclimbed⟩ := tryTo_invariant (f := fun _ c => Climb.round c)
    (n := (2 * leaves.length + 1).log2) (P := Climbed (leaves ++ [value]) leaves.length) hclimb
    fun _ _ _ hP => hP.round hlen
  refine ⟨⟨c.nodes⟩, ?_, hclimbed.right hlen ?_⟩
  · have hmask : (2 * leaves.length + 1) >>> 1 = leaves.length := by
      rw [Nat.shiftRight_eq_div_pow]
      omega
    simp only [MerkleTree.psuh, hnodes, Nat.add_sub_cancel, hmask, hc, Option.map_some]
  · have hlog := Nat.lt_log2_self (n := 2 * leaves.length + 1)
    rw [pow_succ] at hlog
    omega

theorem new_right (first : T) : Right [first] (MerkleTree.new first).nodes := by
  refine ⟨rfl, ?_⟩
  intro b s hdvd hin
  rw [MerkleTree.new, List.length_singleton, center] at hin
  have hpos := Nat.two_pow_pos b
  obtain rfl : s = 0 := by omega
  have hb : 2 ^ b = 2 ^ 0 := by omega
  obtain rfl : b = 0 := Nat.pow_right_injective (le_refl 2) hb
  rw [blockHash_zero (by simp)]
  rfl

/-- Every tree that is built leaf by leaf has the right nodes. -/
theorem ofLeaves_right (first : T) (rest : List T) :
    ∃ t, MerkleTree.ofLeaves first rest = some t ∧ Right (first :: rest) t.nodes := by
  induction rest using List.reverseRecOn with
  | nil => exact ⟨.new first, rfl, new_right first⟩
  | append_singleton rest value ih =>
    obtain ⟨t, ht, hright⟩ := ih
    obtain ⟨t', ht', hright'⟩ := psuh_right hright (List.cons_ne_nil _ _) value
    refine ⟨t', ?_, hright'⟩
    unfold MerkleTree.ofLeaves at ht ⊢
    rw [List.foldlM_append, ht]
    simpa using ht'

end Push

section Proof

variable [MerkleHash T] {leaves nodes : List T} {i k b : ℕ} {w : Walk}

/-- The sibling of the block around leaf `i`. -/
def siblingAt (leaves : List T) (i b : ℕ) : Option (Side × T) :=
  if i / 2 ^ b % 2 = 0 then
    if start i b + 2 ^ b < leaves.length then
      some (.right, blockHash leaves b (start i b + 2 ^ b))
    else none
  else some (.left, blockHash leaves b (start i (b + 1)))

theorem siblings_block (hi : i < leaves.length) (b : ℕ) :
    siblings (block leaves b (start i b)) (i - start i b) =
      (List.range b).filterMap (siblingAt leaves i) := by
  induction b with
  | zero =>
    have hblock : block leaves 0 i = [leaves[i]] := by
      rw [block, List.drop_eq_getElem_cons hi]
      rfl
    rw [start_zero, hblock, siblings]
    rfl
  | succ b ih =>
    rw [List.range_succ, List.filterMap_append, ← ih]
    have hlt := lt_start_add i b
    have hle := start_le i b
    rcases Nat.mod_two_eq_zero_or_one (i / 2 ^ b) with heven | hodd
    · rw [start_succ_of_even heven]
      by_cases hsplit : start i b + 2 ^ b < leaves.length
      · rw [siblings_eq (two_le_block hsplit), splitPoint_block hsplit, take_block, drop_block,
          if_pos (by omega)]
        simp [siblingAt, heven, hsplit, blockHash]
      · rw [block_succ_of_le (by omega)]
        simp [siblingAt, heven, hsplit]
    · have hstart := start_of_odd hodd
      have hsplit : start i (b + 1) + 2 ^ b < leaves.length := by omega
      rw [siblings_eq (two_le_block hsplit), splitPoint_block hsplit, take_block, drop_block,
        if_neg (by omega), ← hstart, Nat.sub_sub, ← hstart]
      simp [siblingAt, hodd, blockHash]

structure Walked (k i b : ℕ) (w : Walk) : Prop where
  clampCursor : w.clampCursor = center b (start k b)
  clamp : w.clamp = stand (k + 1) b (start k b)
  clampMask : w.clampMask = k / 2 ^ b
  cursor : w.cursor = center b (start i b)
  width : w.width = 2 ^ b
  directionMask : w.directionMask = i / 2 ^ b

/-- Where the last leaf is in a left half, no block stands for a larger one. -/
theorem opposite_of_even (h : Right leaves nodes) (hlen : leaves.length = k + 1) {o : ℕ}
    (hdvd : 2 ^ b ∣ o) (hne : o ≠ start k b) :
    nodes[center b o]? = if o < leaves.length then some (blockHash leaves b o) else none := by
  have hlength := h.length
  split_ifs with ho
  · have hbefore := add_le_of_lt hdvd (dvd_start k b)
      (lt_of_le_of_ne (le_start hdvd (by omega)) hne)
    have hcenter := center_lt_of_le (hbefore.trans (start_le k b))
    exact h.node b o hdvd (by omega)
  · have hpos := Nat.two_pow_pos b
    exact List.getElem?_eq_none (by rw [center]; omega)

theorem opposite_of_odd (h : Right leaves nodes) (hlen : leaves.length = k + 1) {o : ℕ}
    (hdvd : 2 ^ b ∣ o) (hle : o ≤ start k b) :
    nodes[min (center b o) (stand (k + 1) b (start k b))]? = some (blockHash leaves b o) := by
  have hlength := h.length
  have hk := start_le k b
  rcases Nat.eq_or_lt_of_le hle with rfl | hlt
  · rw [Nat.min_eq_right (stand_le_center _ _ _), ← hlen]
    exact h.stand (by omega) hdvd
  · have hbefore := add_le_of_lt hdvd (dvd_start k b) hlt
    have hcenter := center_lt_of_le hbefore
    have hstand := le_stand (k + 1) b (start k b)
    rw [Nat.min_eq_left (by omega)]
    exact h.node b o hdvd (by omega)

/-- Both turns at once: `o` is where the sibling block starts. -/
structure Turn (leaves : List T) (k i b o : ℕ) (w : Walk) : Prop where
  dvd : 2 ^ b ∣ o
  inside : ¬ (w.directionMask &&& 1 ≠ 0 ∧ w.cursor < 2 * w.width)
  cursor : (if w.directionMask &&& 1 = 0 then w.cursor + w.width else w.cursor - w.width) =
    center (b + 1) (start i (b + 1))
  opposite : (if w.directionMask &&& 1 = 0 then center (b + 1) (start i (b + 1)) + w.width
    else center (b + 1) (start i (b + 1)) - w.width) = center b o
  sibling : (siblingAt leaves i b).map (·.2) =
    if o < leaves.length then some (blockHash leaves b o) else none
  even : k / 2 ^ b % 2 = 0 → o ≠ start k b
  odd : k / 2 ^ b % 2 = 1 → o ≤ start k b

theorem Walked.turn (h : Walked k i b w) (hlen : leaves.length = k + 1) (hi : i ≤ k) :
    ∃ o, Turn leaves k i b o w := by
  have hpos := Nat.two_pow_pos b
  have hstart := le_start (dvd_start i b) ((start_le i b).trans hi)
  rcases Nat.mod_two_eq_zero_or_one (i / 2 ^ b) with heven | hodd
  · have hmask : w.directionMask &&& 1 = 0 := by rw [h.directionMask, Nat.and_one_is_mod, heven]
    refine ⟨start i b + 2 ^ b, Nat.dvd_add (dvd_start i b) dvd_rfl, ?_, ?_, ?_, ?_, ?_, ?_⟩
    · exact fun hodd => hodd.1 hmask
    · rw [if_pos hmask, h.cursor, h.width, start_succ_of_even heven, center_left]
    · rw [if_pos hmask, h.width, start_succ_of_even heven, center_right]
    · rw [siblingAt, if_pos heven]
      split_ifs <;> rfl
    · intro hk heq
      have := div_succ_of_start_add heq
      omega
    · intro hk
      refine add_le_of_lt (dvd_start i b) (dvd_start k b) (lt_of_le_of_ne hstart ?_)
      intro heq
      have := div_eq_of_start_eq heq
      omega
  · have hmask : w.directionMask &&& 1 ≠ 0 := by
      rw [h.directionMask, Nat.and_one_is_mod, hodd]
      decide
    have hsplit := start_of_odd hodd
    have hleft := center_left b (start i (b + 1))
    have hright := center_right b (start i (b + 1))
    rw [← hsplit] at hright
    have hk := start_le k b
    refine ⟨start i (b + 1), (Nat.pow_dvd_pow 2 (Nat.le_succ b)).trans (dvd_start i (b + 1)),
      ?_, ?_, ?_, ?_, ?_, ?_⟩
    · rw [h.cursor, h.width]
      omega
    · rw [if_neg hmask, h.cursor, h.width]
      omega
    · rw [if_neg hmask, h.width]
      omega
    · rw [siblingAt, if_neg (by omega), if_pos (by omega)]
      rfl
    · intro _ heq
      omega
    · intro _
      omega

/-- A pass yields the sibling of its level. -/
theorem Walked.pass (h : Walked k i b w) (hright : Right leaves nodes)
    (hlen : leaves.length = k + 1) (hi : i ≤ k) :
    ∃ w', w.pass nodes = some ((siblingAt leaves i b).map (·.2), w') ∧
      Walked k i (b + 1) w' := by
  obtain ⟨o, ho⟩ := h.turn hlen hi
  have hwidth : w.width <<< 1 = 2 ^ (b + 1) := by rw [h.width, double_width]
  have hdirection : w.directionMask >>> 1 = i / 2 ^ (b + 1) := by
    rw [h.directionMask, halve_mask]
  have hclampMask : w.clampMask >>> 1 = k / 2 ^ (b + 1) := by rw [h.clampMask, halve_mask]
  unfold Walk.pass
  simp only [if_neg ho.inside, ho.cursor, ho.opposite]
  rcases Nat.mod_two_eq_zero_or_one (k / 2 ^ b) with heven | hodd
  · have hmask : w.clampMask &&& 1 = 0 := by rw [h.clampMask, Nat.and_one_is_mod, heven]
    rw [if_pos hmask, opposite_of_even hright hlen ho.dvd (ho.even heven), ho.sibling]
    refine ⟨_, rfl, ?_, ?_, hclampMask, rfl, hwidth, hdirection⟩
    · change w.clampCursor + w.width = center (b + 1) (start k (b + 1))
      rw [h.clampCursor, h.width, start_succ_of_even heven, center_left]
    · have hlt := lt_start_add k b
      rw [h.clamp, start_succ_of_even heven, stand, if_neg (by omega)]
  · have hmask : w.clampMask &&& 1 ≠ 0 := by
      rw [h.clampMask, Nat.and_one_is_mod, hodd]
      decide
    have hpos := Nat.two_pow_pos b
    have hk := start_le k b
    have hsplit := start_of_odd hodd
    have hcenter := center_right b (start k (b + 1))
    rw [← hsplit] at hcenter
    have hinside : ¬ w.clampCursor < w.width := by
      rw [h.clampCursor, h.width]
      omega
    have hcursor : w.clampCursor - w.width = center (b + 1) (start k (b + 1)) := by
      rw [h.clampCursor, h.width]
      omega
    have hin : o < leaves.length := by
      have := ho.odd hodd
      omega
    rw [if_neg hmask, if_neg hinside, h.clamp, opposite_of_odd hright hlen ho.dvd (ho.odd hodd),
      ho.sibling, if_pos hin]
    refine ⟨_, rfl, hcursor, ?_, hclampMask, rfl, hwidth, hdirection⟩
    rw [stand, if_pos (by omega)]
    exact hcursor

theorem Walked.items (h : Walked k i b w) (hright : Right leaves nodes)
    (hlen : leaves.length = k + 1) (hi : i ≤ k) (fuel : ℕ) :
    Walk.items nodes fuel w =
      some (((List.range' b fuel).filterMap (siblingAt leaves i)).map (·.2)) := by
  induction fuel generalizing b w with
  | zero => rfl
  | succ fuel ih =>
    obtain ⟨w', hpass, hwalked⟩ := h.pass hright hlen hi
    simp only [Walk.items, hpass, ih hwalked, Option.map_some]
    rw [List.range'_succ]
    cases hsibling : siblingAt leaves i b with
    | none => simp [hsibling]
    | some sibling => simp [hsibling]

/-- The iterator yields the sibling subtrees on the path to the root. -/
theorem proof_eq {t : MerkleTree T} (h : Right leaves t.nodes) (hi : i < leaves.length) :
    t.proof (2 * i) = some ((siblings leaves i).map (·.2)) := by
  obtain ⟨k, hlen⟩ : ∃ k, leaves.length = k + 1 := ⟨leaves.length - 1, by omega⟩
  have hnodes : t.nodes.length = 2 * k + 1 := by
    have := h.length
    omega
  have hbound : leaves.length ≤ 2 ^ (2 * k + 1).log2 := by
    have hlog := Nat.lt_log2_self (n := 2 * k + 1)
    rw [pow_succ] at hlog
    omega
  have hwalked : Walked k i 0 {
      clampCursor := 2 * k
      clamp := 2 * k
      clampMask := k
      cursor := 2 * i
      width := 1
      directionMask := i } := by
    refine ⟨?_, ?_, ?_, ?_, rfl, ?_⟩
    · rw [start_zero, center_zero]
    · rw [start_zero, stand]
    · rw [pow_zero, Nat.div_one]
    · rw [start_zero, center_zero]
    · rw [pow_zero, Nat.div_one]
  have hk : (2 * k + 1) >>> 1 = k := by
    rw [Nat.shiftRight_eq_div_pow]
    omega
  have hmask : (2 * i + 1) >>> 1 = i := by
    rw [Nat.shiftRight_eq_div_pow]
    omega
  have hblock := siblings_block hi (2 * k + 1).log2
  rw [start_eq_zero (hi.trans_le hbound), block, List.drop_zero, List.take_of_length_le hbound,
    Nat.sub_zero] at hblock
  simp only [MerkleTree.proof, hnodes, Nat.add_sub_cancel, hk, hmask]
  rw [hwalked.items h hlen (by omega), hblock, List.range_eq_range']

theorem root_eq {t : MerkleTree T} (h : Right leaves t.nodes) (hn : 2 ≤ leaves.length) :
    t.root = some (rootHash leaves) := by
  have hlength := h.length
  have hle := Nat.le_pow_clog (b := 2) (by decide) t.nodes.length
  have hlt := Nat.pow_pred_clog_lt_self (b := 2) (by decide) (x := t.nodes.length) (by omega)
  obtain ⟨m, hm⟩ : ∃ m, Nat.clog 2 t.nodes.length = m + 1 :=
    ⟨Nat.clog 2 t.nodes.length - 1, by
      have := Nat.clog_pos (b := 2) (by decide) (show 2 ≤ t.nodes.length by omega)
      omega⟩
  rw [hm, Nat.pred_succ] at hlt
  rw [hm, pow_succ] at hle
  have hpos := Nat.two_pow_pos m
  have hhalf : nextPowerOfTwo t.nodes.length / 2 = 2 ^ m := by
    rw [nextPowerOfTwo, hm, pow_succ, Nat.mul_div_cancel _ (by decide)]
  have hcenter : center m 0 = 2 ^ m - 1 := by rw [center, Nat.mul_zero, Nat.zero_add]
  rw [MerkleTree.root, hhalf, if_neg (by omega), ← hcenter,
    h.node m 0 (Nat.dvd_zero _) (by omega), blockHash_all (by omega)]

/-- Trees of two or more leaves have the right root and the right proofs. -/
theorem root_and_proofs (first second : T) (rest : List T) :
    ∃ t, MerkleTree.ofLeaves first (second :: rest) = some t ∧
      t.root = some (rootHash (first :: second :: rest)) ∧
      ∀ i leaf, (first :: second :: rest)[i]? = some leaf →
        t.proof (2 * i) = some ((siblings (first :: second :: rest) i).map (·.2)) ∧
        fold leaf (siblings (first :: second :: rest) i) =
          rootHash (first :: second :: rest) ∧
        ((∀ a b : T, combine a b = combine b a) →
          ((siblings (first :: second :: rest) i).map (·.2)).foldl combine leaf =
            rootHash (first :: second :: rest) ∧
          ((siblings (first :: second :: rest) i).map (·.2)).foldl
            (fun acc h => combine h acc) leaf = rootHash (first :: second :: rest)) := by
  obtain ⟨t, ht, hright⟩ := ofLeaves_right first (second :: rest)
  refine ⟨t, ht, root_eq hright (by simp), ?_⟩
  intro i leaf hleaf
  have hfold := fold_siblings hleaf
  obtain ⟨hi, -⟩ := List.getElem?_eq_some_iff.mp hleaf
  refine ⟨proof_eq hright hi, hfold, ?_⟩
  intro hcomm
  obtain ⟨hleft, hswapped⟩ :=
    foldl_siblings_of_comm hcomm leaf (siblings (first :: second :: rest) i)
  exact ⟨hleft.trans hfold, hswapped.trans hfold⟩

end Proof

section Base

theorem intersperse_append (sep : T) {l r : List T} (hl : l ≠ []) (hr : r ≠ []) :
    (l ++ r).intersperse sep = l.intersperse sep ++ sep :: r.intersperse sep := by
  induction l with
  | nil => exact absurd rfl hl
  | cons x l ih =>
    cases l with
    | nil =>
      cases r with
      | nil => exact absurd rfl hr
      | cons y r => rfl
    | cons y l =>
      have := ih (List.cons_ne_nil y l)
      simp only [List.cons_append, List.intersperse_cons_cons] at this ⊢
      rw [this]

variable [MerkleHash T] {leaves : List T}

theorem comuteRecur_eq {nodes : List T} (h : 2 ≤ nodes.length) :
    comuteRecur nodes =
      (comuteRecur (nodes.take (nodes.length / 2))).bind fun l =>
        (comuteRecur (nodes.drop (nodes.length / 2 + 1))).map fun r =>
          (l.1 ++ combine l.2 r.2 :: r.1, combine l.2 r.2) := by
  match nodes, h with
  | a :: b :: rest, _ => rw [comuteRecur]

/-- Halving must come out even all the way down. -/
theorem comuteRecur_length {nodes nodes' : List T} {hash : T}
    (h : comuteRecur nodes = some (nodes', hash)) : ∃ m, nodes.length + 1 = 2 ^ (m + 1) := by
  induction hn : nodes.length using Nat.strong_induction_on generalizing nodes nodes' hash with
  | _ n ih =>
    rcases Nat.lt_or_ge n 2 with hsmall | hlarge
    · cases nodes with
      | nil =>
        rw [comuteRecur] at h
        cases h
      | cons node rest =>
        refine ⟨0, ?_⟩
        rw [List.length_cons] at hn
        omega
    · rw [comuteRecur_eq (by omega), Option.bind_eq_some_iff] at h
      obtain ⟨l, hleft, h⟩ := h
      obtain ⟨r, hright, -⟩ := Option.map_eq_some_iff.mp h
      obtain ⟨a, ha⟩ := ih _ (by rw [List.length_take]; omega) hleft rfl
      obtain ⟨c, hc⟩ := ih _ (by rw [List.length_drop]; omega) hright rfl
      rw [List.length_take, pow_succ] at ha
      rw [List.length_drop, pow_succ] at hc
      exact ⟨a + 1, by rw [pow_succ, pow_succ]; omega⟩

/-- Two full trees of one size and the node above them. -/
theorem Right.append {left right nl nr : List T} {m : ℕ} (hl : Right left nl) (hr : Right right nr)
    (hleft : left.length = 2 ^ m) (hright : right.length = 2 ^ m) :
    Right (left ++ right) (nl ++ blockHash (left ++ right) (m + 1) 0 :: nr) := by
  have hpos := Nat.two_pow_pos m
  have hnl := hl.length
  have hnr := hr.length
  refine ⟨?_, ?_⟩
  · simp only [List.length_append, List.length_cons]
    omega
  intro b s hdvd hin
  simp only [List.length_append, List.length_cons] at hin
  have hb := Nat.two_pow_pos b
  by_cases hbefore : s + 2 ^ b ≤ 2 ^ m
  · have hcenter := center_lt_of_le hbefore
    rw [List.getElem?_append_left (by omega), blockHash_append (by omega)]
    exact hl.node b s hdvd (by omega)
  by_cases hafter : 2 ^ m ≤ s
  · have hsmall : b ≤ m := by
      by_contra hlarge
      have hpow : 2 ^ (m + 1) ≤ 2 ^ b := Nat.pow_le_pow_right (by decide) (by omega)
      rw [pow_succ] at hpow
      rw [center] at hin
      omega
    have hshift : center b s - (nl.length + 1) = center b (s - 2 ^ m) := by
      rw [center, center]
      omega
    have hhash : blockHash (left ++ right) b s = blockHash right b (s - 2 ^ m) := by
      rw [blockHash, blockHash, block, block, List.drop_append, hleft,
        List.drop_of_length_le (by omega), List.nil_append]
    have hle : nl.length + 1 ≤ center b s := by
      rw [center]
      omega
    have hindex : center b s - nl.length = center b (s - 2 ^ m) + 1 := by omega
    rw [hhash, List.getElem?_append_right (by omega), hindex, List.getElem?_cons_succ]
    exact hr.node b (s - 2 ^ m) (Nat.dvd_sub hdvd (Nat.pow_dvd_pow 2 hsmall)) (by omega)
  · -- only the block of all leaves has leaves on both sides
    have hlarge : m < b := by
      by_contra hsmall
      exact hbefore (add_le_of_lt hdvd (Nat.pow_dvd_pow 2 (by omega)) (by omega))
    have hpow : 2 ^ m ≤ 2 ^ b := Nat.pow_le_pow_right (by decide) (by omega)
    obtain rfl : s = 0 := Nat.eq_zero_of_dvd_of_lt hdvd (by omega)
    obtain rfl : b = m + 1 := by
      by_contra hne
      have hpow : 2 ^ (m + 1 + 1) ≤ 2 ^ b := Nat.pow_le_pow_right (by decide) (by omega)
      rw [pow_succ, pow_succ] at hpow
      rw [center] at hin
      omega
    have hcenter : center (m + 1) 0 = nl.length := by
      rw [center, pow_succ]
      omega
    rw [hcenter, List.getElem?_append_right le_rfl, Nat.sub_self, List.getElem?_cons_zero]

/-- On a power of two, `from_base` computes the right nodes. -/
theorem comuteRecur_right {m : ℕ} (h : leaves.length = 2 ^ m) :
    ∃ nodes, comuteRecur (leaves.intersperse default) = some (nodes, rootHash leaves) ∧
      Right leaves nodes := by
  induction m generalizing leaves with
  | zero =>
    obtain ⟨leaf, rfl⟩ := List.length_eq_one_iff.mp h
    refine ⟨[leaf], ?_, new_right leaf⟩
    rw [List.intersperse_singleton, comuteRecur, rootHash]
  | succ m ih =>
    have hpos := Nat.two_pow_pos m
    rw [pow_succ] at h
    obtain ⟨left, right, rfl, hleft, hright⟩ : ∃ left right, leaves = left ++ right ∧
        left.length = 2 ^ m ∧ right.length = 2 ^ m :=
      ⟨leaves.take (2 ^ m), leaves.drop (2 ^ m), (List.take_append_drop _ _).symm,
        by rw [List.length_take]; omega, by rw [List.length_drop]; omega⟩
    obtain ⟨nl, hnl, hrightl⟩ := ih hleft
    obtain ⟨nr, hnr, hrightr⟩ := ih hright
    have hll : (left.intersperse default).length = 2 * 2 ^ m - 1 := by
      rw [List.length_intersperse, hleft]
    have hlr : (right.intersperse default).length = 2 * 2 ^ m - 1 := by
      rw [List.length_intersperse, hright]
    have hne : left ≠ [] := List.ne_nil_of_length_pos (by omega)
    have hne' : right ≠ [] := List.ne_nil_of_length_pos (by omega)
    have hlen : ((left ++ right).intersperse default).length = 4 * 2 ^ m - 1 := by
      rw [List.length_intersperse, h]
      omega
    have hmid : ((left ++ right).intersperse default).length / 2 =
        (left.intersperse default).length := by omega
    have hhash : blockHash (left ++ right) (m + 1) 0 =
        combine (rootHash left) (rootHash right) := by
      rw [blockHash_succ (by omega), Nat.zero_add, blockHash_append (by omega),
        blockHash_all (by omega), blockHash, block, ← hleft, List.drop_left,
        List.take_of_length_le (by omega)]
    refine ⟨_, ?_, hrightl.append hrightr hleft hright⟩
    rw [comuteRecur_eq (by omega), hmid, intersperse_append default hne hne', List.take_left, hnl,
      Option.bind_some, List.drop_append, List.drop_of_length_le (by omega), List.nil_append,
      Nat.add_sub_cancel_left, List.drop_succ_cons, List.drop_zero, hnr, Option.map_some, ← hhash,
      blockHash_all (b := m + 1) (by rw [pow_succ]; omega)]

/-- The two ways of building a tree agree, and the tree has its root, exactly
for the powers of two from two on. -/
theorem fromBase_agrees_iff (first : T) (rest : List T) :
    (∃ t, MerkleTree.fromBase (first :: rest) = some t ∧
      MerkleTree.ofLeaves first rest = some t ∧ t.root = some (rootHash (first :: rest))) ↔
    ∃ j, 1 ≤ j ∧ (first :: rest).length = 2 ^ j := by
  constructor
  · rintro ⟨t, hbase, -, hroot⟩
    obtain ⟨⟨nodes, hash⟩, hrec, rfl⟩ := Option.map_eq_some_iff.mp hbase
    obtain ⟨m, hm⟩ := comuteRecur_length hrec
    rw [List.length_intersperse, pow_succ] at hm
    have hlen : (first :: rest).length = 2 ^ m := by
      rw [List.length_cons] at hm ⊢
      omega
    refine ⟨m, ?_, hlen⟩
    by_contra hzero
    obtain rfl : m = 0 := by omega
    -- a single leaf has no root
    obtain rfl : rest = [] := by simpa using hlen
    rw [List.intersperse_singleton, comuteRecur] at hrec
    cases hrec
    simp [MerkleTree.root, nextPowerOfTwo] at hroot
  · rintro ⟨j, hj, hlen⟩
    obtain ⟨nodes, hrec, hright⟩ := comuteRecur_right hlen
    obtain ⟨t, ht, hright'⟩ := ofLeaves_right first rest
    have hnodes : nodes = t.nodes := hright.unique hright'
    have htwo : 2 ≤ (first :: rest).length := by
      calc 2 = 2 ^ 1 := rfl
        _ ≤ 2 ^ j := Nat.pow_le_pow_right (by decide) hj
        _ = (first :: rest).length := hlen.symm
    refine ⟨t, ?_, ht, root_eq hright' htwo⟩
    rw [MerkleTree.fromBase, hrec, hnodes]
    rfl

instance : MerkleHash ℕ := ⟨(· + ·)⟩

/-- Three leaves panic. -/
theorem fromBase_three_leaves :
    ¬ ∀ (T : Type) [MerkleHash T] (first : T) (rest : List T),
      ∃ t, MerkleTree.fromBase (first :: rest) = some t ∧
        MerkleTree.ofLeaves first rest = some t ∧ t.root = some (rootHash (first :: rest)) := by
  intro h
  obtain ⟨t, hbase, -⟩ := h ℕ 1 [2, 3]
  obtain ⟨⟨nodes, hash⟩, hrec, -⟩ := Option.map_eq_some_iff.mp hbase
  obtain ⟨m, hm⟩ := comuteRecur_length hrec
  have hsix : 6 = 2 ^ (m + 1) := hm
  match m with
  | 0 => omega
  | 1 => omega
  | m + 2 =>
    rw [pow_succ, pow_succ, pow_succ] at hsix
    omega

end Base

end OrionNetwork.Merkle
