import OrionNetwork.ChatNumbering

/-!
# What a block hash binds

Equal hashes are unwound from the last leaf: as long as both folds have an
inner node on top, a hash function without collisions gives equal last leaves
and equal folds of the rest. The unwinding ends in equal leaves, or in a leaf of
one block against an inner node of the other. Nothing separates the two: the
message behind that leaf is then the 64 bytes that the inner node hashes.
-/
namespace OrionNetwork.BlockBinding
open Codec MessageBlock BlockHash ChatReplica

/-- The reduction of `hash_block`, on a list of leaves that is not empty. -/
def foldLeaves (host : Host) : List Hash → Hash
  | [] => Hash.zero
  | leaf :: leaves => leaves.foldl (combine host) leaf

def blockHash (host : Host) (block : Bytes) : Except Panic Hash :=
  (hashBlock host block).map Prod.fst

/-- What the inner nodes of a fold hash. -/
def innerInputs (host : Host) (leaves : List Hash) : Set Bytes :=
  {m | ∃ p x s, p ≠ [] ∧ leaves = p ++ x :: s ∧ m = (foldLeaves host p).bytes ++ x.bytes}

/-- Everything hashed for a block. -/
def hashedInputs (host : Host) (block : Bytes) : Set Bytes :=
  {m | m ∈ unpackMessages block} ∪ innerInputs host (leafHashes host block)

/-- The message of `a` with the lowest hash spells out an inner node of `b`,
and the other leaves of `a` are the leaves of `b` above that node. -/
def Grafted (host : Host) (a b : Bytes) : Prop :=
  ∃ m p x s, p ≠ [] ∧ m ∈ unpackMessages a ∧ leafHashes host a = host.blake3 m :: s ∧
    leafHashes host b = p ++ x :: s ∧ m = (foldLeaves host p).bytes ++ x.bytes

variable {host : Host}

lemma foldLeaves_append {p : List Hash} (hp : p ≠ []) (s : List Hash) :
    foldLeaves host (p ++ s) = s.foldl (combine host) (foldLeaves host p) := by
  obtain ⟨leaf, leaves, rfl⟩ := List.exists_cons_of_ne_nil hp
  simp [foldLeaves, List.foldl_append]

lemma foldLeaves_snoc {p : List Hash} (hp : p ≠ []) (x : Hash) :
    foldLeaves host (p ++ [x]) = host.blake3 ((foldLeaves host p).bytes ++ x.bytes) :=
  foldLeaves_append hp [x]

lemma innerInputs_subset_append (p s : List Hash) : innerInputs host p ⊆ innerInputs host (p ++ s) := by
  rintro m ⟨q, x, t, hq, rfl, rfl⟩
  exact ⟨q, x, t ++ s, hq, by simp, rfl⟩

lemma mem_innerInputs_snoc {p : List Hash} (hp : p ≠ []) (x : Hash) :
    (foldLeaves host p).bytes ++ x.bytes ∈ innerInputs host (p ++ [x]) :=
  ⟨p, x, [], hp, rfl, rfl⟩

lemma blockHash_eq {block : Bytes} (h : unpackMessages block ≠ []) :
    blockHash host block = .ok (foldLeaves host (leafHashes host block)) := by
  obtain ⟨hash, hhash⟩ := hashBlock_ok host block h
  have hne : leafHashes host block ≠ [] := by
    intro he
    rw [hashBlock, he] at hhash
    contradiction
  obtain ⟨leaf, leaves, he⟩ := List.exists_cons_of_ne_nil hne
  rw [blockHash, hashBlock_of_leaves he, he]
  rfl

/-- One list of leaves against another that folds to the same hash: the shorter
one starts with the hash of an inner node of the longer one. -/
def Cut (host : Host) (l l' : List Hash) : Prop :=
  ∃ a p x s, p ≠ [] ∧ l = a :: s ∧ l' = p ++ x :: s ∧
    a = host.blake3 ((foldLeaves host p).bytes ++ x.bytes)

lemma Cut.snoc {l l' : List Hash} (h : Cut host l l') (y : Hash) :
    Cut host (l ++ [y]) (l' ++ [y]) := by
  obtain ⟨a, p, x, s, hp, rfl, rfl, ha⟩ := h
  exact ⟨a, p, x, s ++ [y], hp, by simp, by simp, ha⟩

lemma bytes_append_inj {a b x y : Hash} (h : a.bytes ++ x.bytes = b.bytes ++ y.bytes) :
    a = b ∧ x = y := by
  obtain ⟨hl, hr⟩ := List.append_inj h (a.size.trans b.size.symm)
  exact ⟨Hash.ext_bytes hl, Hash.ext_bytes hr⟩

/-- Equal folds without collisions have equal leaves, or one is cut short. -/
theorem eq_or_cut {l l' : List Hash} (hl : l ≠ []) (hl' : l' ≠ [])
    (hfree : Set.InjOn host.blake3 (innerInputs host l ∪ innerInputs host l'))
    (heq : foldLeaves host l = foldLeaves host l') : l = l' ∨ Cut host l l' ∨ Cut host l' l := by
  induction l using List.reverseRecOn generalizing l' with
  | nil => contradiction
  | append_singleton p x ih =>
    obtain ⟨p', x', rfl⟩ : ∃ p' x', l' = p' ++ [x'] :=
      ⟨l'.dropLast, l'.getLast hl', (List.dropLast_append_getLast hl').symm⟩
    by_cases hp : p = []
    · subst hp
      by_cases hp' : p' = []
      · subst hp'
        left
        exact congrArg (fun h => [h]) heq
      · rw [foldLeaves_snoc hp'] at heq
        exact .inr (.inl ⟨x, p', x', [], hp', rfl, rfl, heq⟩)
    · by_cases hp' : p' = []
      · subst hp'
        rw [foldLeaves_snoc hp] at heq
        exact .inr (.inr ⟨x', p, x, [], hp, rfl, rfl, heq.symm⟩)
      · rw [foldLeaves_snoc hp, foldLeaves_snoc hp'] at heq
        have hinput := hfree (.inl (mem_innerInputs_snoc hp x))
          (.inr (mem_innerInputs_snoc hp' x')) heq
        obtain ⟨hfold, rfl⟩ := bytes_append_inj hinput
        have hsub : innerInputs host p ∪ innerInputs host p' ⊆
            innerInputs host (p ++ [x]) ∪ innerInputs host (p' ++ [x]) :=
          Set.union_subset_union (innerInputs_subset_append p [x]) (innerInputs_subset_append p' [x])
        obtain rfl | hcut | hcut := ih hp hp' (hfree.mono hsub) hfold
        · exact .inl rfl
        · exact .inr (.inl (hcut.snoc x))
        · exact .inr (.inr (hcut.snoc x))

lemma leafHashes_ne_nil {block : Bytes} (h : unpackMessages block ≠ []) :
    leafHashes host block ≠ [] := by
  intro he
  have hlen := length_leafHashes host block
  rw [he, List.length_nil] at hlen
  exact h (List.length_eq_zero_iff.mp hlen.symm)

/-- A cut between the leaves of two blocks names a message of the first. -/
lemma grafted_of_cut {a b : Bytes}
    (hfree : Set.InjOn host.blake3 (hashedInputs host a ∪ hashedInputs host b))
    (hcut : Cut host (leafHashes host a) (leafHashes host b)) : Grafted host a b := by
  obtain ⟨h, p, x, s, hp, ha, hb, hinner⟩ := hcut
  have hmem : h ∈ leafHashes host a := by rw [ha]; exact List.mem_cons_self
  obtain ⟨m, hm, hleaf⟩ := (mem_leafHashes host a h).mp hmem
  refine ⟨m, p, x, s, hp, hm, by rw [ha, hleaf], hb, ?_⟩
  refine hfree (.inl (.inl hm)) (.inr (.inr ⟨p, x, s, hp, hb, rfl⟩)) ?_
  rw [hleaf, hinner]

/-- A grafted message gives both blocks one hash. -/
lemma Grafted.foldLeaves_eq {a b : Bytes} (h : Grafted host a b) :
    foldLeaves host (leafHashes host a) = foldLeaves host (leafHashes host b) := by
  obtain ⟨m, p, x, s, hp, -, ha, hb, rfl⟩ := h
  have hsplit : p ++ x :: s = (p ++ [x]) ++ s := by simp
  rw [ha, hb, hsplit, foldLeaves_append (by simp), foldLeaves_snoc hp]
  rfl

lemma Grafted.length_lt {a b : Bytes} (h : Grafted host a b) :
    (unpackMessages a).length < (unpackMessages b).length := by
  obtain ⟨m, p, x, s, hp, -, ha, hb, -⟩ := h
  have hpos : 0 < p.length := List.length_pos_iff.mpr hp
  rw [← length_leafHashes host a, ← length_leafHashes host b, ha, hb]
  simp only [List.length_cons, List.length_append]
  omega

/-- Equal leaves come from the same messages. -/
lemma perm_of_leafHashes {a b : Bytes}
    (hfree : Set.InjOn host.blake3 (hashedInputs host a ∪ hashedInputs host b))
    (heq : leafHashes host a = leafHashes host b) :
    (unpackMessages a).Perm (unpackMessages b) := by
  have hperm : ((unpackMessages a).map host.blake3).Perm ((unpackMessages b).map host.blake3) :=
    (leafHashes_perm host a).symm.trans (heq ▸ leafHashes_perm host b)
  have hinv (msgs : List Bytes)
      (hmsgs : ∀ m ∈ msgs, m ∈ hashedInputs host a ∪ hashedInputs host b) :
      (msgs.map host.blake3).map
        (Function.invFunOn host.blake3 (hashedInputs host a ∪ hashedInputs host b)) = msgs := by
    rw [List.map_map]
    conv_rhs => rw [← List.map_id msgs]
    exact List.map_congr_left fun m hm => hfree.leftInvOn_invFunOn (hmsgs m hm)
  have hback := hperm.map
    (Function.invFunOn host.blake3 (hashedInputs host a ∪ hashedInputs host b))
  rwa [hinv _ fun m hm => .inl (.inl hm), hinv _ fun m hm => .inr (.inl hm)] at hback

/-- The two blocks do not share a hash unless they share their messages. -/
def Binds (host : Host) (a b : Bytes) : Prop :=
  blockHash host a = blockHash host b →
    (unpackMessages a : Multiset Bytes) = (unpackMessages b : Multiset Bytes)

theorem binds_iff {a b : Bytes} (ha : unpackMessages a ≠ []) (hb : unpackMessages b ≠ [])
    (hfree : Set.InjOn host.blake3 (hashedInputs host a ∪ hashedInputs host b)) :
    Binds host a b ↔ ¬ Grafted host a b ∧ ¬ Grafted host b a := by
  rw [Binds, blockHash_eq ha, blockHash_eq hb, Except.ok.injEq, Multiset.coe_eq_coe]
  constructor
  · intro hbinds
    refine ⟨fun hg => ?_, fun hg => ?_⟩
    · have hlt := hg.length_lt
      rw [(hbinds hg.foldLeaves_eq).length_eq] at hlt
      exact lt_irrefl _ hlt
    · have hlt := hg.length_lt
      rw [(hbinds hg.foldLeaves_eq.symm).length_eq] at hlt
      exact lt_irrefl _ hlt
  · rintro ⟨hab, hba⟩ heq
    have hinner : innerInputs host (leafHashes host a) ∪ innerInputs host (leafHashes host b) ⊆
        hashedInputs host a ∪ hashedInputs host b :=
      Set.union_subset_union Set.subset_union_right Set.subset_union_right
    obtain hleaves | hcut | hcut := eq_or_cut (leafHashes_ne_nil ha) (leafHashes_ne_nil hb)
      (hfree.mono hinner) heq
    · exact perm_of_leafHashes hfree hleaves
    · exact absurd (grafted_of_cut hfree hcut) hab
    · exact absurd (grafted_of_cut (Set.union_comm _ _ ▸ hfree) hcut) hba

/-- A foreign block that `SendBlock` answers with `Ok`. -/
def Accepts (host : Host) (chat : Chat) (index : Slot) (number : ℕ) (block : Bytes) : Prop :=
  ∃ out, sendBlock host chat index number block = .ok out ∧ out.reply = .ok ()

/-- In recovery a readable block is accepted for its hash alone. -/
lemma accepts_iff {chat : Chat} {index : Slot} {number : ℕ} {block : Bytes} {hash : Hash}
    {w : Bool} (hstage : chat.stage = .recovering hash w)
    (hlast : chat.lastFinalizedBlock host = .ok number) :
    Accepts host chat index number block ↔ blockHash host block = .ok hash := by
  cases hhash : hashBlock host block with
  | error p => simp [Accepts, sendBlock, hlast, hstage, hhash, blockHash, Except.map]
  | ok r =>
    by_cases he : r.1 = hash
    · simp [Accepts, sendBlock, hlast, hstage, hhash, blockHash, Except.map, he]
    · simp [Accepts, sendBlock, hlast, hstage, hhash, blockHash, Except.map, he]

/-- Without collisions among the inputs hashed for them, two blocks with equal
hashes have the same messages if and only if neither grafts a node of the other
onto a message. The same condition decides whether a recovering node that
accepts the one block stores the messages of the other, which the majority
hashed. -/
theorem blockHash_binds_messages (host : Host) (a b : Bytes) (ha : unpackMessages a ≠ [])
    (hb : unpackMessages b ≠ [])
    (hfree : Set.InjOn host.blake3 (hashedInputs host a ∪ hashedInputs host b)) :
    (Binds host a b ↔ ¬ Grafted host a b ∧ ¬ Grafted host b a) ∧
    ∀ chat index number hash w, chat.stage = .recovering hash w →
      chat.lastFinalizedBlock host = .ok number → blockHash host b = .ok hash →
      ((Accepts host chat index number a →
          (unpackMessages a : Multiset Bytes) = (unpackMessages b : Multiset Bytes)) ↔
        ¬ Grafted host a b ∧ ¬ Grafted host b a) := by
  refine ⟨binds_iff ha hb hfree, fun chat index number hash w hstage hlast hmajority => ?_⟩
  rw [accepts_iff hstage hlast, ← hmajority]
  exact binds_iff ha hb hfree

/-- The digest of the message `[1]`. -/
def digestOne : Hash := ⟨[72, 252, 114, 31, 187, 193, 114, 224, 146, 95, 162, 122, 241, 103, 29, 226,
  37, 186, 146, 113, 52, 128, 41, 152, 177, 10, 21, 104, 161, 136, 101, 43], rfl⟩

/-- The digest of the message `[2]`. -/
def digestTwo : Hash := ⟨[171, 19, 190, 223, 66, 232, 75, 174, 15, 124, 98, 199, 221, 106, 138, 218,
  87, 30, 136, 41, 190, 214, 234, 85, 130, 23, 240, 54, 27, 94, 37, 208], rfl⟩

/-- The digest of the two digests together. -/
def digestPair : Hash := ⟨[38, 67, 250, 116, 205, 50, 60, 13, 128, 150, 50, 7, 172, 97, 125, 54, 64,
  135, 226, 7, 94, 26, 166, 11, 161, 201, 239, 70, 28, 210, 138, 126], rfl⟩

/-- BLAKE3 on the three inputs used below. -/
def sampleHost : Host where
  blake3 m :=
    if m = [1] then digestOne
    else if m = [2] then digestTwo
    else if m = digestOne.bytes ++ digestTwo.bytes then digestPair
    else Hash.zero
  overflowChecks := true

def samplePair : Bytes := frame [2] ++ frame [1]

lemma unpackMessages_samplePair : unpackMessages samplePair = [[1], [2]] := by decide

lemma leafHashes_samplePair : leafHashes sampleHost samplePair = [digestOne, digestTwo] := by
  rw [leafHashes, unpackMessages_samplePair]
  exact List.mergeSort_of_pairwise (by decide)

lemma innerInputs_pair (host : Host) (x y : Hash) :
    innerInputs host [x, y] ⊆ {x.bytes ++ y.bytes} := by
  rintro m ⟨p, z, s, hp, hsplit, rfl⟩
  obtain ⟨leaf, leaves, rfl⟩ := List.exists_cons_of_ne_nil hp
  obtain ⟨rfl, hrest⟩ := List.cons.inj hsplit
  cases leaves with
  | nil =>
    obtain ⟨rfl, -⟩ := List.cons.inj hrest
    rfl
  | cons b t =>
    obtain ⟨-, hrest⟩ := List.cons.inj hrest
    simp at hrest

lemma injOn_sampleHost :
    Set.InjOn sampleHost.blake3 {[1], [2], digestOne.bytes ++ digestTwo.bytes} := by
  rintro m (rfl | rfl | rfl) m' (rfl | rfl | rfl) h
  all_goals first | rfl | exact absurd h (by decide)

lemma hashedInputs_samplePair :
    hashedInputs sampleHost samplePair ⊆ {[1], [2], digestOne.bytes ++ digestTwo.bytes} := by
  rintro m (hm | hm)
  · rw [Set.mem_ofPred_eq, unpackMessages_samplePair] at hm
    simp only [List.mem_cons, List.not_mem_nil, or_false] at hm
    exact hm.imp_right .inl
  · rw [leafHashes_samplePair] at hm
    exact .inr (.inr (innerInputs_pair _ _ _ hm))

/-- The same messages, sent in the other order. -/
def sampleSwapped : Bytes := frame [1] ++ frame [2]

lemma perm_sampleSwapped : (unpackMessages sampleSwapped).Perm (unpackMessages samplePair) := by
  decide

lemma hashedInputs_sampleSwapped :
    hashedInputs sampleHost sampleSwapped ⊆ {[1], [2], digestOne.bytes ++ digestTwo.bytes} := by
  have hleaves : leafHashes sampleHost sampleSwapped = leafHashes sampleHost samplePair :=
    leafHashes_eq_of_perm perm_sampleSwapped
  rintro m (hm | hm)
  · rw [Set.mem_ofPred_eq, perm_sampleSwapped.mem_iff] at hm
    refine hashedInputs_samplePair (.inl ?_)
    rwa [Set.mem_ofPred_eq]
  · rw [hleaves] at hm
    exact hashedInputs_samplePair (.inr hm)

/-- Two orders of two messages have one hash, and bind each other. -/
theorem blockHash_binds_messages_swapped :
    blockHash sampleHost samplePair = blockHash sampleHost sampleSwapped ∧
      Binds sampleHost samplePair sampleSwapped := by
  have hfree : Set.InjOn sampleHost.blake3
      (hashedInputs sampleHost samplePair ∪ hashedInputs sampleHost sampleSwapped) :=
    injOn_sampleHost.mono (Set.union_subset hashedInputs_samplePair hashedInputs_sampleSwapped)
  have hlen := perm_sampleSwapped.length_eq
  constructor
  · rw [blockHash_eq (by decide), blockHash_eq (by decide),
      leafHashes_eq_of_perm perm_sampleSwapped]
  · refine (blockHash_binds_messages _ _ _ (by decide) (by decide) hfree).1.mpr ⟨?_, ?_⟩
    · intro hg
      have hlt := hg.length_lt
      omega
    · intro hg
      have hlt := hg.length_lt
      omega

/-- One message that consists of two digests. -/
def sampleGraft : Bytes := frame (digestOne.bytes ++ digestTwo.bytes)

lemma unpackMessages_sampleGraft :
    unpackMessages sampleGraft = [digestOne.bytes ++ digestTwo.bytes] := by decide

lemma leafHashes_sampleGraft : leafHashes sampleHost sampleGraft = [digestPair] := by
  rw [leafHashes, unpackMessages_sampleGraft]
  exact List.mergeSort_of_pairwise (by decide)

lemma hashedInputs_sampleGraft :
    hashedInputs sampleHost sampleGraft ⊆ {[1], [2], digestOne.bytes ++ digestTwo.bytes} := by
  rintro m (hm | ⟨p, x, s, hp, hsplit, -⟩)
  · rw [Set.mem_ofPred_eq, unpackMessages_sampleGraft, List.mem_singleton] at hm
    exact .inr (.inr hm)
  · rw [leafHashes_sampleGraft] at hsplit
    have hlen := congrArg List.length hsplit
    have hpos := List.length_pos_iff.mpr hp
    simp only [List.length_append, List.length_cons, List.length_nil] at hlen
    omega

/-- Without any collision, a block of two messages and a block of one message
have the same hash. -/
theorem blockHash_collides_without_collision :
    Set.InjOn sampleHost.blake3
      (hashedInputs sampleHost sampleGraft ∪ hashedInputs sampleHost samplePair) ∧
    blockHash sampleHost sampleGraft = blockHash sampleHost samplePair ∧
    (unpackMessages sampleGraft : Multiset Bytes) ≠ (unpackMessages samplePair : Multiset Bytes) := by
  refine ⟨injOn_sampleHost.mono
    (Set.union_subset hashedInputs_sampleGraft hashedInputs_samplePair), ?_, ?_⟩
  · rw [blockHash_eq (by decide), blockHash_eq (by decide), leafHashes_sampleGraft,
      leafHashes_samplePair]
    decide
  · rw [Ne, Multiset.coe_eq_coe, unpackMessages_sampleGraft, unpackMessages_samplePair]
    intro hperm
    exact absurd hperm.length_eq (by decide)

section Order

/-- Messages framed one after the other, as `try_push` does it within the size of
a block. -/
def frameAll (msgs : List Bytes) : Bytes := msgs.foldl (fun block msg => block ++ frame msg) []

theorem frameAll_eq (msgs : List Bytes) : frameAll msgs = msgs.flatMap frame := by
  have hgeneral : ∀ block : Bytes,
      msgs.foldl (fun block msg => block ++ frame msg) block = block ++ msgs.flatMap frame := by
    induction msgs with
    | nil => simp
    | cons msg msgs ih => simp [ih]
  exact hgeneral []

/-- A block that was filled by pushing holds the frames. -/
theorem eq_frameAll_of_tryPush {msgs : List Bytes} {block : Bytes}
    (h : msgs.foldlM tryPush [] = some block) : block = frameAll msgs := by
  induction msgs using List.reverseRecOn generalizing block with
  | nil =>
    cases h
    rfl
  | append_singleton msgs msg ih =>
    rw [List.foldlM_append, Option.bind_eq_bind, Option.bind_eq_some_iff] at h
    obtain ⟨before, hbefore, hpush⟩ := h
    simp only [List.foldlM_cons, List.foldlM_nil, Option.bind_eq_bind, Option.pure_def,
      Option.bind_fun_some, tryPush] at hpush
    split_ifs at hpush
    cases hpush
    rw [ih hbefore, frameAll, frameAll, List.foldl_append, List.foldl_cons, List.foldl_nil]

/-- Two orders of the same messages have one hash, whatever the vector for the
leaves was used for before, and there is one unless there is no message. The
blocks that pushing fills are such blocks. -/
theorem hash_ignores_order (host : Host) (msgs msgs' : List Bytes)
    (hlen : ∀ m ∈ msgs, m.length < 65536) (hperm : msgs.Perm msgs')
    (hashTemp hashTemp' : List Hash) :
    hashBlockTemp host (frameAll msgs) hashTemp = hashBlockTemp host (frameAll msgs') hashTemp' ∧
    (msgs ≠ [] → ∃ hash, (hashBlockTemp host (frameAll msgs) hashTemp).1 = .ok hash) ∧
    ∀ block block', msgs.foldlM tryPush [] = some block → msgs'.foldlM tryPush [] = some block' →
      hashBlockTemp host block hashTemp = hashBlockTemp host block' hashTemp' := by
  have hunpack : unpackMessages (frameAll msgs) = msgs.reverse := by
    rw [frameAll_eq, unpackMessages_flatMap_frame msgs hlen]
  have hunpack' : unpackMessages (frameAll msgs') = msgs'.reverse := by
    rw [frameAll_eq, unpackMessages_flatMap_frame msgs' fun m hm => hlen m (hperm.mem_iff.mpr hm)]
  have hsame : (unpackMessages (frameAll msgs)).Perm (unpackMessages (frameAll msgs')) := by
    rw [hunpack, hunpack']
    exact (List.reverse_perm msgs).trans (hperm.trans (List.reverse_perm msgs').symm)
  have hleaves := @leafHashes_eq_of_perm host _ _ hsame
  have heq : hashBlockTemp host (frameAll msgs) hashTemp =
      hashBlockTemp host (frameAll msgs') hashTemp' := by
    rw [hashBlockTemp_eq, hashBlockTemp_eq, hashBlock, hashBlock, hleaves]
  refine ⟨heq, ?_, ?_⟩
  · intro hne
    obtain ⟨hash, hhash⟩ := hashBlock_ok host (frameAll msgs) (by simpa [hunpack] using hne)
    exact ⟨hash, by rw [hashBlockTemp_eq, hhash]; rfl⟩
  · intro block block' hblock hblock'
    rw [eq_frameAll_of_tryPush hblock, eq_frameAll_of_tryPush hblock']
    exact heq

/-- Two messages in both orders, with a leaf of an earlier call left over. -/
theorem hash_ignores_order_pair :
    hashBlockTemp sampleHost (frameAll [[1], [2]]) [] =
      hashBlockTemp sampleHost (frameAll [[2], [1]]) [digestPair] ∧
    ∃ hash, (hashBlockTemp sampleHost (frameAll [[1], [2]]) []).1 = .ok hash := by
  obtain ⟨heq, hok, -⟩ := hash_ignores_order sampleHost [[1], [2]] [[2], [1]] (by decide)
    (by decide) [] [digestPair]
  exact ⟨heq, hok (by decide)⟩

end Order

end OrionNetwork.BlockBinding
