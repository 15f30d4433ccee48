import OrionNetwork.FreeList
import Mathlib.Data.Nat.Bitwise

/-!
# Looking for deleted records

A deleted record is all zeros. Records are looked at as a list of elements, for
each of which it is known whether it is zero. The elements are cut where vectors
of 64 lanes are aligned; what is before and after is looked at one by one. The
loops take the size of a record in bytes for its number of elements.
-/
namespace OrionNetwork.DeletedScan
open BlockHash FreeList

def lanes : ℕ := 64

/-- The parts of `n` elements, without what is left over. -/
def chunksExact (n : ℕ) (l : List Bool) : List (List Bool) :=
  (List.range (l.length / n)).map fun i => (l.drop (i * n)).take n

/-- The elements before the first aligned vector. The first element is at the
`lane` of an aligned vector. -/
def unaligned (lane : ℕ) (elements : List Bool) : ℕ :=
  min elements.length ((lanes - lane % lanes) % lanes)

/-- The vectors in the middle. -/
def simd (lane : ℕ) (elements : List Bool) : List (List Bool) :=
  chunksExact lanes (elements.drop (unaligned lane elements))

/-- The elements after the last vector. -/
def suffix (lane : ℕ) (elements : List Bool) : List Bool :=
  (elements.drop (unaligned lane elements)).drop ((simd lane elements).length * lanes)

/-- Lanes that are not zero. -/
def toBitmask (chunk : List Bool) : BitVec 64 := BitVec.ofNat 64 (chunk.foldr Nat.bit 0)

section Loops

variable (checks : Bool)

/-- Shifting by the width or more panics or takes the amount modulo the width. -/
def shift (by' : BitVec 64) : Except Panic ℕ :=
  if checks = true ∧ 64 ≤ by'.toNat then .error .overflow else .ok (by'.toNat % 64)

/-- Groups from the lowest lanes on: nothing when one of them is zero, else what
is left of the bits. -/
def scanGroups (progress : BitVec 64) : ℕ → BitVec 64 → Except Panic (Option (BitVec 64))
  | 0, bits => .ok (some bits)
  | n + 1, bits =>
    if progress.toNat ≤ bits.ctz.toNat then .ok none
    else do
      let s ← shift checks progress
      scanGroups progress n (bits >>> s)

/-- One vector of records of up to 64 bytes: nothing when a record is deleted,
else the progress. -/
def scanVector (size progress bits : BitVec 64) : Except Panic (Option (BitVec 64)) := do
  let rest ←
    if progress ≠ size then do
      let s ← shift checks progress
      if bits &&& ((1 : BitVec 64) <<< s - 1) = 0 then return none
      let remaining ← sub checks 64 progress
      scanGroups checks progress (remaining.toNat / size.toNat) (bits >>> s)
    else scanGroups checks progress (64 / size.toNat) bits
  match rest with
  | none => return none
  | some bits => do
    let progress ← sub checks size bits.clz
    return some progress

def scanShort (size : BitVec 64) : List (List Bool) → BitVec 64 → Except Panic Bool
  | [], _ => .ok false
  | chunk :: rest, progress =>
    match scanVector checks size progress (toBitmask chunk) with
    | .error e => .error e
    | .ok none => .ok true
    | .ok (some progress) => scanShort size rest progress

/-- Records of more than 64 bytes. A vector that is not zero is skipped to the end
of its record. There is a step for each vector at most. -/
def scanLong (size : BitVec 64) : ℕ → List (List Bool) → BitVec 64 → Except Panic Bool
  | 0, _, _ => .ok false
  | _ + 1, [], _ => .ok false
  | steps + 1, chunk :: rest, progress =>
    let bits := toBitmask chunk
    if progress.toNat ≤ bits.ctz.toNat then .ok true
    else if bits = 0 then do
      let progress ← sub checks progress 64
      scanLong size steps rest progress
    else
      match rest.drop (progress.toNat / 64) with
      | [] => .ok false
      | next :: rest => do
        let progress ← sub checks size (toBitmask next).clz
        scanLong size steps rest progress

/-- `size` is the size of a record in bytes. -/
def containsDeleted (size lane : ℕ) (elements : List Bool) : Except Panic Bool :=
  let vectors := simd lane elements
  if (chunksExact size (elements.take (unaligned lane elements)) ++
      chunksExact size (suffix lane elements)).any (fun chunk => chunk.all (!·)) then .ok true
  else if 64 < size then
    scanLong checks (BitVec.ofNat 64 size) vectors.length vectors (BitVec.ofNat 64 size)
  else scanShort checks (BitVec.ofNat 64 size) vectors (BitVec.ofNat 64 size)

/-- The same for elements that are already cut into parts. -/
def scan (size : ℕ) (head : List Bool) (vectors : List (List Bool)) (tail : List Bool) :
    Except Panic Bool :=
  if (chunksExact size head ++ chunksExact size tail).any (fun chunk => chunk.all (!·)) then .ok true
  else if 64 < size then
    scanLong checks (BitVec.ofNat 64 size) vectors.length vectors (BitVec.ofNat 64 size)
  else scanShort checks (BitVec.ofNat 64 size) vectors (BitVec.ofNat 64 size)

theorem containsDeleted_eq_scan (size lane : ℕ) (elements : List Bool) :
    containsDeleted checks size lane elements =
      scan checks size (elements.take (unaligned lane elements)) (simd lane elements)
        (suffix lane elements) := rfl

/-- The runs of elements that are looked at when a record has less than 64 bytes: of
all vectors but the first only the start, and that not with overflow checks. -/
def looked (size : ℕ) (head : List Bool) (vectors : List (List Bool)) (tail : List Bool) :
    List (List Bool) :=
  chunksExact size head ++ chunksExact size tail ++ vectors.head?.toList.flatMap (chunksExact size) ++
    if checks then [] else vectors.tail.map (·.take size)

end Loops

/-- No `n` elements in a row are zero. -/
def Broken (n : ℕ) (elements : List Bool) : Prop :=
  ∀ run, run <:+: elements → run.length = n → true ∈ run

section Broken

variable {n lane size : ℕ} {l l' elements : List Bool}

theorem drop_take_isInfix (l : List Bool) (i n : ℕ) : (l.drop i).take n <:+: l := by
  have htake := List.take_prefix n (l.drop i)
  exact htake.isInfix.trans (List.drop_suffix i l).isInfix

theorem mem_chunksExact (h : l' ∈ chunksExact n l) : l' <:+: l ∧ l'.length = n := by
  obtain ⟨i, hi, rfl⟩ := List.mem_map.mp h
  rw [List.mem_range] at hi
  refine ⟨drop_take_isInfix l _ n, ?_⟩
  have hroom : (i + 1) * n ≤ l.length :=
    (Nat.mul_le_mul_right n hi).trans (Nat.div_mul_le_self _ _)
  rw [Nat.add_mul, Nat.one_mul] at hroom
  rw [List.length_take, List.length_drop]
  omega

theorem getLsbD_toBitmask (chunk : List Bool) (hlen : chunk.length ≤ 64) (i : ℕ) :
    (toBitmask chunk).getLsbD i = chunk[i]?.getD false := by
  have hbit : ∀ (l : List Bool) (i : ℕ), (l.foldr Nat.bit 0).testBit i = l[i]?.getD false := by
    intro l
    induction l with
    | nil => simp
    | cons b l ih =>
      intro i
      cases i with
      | zero => simp
      | succ i => simp [Nat.testBit_bit_succ, ih i]
  unfold toBitmask
  rw [BitVec.getLsbD_ofNat, hbit]
  by_cases hi : i < 64
  · simp [hi]
  · rw [List.getElem?_eq_none (by omega)]
    simp

/-- The lanes from `i` on are zero if the bits there are. -/
theorem size_le_ctz_iff (hlen : l.length = 64) {i : ℕ} (hi : i + size ≤ 64) :
    size ≤ (toBitmask l >>> i).ctz.toNat ↔ ((l.drop i).take size).all (!·) = true := by
  have hbit : ∀ j, (toBitmask l >>> i).getLsbD j = l[i + j]?.getD false := by
    intro j
    rw [BitVec.getLsbD_ushiftRight, getLsbD_toBitmask l hlen.le]
  have hget : ∀ j < size, ((l.drop i).take size)[j]? = l[i + j]? := by
    intro j hj
    rw [List.getElem?_take_of_lt hj, List.getElem?_drop]
  rw [List.all_eq_true]
  constructor
  · intro hle b hb
    obtain ⟨j, hj⟩ := List.mem_iff_getElem?.mp hb
    have hj' : j < size := by
      have hlt := (List.getElem?_eq_some_iff.mp hj).1
      rw [List.length_take] at hlt
      omega
    have hfalse := hbit j
    rw [BitVec.getLsbD_false_of_lt_ctz (by omega), ← hget j hj', hj, Option.getD_some] at hfalse
    rw [← hfalse]
    rfl
  · intro hzero
    by_contra hlt
    have hne : toBitmask l >>> i ≠ 0 := by
      intro heq
      have hctz : (toBitmask l >>> i).ctz.toNat = 64 := by
        rw [heq]
        decide +kernel
      omega
    have htrue := hbit (toBitmask l >>> i).ctz.toNat
    rw [BitVec.getLsbD_true_ctz_of_ne_zero hne, ← hget _ (by omega)] at htrue
    have hmem : true ∈ (l.drop i).take size := by
      rw [List.mem_iff_getElem?]
      refine ⟨(toBitmask l >>> i).ctz.toNat, ?_⟩
      cases hcase : ((l.drop i).take size)[(toBitmask l >>> i).ctz.toNat]? with
      | none =>
        rw [hcase] at htrue
        cases htrue
      | some b =>
        rw [hcase, Option.getD_some] at htrue
        rw [← htrue]
    cases hzero true hmem

end Broken

section Vectors

variable {checks : Bool} {size : ℕ} {chunk : List Bool}

theorem ctz_le (bits : BitVec 64) : bits.ctz.toNat ≤ 64 := by
  by_cases hzero : bits = 0
  · rw [hzero]
    decide +kernel
  · have hlt := BitVec.ctz_lt_iff_ne_zero.mpr hzero
    rw [BitVec.lt_def] at hlt
    exact hlt.le

theorem ushiftRight_eq_zero {bits : BitVec 64} {n : ℕ} (h : 64 ≤ n) : bits >>> n = 0 := by
  apply BitVec.eq_of_getLsbD_eq
  intro i _
  rw [BitVec.getLsbD_ushiftRight, BitVec.getLsbD_of_ge _ _ (by omega)]
  simp

theorem shift_of_lt {n : ℕ} (h : n < 64) : shift checks (BitVec.ofNat 64 n) = .ok n := by
  have hnat : (BitVec.ofNat 64 n).toNat = n := by
    rw [BitVec.toNat_ofNat]
    omega
  unfold shift
  rw [hnat, if_neg (by omega), Nat.mod_eq_of_lt h]

/-- Groups of the first vector: one of them is zero, or all bits are used up. -/
theorem scanGroups_first (hlen : chunk.length = 64) (hsize : size < 64) :
    ∀ k i, i + k * size ≤ 64 →
      scanGroups checks (BitVec.ofNat 64 size) k (toBitmask chunk >>> i) =
        if (List.range k).any (fun c => ((chunk.drop (i + c * size)).take size).all (!·)) then .ok none
        else .ok (some (toBitmask chunk >>> (i + k * size))) := by
  intro k
  induction k with
  | zero =>
    intro i _
    simp [scanGroups]
  | succ k ih =>
    intro i hi
    have hnext : i + size + k * size = i + (k + 1) * size := by ring
    have hroom : i + size ≤ 64 := by
      rw [← hnext] at hi
      omega
    have hnat : (BitVec.ofNat 64 size).toNat = size := by
      rw [BitVec.toNat_ofNat]
      omega
    have hlater : ∀ c, i + (c + 1) * size = i + size + c * size := by
      intro c
      ring
    have hany : (List.range (k + 1)).any
          (fun c => ((chunk.drop (i + c * size)).take size).all (!·)) =
        (((chunk.drop i).take size).all (!·) || (List.range k).any
          (fun c => ((chunk.drop (i + size + c * size)).take size).all (!·))) := by
      rw [List.range_succ_eq_map, List.any_cons, List.any_map, Nat.zero_mul, Nat.add_zero]
      simp only [Function.comp_def, Nat.succ_eq_add_one, hlater]
    unfold scanGroups
    rw [hnat, if_congr (size_le_ctz_iff hlen hroom) rfl rfl, hany]
    by_cases hzero : ((chunk.drop i).take size).all (!·) = true
    · rw [if_pos hzero, hzero, Bool.true_or, if_pos rfl]
    · rw [if_neg hzero, Bool.eq_false_iff.mpr hzero, Bool.false_or, shift_of_lt hsize]
      change scanGroups checks _ k (toBitmask chunk >>> i >>> size) = _
      rw [← BitVec.shiftRight_add, ih (i + size) (by omega), hnext]

/-- Groups of a size that no number of zeros reaches. -/
theorem scanGroups_over {progress : BitVec 64} (h : 64 < progress.toNat) :
    ∀ k bits, scanGroups false progress k bits =
      .ok (some (bits >>> (k * (progress.toNat % 64)))) := by
  intro k
  induction k with
  | zero =>
    intro bits
    simp [scanGroups]
  | succ k ih =>
    intro bits
    have hnone : ¬ progress.toNat ≤ bits.ctz.toNat := by
      have hle := ctz_le bits
      omega
    unfold scanGroups
    rw [if_neg hnone]
    change scanGroups false progress k (bits >>> (progress.toNat % 64)) = _
    rw [ih, ← BitVec.shiftRight_add]
    congr 3
    ring

/-- What the progress is after a vector without a deleted record. -/
def wrapped (size : ℕ) : BitVec 64 := BitVec.ofNat 64 size - 64

theorem toNat_wrapped (hsize : size < 64) : (wrapped size).toNat = 2 ^ 64 - 64 + size := by
  have hlanes : (64 : BitVec 64).toNat = 64 := rfl
  unfold wrapped
  rw [BitVec.toNat_sub, BitVec.toNat_ofNat, hlanes]
  omega

/-- The first vector ends with an overflow, unless a group is zero. -/
theorem scanVector_first (hlen : chunk.length = 64) (hpos : 0 < size) (hsize : size < 64)
    (hdvd : size ∣ 64) :
    scanVector checks (BitVec.ofNat 64 size) (BitVec.ofNat 64 size) (toBitmask chunk) =
      if (chunksExact size chunk).any (fun group => group.all (!·)) then .ok none
      else if checks then .error .overflow else .ok (some (wrapped size)) := by
  have hnat : (BitVec.ofNat 64 size).toNat = size := by
    rw [BitVec.toNat_ofNat]
    omega
  have hwhole : 64 / size * size = 64 := Nat.div_mul_cancel hdvd
  have hgroups : scanGroups checks (BitVec.ofNat 64 size) (64 / size) (toBitmask chunk) =
      if (chunksExact size chunk).any (fun group => group.all (!·)) then .ok none
      else .ok (some 0) := by
    have hrun := @scanGroups_first checks size chunk hlen hsize (64 / size) 0 (by omega)
    rw [BitVec.ushiftRight_zero, ushiftRight_eq_zero (by omega)] at hrun
    rw [hrun, chunksExact, List.any_map, hlen]
    simp only [Nat.zero_add, Function.comp_def]
  have hclz : (0 : BitVec 64).clz = 64 := by decide
  unfold scanVector
  rw [if_neg (not_not.mpr rfl), hnat, hgroups]
  by_cases hzero : (chunksExact size chunk).any (fun group => group.all (!·)) = true
  · rw [if_pos hzero, if_pos hzero]
    rfl
  · rw [if_neg hzero, if_neg hzero]
    simp only [bind, Except.bind, hclz, sub, hnat]
    cases checks with
    | true =>
      rw [if_pos ⟨rfl, by simpa using hsize⟩]
      rfl
    | false => rfl

/-- The bits below `n`. -/
theorem and_low_eq_zero_iff {n : ℕ} (hn : n < 64) (bits : BitVec 64) :
    bits &&& ((1 : BitVec 64) <<< n - 1) = 0 ↔ ∀ j < n, bits.getLsbD j = false := by
  have hpow : 2 ^ n < 2 ^ 64 := Nat.pow_lt_pow_right (by decide) hn
  have hone : 1 ≤ 2 ^ n := Nat.one_le_two_pow
  have hnat : ((1 : BitVec 64) <<< n - 1).toNat = 2 ^ n - 1 := by
    have hshift : ((1 : BitVec 64) <<< n).toNat = 2 ^ n := by
      rw [BitVec.toNat_shiftLeft, Nat.shiftLeft_eq]
      change 1 * 2 ^ n % 2 ^ 64 = 2 ^ n
      rw [Nat.one_mul, Nat.mod_eq_of_lt hpow]
    have hlit : (1 : BitVec 64).toNat = 1 := rfl
    rw [BitVec.toNat_sub_of_le, hshift, hlit]
    rw [BitVec.le_def, hshift, hlit]
    exact hone
  have hlow : ∀ j, ((1 : BitVec 64) <<< n - 1).getLsbD j = decide (j < n) := by
    intro j
    rw [BitVec.getLsbD, hnat, Nat.testBit_two_pow_sub_one]
  constructor
  · intro hzero j hj
    have hbit := congrArg (fun bits => BitVec.getLsbD bits j) hzero
    beta_reduce at hbit
    rw [BitVec.getLsbD_and, hlow, decide_eq_true hj, Bool.and_true] at hbit
    rw [hbit]
    exact BitVec.getLsbD_zero
  · intro hzero
    apply BitVec.eq_of_getLsbD_eq
    intro j _
    rw [BitVec.getLsbD_and, hlow]
    by_cases hj : j < n
    · simp [hzero j hj]
    · simp [hj]

/-- The first lanes are zero if the bits are. -/
theorem low_eq_zero_iff (hlen : chunk.length = 64) {n : ℕ} (hn : n < 64) :
    toBitmask chunk &&& ((1 : BitVec 64) <<< n - 1) = 0 ↔ (chunk.take n).all (!·) = true := by
  rw [and_low_eq_zero_iff hn, List.all_eq_true]
  have hget : ∀ j < n, (chunk.take n)[j]? = some ((toBitmask chunk).getLsbD j) := by
    intro j hj
    rw [getLsbD_toBitmask chunk hlen.le, List.getElem?_take_of_lt hj,
      List.getElem?_eq_getElem (by omega), Option.getD_some]
  constructor
  · intro hzero b hb
    obtain ⟨j, hj⟩ := List.mem_iff_getElem?.mp hb
    have hj' : j < n := by
      have hlt := (List.getElem?_eq_some_iff.mp hj).1
      rw [List.length_take] at hlt
      omega
    rw [hget j hj', hzero j hj'] at hj
    rw [← Option.some.inj hj]
    rfl
  · intro hzero j hj
    have hmem := hzero _ (List.mem_of_getElem? (hget j hj))
    rwa [Bool.not_eq_true'] at hmem

/-- Of any other vector only the start is looked at, and the progress stays. -/
theorem scanVector_next (hlen : chunk.length = 64) (hpos : 0 < size) (hsize : size < 64)
    (hdvd : size ∣ 64) :
    scanVector false (BitVec.ofNat 64 size) (wrapped size) (toBitmask chunk) =
      if (chunk.take size).all (!·) then .ok none else .ok (some (wrapped size)) := by
  have hlanes : (64 : BitVec 64).toNat = 64 := rfl
  have hnat : (BitVec.ofNat 64 size).toNat = size := by
    rw [BitVec.toNat_ofNat]
    omega
  have hwrapped := toNat_wrapped hsize
  have hne : wrapped size ≠ BitVec.ofNat 64 size := by
    intro heq
    have htoNat := congrArg BitVec.toNat heq
    omega
  have hmod : (wrapped size).toNat % 64 = size := by omega
  have hshift : shift false (wrapped size) = .ok size := by
    unfold shift
    rw [if_neg (by simp), hmod]
  have hremaining : (64 - wrapped size).toNat = 128 - size := by
    rw [BitVec.toNat_sub, hwrapped, hlanes]
    omega
  have hgroups : scanGroups false (wrapped size) ((128 - size) / size) (toBitmask chunk >>> size) =
      .ok (some 0) := by
    have hwhole : size + (128 - size) / size * size = 128 := by
      obtain ⟨q, hq⟩ := hdvd
      have hrest : 128 - size = size * (2 * q - 1) := by
        rw [Nat.mul_sub, Nat.mul_one, ← Nat.mul_assoc, Nat.mul_right_comm, ← hq]
      rw [Nat.div_mul_cancel ⟨_, hrest⟩]
      omega
    rw [scanGroups_over (by omega), hmod, ← BitVec.shiftRight_add, hwhole,
      ushiftRight_eq_zero (by decide)]
  have hclz : (0 : BitVec 64).clz = 64 := by decide
  unfold scanVector
  rw [if_pos hne, hshift]
  simp only [bind, Except.bind, pure, Except.pure]
  rw [if_congr (low_eq_zero_iff hlen hsize) rfl rfl]
  by_cases hzero : (chunk.take size).all (!·) = true
  · rw [if_pos hzero, if_pos hzero]
  · rw [if_neg hzero, if_neg hzero]
    simp only [sub, hremaining, hnat, hgroups, hclz, Bool.false_eq_true, false_and, if_false]
    rfl

/-- The vectors behind the first one. -/
theorem scanShort_next {chunks : List (List Bool)} (hpos : 0 < size) (hsize : size < 64)
    (hdvd : size ∣ 64) (hlen : ∀ chunk ∈ chunks, chunk.length = 64) :
    scanShort false (BitVec.ofNat 64 size) chunks (wrapped size) =
      .ok ((chunks.map (·.take size)).any fun run => run.all (!·)) := by
  induction chunks with
  | nil => rfl
  | cons chunk rest ih =>
    unfold scanShort
    rw [scanVector_next (hlen chunk List.mem_cons_self) hpos hsize hdvd, List.map_cons, List.any_cons]
    by_cases hzero : (chunk.take size).all (!·) = true
    · rw [if_pos hzero, hzero, Bool.true_or]
    · rw [if_neg hzero, Bool.eq_false_iff.mpr hzero, Bool.false_or]
      exact ih fun other hother => hlen other (List.mem_cons_of_mem _ hother)

/-- The scan finds a zero run among those that it looks at, overflows in the first
vector, or goes on to the end without finding one. -/
theorem scan_eq {head tail : List Bool} {vectors : List (List Bool)} (hpos : 0 < size)
    (hsize : size < 64) (hdvd : size ∣ 64) (hlen : ∀ chunk ∈ vectors, chunk.length = 64) :
    scan checks size head vectors tail =
      if (looked checks size head vectors tail).any (fun run => run.all (!·)) then .ok true
      else if checks = true ∧ vectors ≠ [] then .error .overflow else .ok false := by
  have hany : (looked checks size head vectors tail).any (fun run => run.all (!·)) =
      ((chunksExact size head ++ chunksExact size tail).any (fun run => run.all (!·)) ||
        (vectors.head?.toList.flatMap (chunksExact size) ++
          if checks then [] else vectors.tail.map (·.take size)).any fun run => run.all (!·)) := by
    unfold looked
    rw [List.append_assoc, List.any_append]
  unfold scan
  rw [hany]
  by_cases houter : (chunksExact size head ++ chunksExact size tail).any
      (fun chunk => chunk.all (!·)) = true
  · rw [if_pos houter, houter, Bool.true_or, if_pos rfl]
  · rw [if_neg houter, Bool.eq_false_iff.mpr houter, Bool.false_or, if_neg (by omega)]
    cases vectors with
    | nil => cases checks <;> rfl
    | cons chunk rest =>
      have hfirst := hlen chunk List.mem_cons_self
      unfold scanShort
      rw [scanVector_first hfirst hpos hsize hdvd]
      rw [List.any_append, List.head?_cons, Option.toList_some, List.flatMap_singleton,
        List.tail_cons]
      by_cases hzero : (chunksExact size chunk).any (fun group => group.all (!·)) = true
      · rw [if_pos hzero, hzero, Bool.true_or, if_pos rfl]
      · rw [if_neg hzero, Bool.eq_false_iff.mpr hzero, Bool.false_or]
        cases checks with
        | true => simp
        | false =>
          have hrest := scanShort_next hpos hsize hdvd fun other hother =>
            hlen other (List.mem_cons_of_mem _ hother)
          cases hany : (rest.map (·.take size)).any fun run => run.all (!·) with
          | true => simpa [hany] using hrest
          | false => simpa [hany] using hrest

/-- What is looked at are parts of the elements, each of the size of a record. -/
theorem mem_looked {head tail run : List Bool} {vectors : List (List Bool)} (hsize : size < 64)
    (hlen : ∀ chunk ∈ vectors, chunk.length = 64)
    (h : run ∈ looked checks size head vectors tail) :
    run <:+: head ++ vectors.flatten ++ tail ∧ run.length = size := by
  have hvector : ∀ chunk ∈ vectors, chunk <:+: head ++ vectors.flatten ++ tail := by
    intro chunk hchunk
    obtain ⟨before, after, rfl⟩ := List.append_of_mem hchunk
    exact ⟨head ++ before.flatten, after.flatten ++ tail, by simp⟩
  unfold looked at h
  rw [List.mem_append, List.mem_append, List.mem_append] at h
  rcases h with ((h | h) | h) | h
  · obtain ⟨hpart, hcount⟩ := mem_chunksExact h
    exact ⟨hpart.trans ⟨[], vectors.flatten ++ tail, by simp⟩, hcount⟩
  · obtain ⟨hpart, hcount⟩ := mem_chunksExact h
    exact ⟨hpart.trans ⟨head ++ vectors.flatten, [], by simp⟩, hcount⟩
  · obtain ⟨chunk, hchunk, hrun⟩ := List.mem_flatMap.mp h
    obtain ⟨hpart, hcount⟩ := mem_chunksExact hrun
    have hmem : chunk ∈ vectors := List.mem_of_mem_head? (Option.mem_toList.mp hchunk)
    exact ⟨hpart.trans (hvector chunk hmem), hcount⟩
  · split at h
    · cases h
    · obtain ⟨chunk, hchunk, rfl⟩ := List.mem_map.mp h
      have hmem := List.mem_of_mem_tail hchunk
      refine ⟨(List.take_prefix _ _).isInfix.trans (hvector chunk hmem), ?_⟩
      rw [List.length_take, hlen chunk hmem]
      omega

/-- The parts that the elements are cut into make up the elements. -/
theorem flatten_chunksExact {n : ℕ} (l : List Bool) :
    (chunksExact n l).flatten = l.take (l.length / n * n) := by
  have hparts : ∀ k, ((List.range k).map fun i => (l.drop (i * n)).take n).flatten =
      l.take (k * n) := by
    intro k
    induction k with
    | zero => simp
    | succ k ih =>
      rw [List.range_succ, List.map_append, List.flatten_append, ih, List.map_singleton,
        List.flatten_singleton, Nat.add_mul, Nat.one_mul, List.take_add]
  exact hparts _

theorem aligned_whole (lane : ℕ) (elements : List Bool) :
    elements.take (unaligned lane elements) ++ (simd lane elements).flatten ++
      suffix lane elements = elements := by
  have hcount : (simd lane elements).length * lanes =
      (elements.drop (unaligned lane elements)).length / lanes * lanes := by
    rw [simd, chunksExact, List.length_map, List.length_range]
  unfold suffix
  rw [hcount, simd, flatten_chunksExact, List.append_assoc, List.take_append_drop,
    List.take_append_drop]

theorem length_of_mem_simd {lane : ℕ} {elements chunk : List Bool}
    (h : chunk ∈ simd lane elements) : chunk.length = 64 := (mem_chunksExact h).2

/-- Without `size` zero elements in a row nothing looks deleted. -/
theorem containsDeleted_eq {lane : ℕ} {elements : List Bool} (h : Broken size elements)
    (hpos : 0 < size) (hsize : size < 64) (hdvd : size ∣ 64) :
    containsDeleted checks size lane elements =
      if checks = true ∧ simd lane elements ≠ [] then .error .overflow else .ok false := by
  have hvectors : ∀ chunk ∈ simd lane elements, chunk.length = 64 := fun _ => length_of_mem_simd
  rw [containsDeleted_eq_scan, scan_eq hpos hsize hdvd hvectors, if_neg]
  rw [Bool.not_eq_true, List.any_eq_false]
  intro run hrun hall
  obtain ⟨hpart, hcount⟩ := mem_looked hsize hvectors hrun
  rw [aligned_whole] at hpart
  have hfalse := List.all_eq_true.mp hall true (h run hpart hcount)
  cases hfalse

end Vectors

end OrionNetwork.DeletedScan
