import OrionNetwork.FecSystem

/-!
# Bad input to the erasure code

Encoding, rebuilding and decoding with all that can panic on the way. Numbers and lengths
come from whoever stored the shares. Products of the encoder and of rebuilding are those of
the machine, so they may overflow, and a build may check for that and for debug assertions.
The order of equal keys is up to the sort. An allocation is taken to succeed.
-/
namespace OrionNetwork.Fec
open Galois Loops PivotExchange EvaluationCode Collections

structure Build where
  overflowChecks : Bool
  debugAssertions : Bool

inductive Panic where
  | overflow
  | outOfRange
  | chunkSize
  | debugAssertion
  deriving DecidableEq, Repr

/-- `sort_unstable_by_key`. -/
structure Sorting where
  sort : (Share → ℕ) → List Share → List Share
  perm : ∀ key shares, (sort key shares).Perm shares
  sorted : ∀ key shares, ((sort key shares).map key).Pairwise (· ≤ ·)

/-- Chunks of length zero panic. What is left behind the last chunk stays cleared. -/
def encodeChecked (b : Build) (f : Fec) (data : List Gf) (parityLen : ℕ) :
    Except Panic (Except EncodeError (List Gf)) :=
  let blockSize := data.length / f.required
  if blockSize * f.required ≠ data.length then .ok (.error .invalidDataLength)
  else
    let product := blockSize * (f.total - f.required)
    if b.overflowChecks = true ∧ 2 ^ 64 ≤ product then .error .overflow
    else if product % 2 ^ 64 ≠ parityLen then .ok (.error .invalidParityLength)
    else if blockSize = 0 then .error .chunkSize
    else .ok (.ok ((List.range (parityLen / blockSize)).flatMap (fun i =>
        combine f.required blockSize (f.encMatrix (i + f.required)) (chunk blockSize data)) ++
      List.replicate (parityLen % blockSize) 0))

/-- The entries of the encoder from an offset on, which are a row where one starts. -/
def encEntries (f : Fec) (start : ℕ) : ℕ → Gf :=
  if start % f.required = 0 then f.encMatrix (start / f.required)
  else fun j => f.encMatrix ((start + j) / f.required) ((start + j) % f.required)

/-- The row of a share, cut out of the encoder. -/
def encRow (b : Build) (f : Fec) (number : ℕ) : Except Panic (ℕ → Gf) :=
  if b.overflowChecks = true ∧ 2 ^ 64 ≤ number * f.required + f.required then .error .overflow
  else
    let start := number * f.required % 2 ^ 64
    let stop := (start + f.required) % 2 ^ 64
    if start ≤ stop ∧ stop ≤ f.required * f.total then .ok (f.encEntries start)
    else .error .outOfRange

def placeRow (b : Build) (f : Fec) (mx : Mat Gf) (e : ℕ × Share) : Except Panic (Mat Gf) :=
  (encRow b f e.2.number).map fun row => Function.update mx e.1 row

/-- The matrix that is inverted. -/
def decMatrixChecked (b : Build) (f : Fec) (placed : List (ℕ × Share)) : Except Panic (Mat Gf) :=
  loop (placeRow b f) placed fun i j => if i = j then 1 else 0

/-- From where the lowest shares have been compared. -/
def restoreChecked (b : Build) (o : Sorting) (f : Fec) (blockSize : ℕ) (shares : List Share) :
    Except Panic (Except RebuildError (List Share)) :=
  let data := shares.takeWhile fun s => s.number < f.required
  let parity := shares.dropWhile fun s => s.number < f.required
  let missing := gaps f.required (data.map (·.number))
  match decMatrixChecked b f (missing.zip parity) with
  | .error why => .error why
  | .ok mDec =>
    let marked := o.sort
      (fun s => if s.number > f.required then usizeMax - s.number else s.number)
      (data ++ mark missing parity)
    match invertMatrix mDec f.required with
    | none => .ok (.error .invertMatrix)
    | some inv => .ok (.ok (forTo (f.restoreRound inv blockSize) f.required marked))

def rebuildChecked (b : Build) (o : Sorting) (f : Fec) (shares : List Share) :
    Except Panic (Except RebuildError (List Share)) :=
  let shares := o.sort (·.number) shares
  if shares.length < f.required then .ok (.error .notEnoughShares)
  else
    let shares := shares.take f.required
    let blockSize := (shares.head?.map (·.data.length)).getD 0
    if shares.any fun s => s.data.length ≠ blockSize then .ok (.error .notEqualLengths)
    else restoreChecked b o f blockSize shares

def correctByteChecked (b : Build) (f : Fec) (allocs : Resources) (shares : List Share) (j : ℕ) :
    Except (Panic ⊕ CorrectError) (List Share) :=
  if b.debugAssertions = true ∧ ¬ Solved allocs shares j then .error (.inl .debugAssertion)
  else (f.correctByte allocs shares j).mapError .inr

def correctRowChecked (b : Build) (f : Fec) (allocs : Resources) (synd : Mat Gf) (c : ℕ)
    (shares : List Share) (i : ℕ) : Except (Panic ⊕ CorrectError) (List Share) :=
  let buf := combine c allocs.shareLen (synd i) fun j => (shares[j]?.map (·.data)).getD []
  loop (f.correctByteChecked b allocs)
    ((List.range allocs.shareLen).filter fun j => byte buf j ≠ 0) shares

def correctChecked (b : Build) (f : Fec) (shares : List Share) (reportInvalid : Bool)
    (allocs : Resources) : Except Panic (Except CorrectError (List Share)) :=
  let (synd, r, c) := f.syndromeMatrix shares
  match loop (f.correctRowChecked b allocs synd c) (List.range r) shares with
  | .error (.inl why) => .error why
  | .error (.inr e) => .ok (.error e)
  | .ok shares =>
    let shares := sortByKey (·.number) shares
    let valid := shares.takeWhile fun s => s.number < f.total
    let invalid := (shares.dropWhile fun s => s.number < f.total).map fun s =>
      { s with number := usizeMax - s.number }
    if reportInvalid && valid.length ≠ shares.length then
      .ok (.error (.invalidShares (invalid.map (·.number))))
    else .ok (.ok (valid ++ invalid))

/-- The shares are entered into a set of `total` numbers. More shares than numbers may overflow
the sizes of the buffers before, and then there is such a number as well. -/
def decodeChecked (b : Build) (o : Sorting) (f : Fec) (shares : List Share)
    (reportInvalid : Bool) : Except Panic (Except DecodeError (List Share)) :=
  match Resources.new f.required shares with
  | .error e => .ok (.error (.initResources e))
  | .ok (allocs, shares) =>
    if shares.any fun s => f.total ≤ s.number then .error .outOfRange
    else
      match correctChecked b f shares reportInvalid allocs with
      | .error why => .error why
      | .ok (.error e) => .ok (.error (.correct e))
      | .ok (.ok shares) => (rebuildChecked b o f shares).map (·.mapError .rebuild)

section Requirements

variable {α : Type}

def Returns (r : Except Panic α) : Prop := ∃ a, r = .ok a

/-- There is something to encode, and where it is a whole number of blocks the parity has a
length that the machine can compute. -/
structure EncodeFits (b : Build) (f : Fec) (dataLen parityLen : ℕ) : Prop where
  filled : ¬ (dataLen = 0 ∧ parityLen = 0)
  small : b.overflowChecks = true → f.required ∣ dataLen →
    dataLen / f.required * (f.total - f.required) < 2 ^ 64

/-- The row of a share is inside the encoder. -/
def Readable (b : Build) (f : Fec) (number : ℕ) : Prop :=
  if b.overflowChecks = true then number < f.total
  else number * f.required % 2 ^ 64 + f.required ≤ f.required * f.total

/-- The number of the share that stands at each place of the data. -/
def slot (k : ℕ) (shares : List Share) (i : ℕ) : ℕ :=
  (((placed k shares).lookup i).map (·.number)).getD i

/-- Inversion fails: with numbers of the code, the last place that parity stands at has a share
whose number is at a place before as well. -/
def Rejected (b : Build) (f : Fec) (lowest : List Share) : Prop :=
  ((∀ s ∈ lowest, s.number < f.total) → LastRepeats f.required (slot f.required lowest)) ∧
    ((∃ s ∈ lowest, f.total ≤ s.number) → ∀ mDec,
      decMatrixChecked b f (placed f.required lowest) = .ok mDec →
        invertMatrix mDec f.required = none)

def SameLength (shares : List Share) : Prop :=
  ∀ s ∈ shares, ∀ t ∈ shares, s.data.length = t.data.length

instance (shares : List Share) : Decidable (SameLength shares) :=
  inferInstanceAs (Decidable (∀ s ∈ shares, ∀ t ∈ shares, s.data.length = t.data.length))

/-- Of shares that are enough, with the lowest of one length, all rows can be read, and those
with numbers in common are rejected. -/
def RebuildFits (b : Build) (o : Sorting) (f : Fec) (shares : List Share) : Prop :=
  let lowest := (o.sort (·.number) shares).take f.required
  f.required ≤ shares.length → SameLength lowest →
    (∀ s ∈ lowest, f.required ≤ s.number → Readable b f s.number) ∧
      (¬ (shares.map (·.number)).Nodup → Rejected b f lowest)

/-- Rebuilding returns, and nothing from shares with numbers in common. -/
structure RebuildReports (b : Build) (o : Sorting) (f : Fec) (shares : List Share) : Prop where
  returns : Returns (f.rebuildChecked b o shares)
  rejects : ¬ (shares.map (·.number)).Nodup → ∀ out, f.rebuildChecked b o shares ≠ .ok (.ok out)

/-- Distinct shares of one length, two more than needed at least. -/
structure Acceptable (required : ℕ) (shares : List Share) : Prop where
  nodup : (shares.map (·.number)).Nodup
  enough : required + 2 ≤ shares.length
  same : SameLength shares

/-- A byte of the row has an ambiguous system when it is to be corrected. -/
def AmbiguousRow (f : Fec) (allocs : Resources) (synd : Mat Gf) (c : ℕ) (shares : List Share)
    (i : ℕ) : Prop :=
  let buf := combine c allocs.shareLen (synd i) fun j => (shares[j]?.map (·.data)).getD []
  Comes (f.correctByte allocs) (Ambiguous allocs)
    ((List.range allocs.shareLen).filter fun j => byte buf j ≠ 0) shares

def ComesToAmbiguous (f : Fec) (allocs : Resources) (shares : List Share) : Prop :=
  let (synd, r, c) := f.syndromeMatrix shares
  Comes (f.correctRow allocs synd c) (f.AmbiguousRow allocs synd c) (List.range r) shares

/-- Acceptable shares have numbers of the code. With debug assertions, no byte comes up whose
system is ambiguous. -/
structure DecodeFits (b : Build) (f : Fec) (shares : List Share) : Prop where
  numbers : Acceptable f.required shares → ∀ s ∈ shares, s.number < f.total
  unambiguous : b.debugAssertions = true → ∀ allocs sorted,
    Resources.new f.required shares = .ok (allocs, sorted) → ¬ f.ComesToAmbiguous allocs sorted

end Requirements

section Encoding

variable {b : Build} {f : Fec} {α : Type}

theorem returns_ok (a : α) : Returns (.ok a : Except Panic α) := ⟨a, rfl⟩

theorem not_returns_error (why : Panic) : ¬ Returns (.error why : Except Panic α) := by
  rintro ⟨a, ha⟩
  cases ha

theorem encodeChecked_returns_iff (data : List Gf) (parityLen : ℕ) :
    Returns (f.encodeChecked b data parityLen) ↔ EncodeFits b f data.length parityLen := by
  unfold encodeChecked
  dsimp only
  by_cases hblocks : data.length / f.required * f.required = data.length
  · have hdvd : f.required ∣ data.length := ⟨_, (Nat.mul_comm _ _).trans hblocks |>.symm⟩
    rw [if_neg (not_not.mpr hblocks)]
    generalize hproduct : data.length / f.required * (f.total - f.required) = product
    by_cases hover : b.overflowChecks = true ∧ 2 ^ 64 ≤ product
    · rw [if_pos hover]
      refine iff_of_false (not_returns_error _) fun hfits => ?_
      have hsmall := hfits.small hover.1 hdvd
      rw [hproduct] at hsmall
      omega
    · have hsmall (hchecks : b.overflowChecks = true) (_ : f.required ∣ data.length) :
          data.length / f.required * (f.total - f.required) < 2 ^ 64 := by
        rw [hproduct]
        by_contra hlarge
        exact hover ⟨hchecks, by omega⟩
      rw [if_neg hover]
      by_cases hlength : product % 2 ^ 64 = parityLen
      · rw [if_neg (not_not.mpr hlength)]
        by_cases hempty : data.length / f.required = 0
        · rw [if_pos hempty]
          refine iff_of_false (not_returns_error _) fun hfits => hfits.filled ⟨?_, ?_⟩
          · rw [← hblocks, hempty, Nat.zero_mul]
          · rw [← hlength, ← hproduct, hempty, Nat.zero_mul, Nat.zero_mod]
        · rw [if_neg hempty]
          refine iff_of_true (returns_ok _) ⟨fun hnone => hempty ?_, hsmall⟩
          rw [hnone.1, Nat.zero_div]
      · rw [if_pos hlength]
        refine iff_of_true (returns_ok _) ⟨fun hnone => hlength ?_, hsmall⟩
        rw [← hproduct, hnone.1, Nat.zero_div, Nat.zero_mul, Nat.zero_mod, hnone.2]
  · rw [if_pos hblocks]
    refine iff_of_true (returns_ok _) ⟨fun hnone => hblocks ?_, fun _ hdvd => ?_⟩
    · rw [hnone.1, Nat.zero_div, Nat.zero_mul]
    · exact absurd (Nat.div_mul_cancel hdvd) hblocks

/-- Without overflow this is the plain encoder. -/
theorem encodeChecked_eq {data : List Gf} {parityLen : ℕ}
    (hfits : EncodeFits b f data.length parityLen)
    (hsmall : data.length / f.required * (f.total - f.required) < 2 ^ 64) :
    f.encodeChecked b data parityLen = .ok (f.encode data parityLen) := by
  unfold encodeChecked encode
  dsimp only
  have hover : ¬ (b.overflowChecks = true ∧
      2 ^ 64 ≤ data.length / f.required * (f.total - f.required)) := fun h => by omega
  rw [if_neg hover, Nat.mod_eq_of_lt hsmall]
  by_cases hblocks : data.length / f.required * f.required = data.length
  · rw [if_neg (not_not.mpr hblocks), if_neg (not_not.mpr hblocks)]
    by_cases hlength : data.length / f.required * (f.total - f.required) = parityLen
    · rw [if_neg (not_not.mpr hlength), if_neg (not_not.mpr hlength)]
      have hfull : data.length / f.required ≠ 0 := by
        intro hempty
        refine hfits.filled ⟨?_, ?_⟩
        · rw [← hblocks, hempty, Nat.zero_mul]
        · rw [← hlength, hempty, Nat.zero_mul]
      rw [if_neg hfull, ← hlength, Nat.mul_div_cancel_left _ (Nat.pos_of_ne_zero hfull),
        Nat.mul_mod_right, List.replicate_zero, List.append_nil]
    · rw [if_pos hlength, if_pos hlength]
  · rw [if_pos hblocks, if_pos hblocks]

end Encoding

section Rebuilding

variable {required total : ℕ} {b : Build} {o : Sorting} {f : Fec} {shares lowest : List Share}

theorem encRow_of_lt (hnew : new required total = some f) {number : ℕ} (hlt : number < f.total) :
    encRow b f number = .ok (f.encMatrix number) := by
  obtain ⟨⟨hpos, hlt', hle⟩, -⟩ := new_eq hnew
  have hrequired := required_of_new hnew
  have htotal := total_of_new hnew
  have hrow : number * f.required + f.required ≤ f.required * f.total := by
    rw [Nat.mul_comm f.required f.total, ← Nat.succ_mul]
    exact Nat.mul_le_mul_right _ hlt
  have hsize : f.required * f.total ≤ 256 * 256 := Nat.mul_le_mul (by omega) (by omega)
  unfold encRow
  dsimp only
  have hover : ¬ (b.overflowChecks = true ∧ 2 ^ 64 ≤ number * f.required + f.required) :=
    fun h => by omega
  have hentries : f.encEntries (number * f.required) = f.encMatrix number := by
    unfold encEntries
    rw [if_pos (Nat.mul_mod_left _ _), Nat.mul_div_cancel _ (by omega)]
  rw [if_neg hover, Nat.mod_eq_of_lt (by omega : number * f.required < 2 ^ 64),
    Nat.mod_eq_of_lt (by omega : number * f.required + f.required < 2 ^ 64), if_pos ⟨by omega, hrow⟩,
    hentries]

/-- A slice that wraps around ends before it starts. -/
theorem slice_iff {start len size : ℕ} (hstart : start < 2 ^ 64) (hlen : len < 2 ^ 64)
    (hsize : size < 2 ^ 64) :
    (start ≤ (start + len) % 2 ^ 64 ∧ (start + len) % 2 ^ 64 ≤ size) ↔ start + len ≤ size := by
  by_cases hwraps : 2 ^ 64 ≤ start + len
  · have hstop : (start + len) % 2 ^ 64 = start + len - 2 ^ 64 := by
      rw [Nat.mod_eq_sub_mod hwraps, Nat.mod_eq_of_lt (by omega)]
    omega
  · rw [Nat.mod_eq_of_lt (by omega : start + len < 2 ^ 64)]
    exact and_iff_right (Nat.le_add_right start len)

theorem returns_encRow_iff (hnew : new required total = some f) (number : ℕ) :
    Returns (encRow b f number) ↔ Readable b f number := by
  obtain ⟨⟨hpos, hlt, hle⟩, -⟩ := new_eq hnew
  have hrequired := required_of_new hnew
  have htotal := total_of_new hnew
  have hsize : f.required * f.total ≤ 256 * 256 := Nat.mul_le_mul (by omega) (by omega)
  have hinside : number * f.required + f.required ≤ f.required * f.total ↔ number < f.total := by
    rw [Nat.mul_comm f.required f.total, ← Nat.succ_mul]
    exact Nat.mul_le_mul_right_iff (by omega)
  have hslice := slice_iff (Nat.mod_lt (number * f.required) (by decide : 2 ^ 64 > 0))
    (by omega : f.required < 2 ^ 64) (by omega : f.required * f.total < 2 ^ 64)
  have hreads : Returns (encRow b f number) ↔
      ¬ (b.overflowChecks = true ∧ 2 ^ 64 ≤ number * f.required + f.required) ∧
        number * f.required % 2 ^ 64 + f.required ≤ f.required * f.total := by
    unfold encRow
    dsimp only
    by_cases hover : b.overflowChecks = true ∧ 2 ^ 64 ≤ number * f.required + f.required
    · rw [if_pos hover]
      exact iff_of_false (not_returns_error _) fun h => h.1 hover
    · rw [if_neg hover, and_iff_right hover, if_congr hslice rfl rfl]
      split_ifs with hread
      · exact iff_of_true (returns_ok _) hread
      · exact iff_of_false (not_returns_error _) hread
  rw [hreads]
  unfold Readable
  by_cases hchecks : b.overflowChecks = true
  · rw [if_pos hchecks, ← hinside]
    constructor
    · rintro ⟨hover, hread⟩
      have hsmall : number * f.required + f.required < 2 ^ 64 := by
        by_contra hlarge
        exact hover ⟨hchecks, by omega⟩
      rwa [Nat.mod_eq_of_lt (by omega)] at hread
    · intro hread
      refine ⟨fun hover => ?_, ?_⟩
      · have hlarge := hover.2
        omega
      · rwa [Nat.mod_eq_of_lt (by omega)]
  · rw [if_neg hchecks]
    exact and_iff_right fun hover => hchecks hover.1

/-- All rows are read, or the first that cannot be panics. -/
theorem returns_decMatrixChecked_iff (l : List (ℕ × Share)) (mx : Mat Gf) :
    Returns (loop (placeRow b f) l mx) ↔ ∀ e ∈ l, Returns (encRow b f e.2.number) := by
  induction l generalizing mx with
  | nil => exact iff_of_true (returns_ok mx) fun e he => absurd he List.not_mem_nil
  | cons e l ih =>
    rw [List.forall_mem_cons]
    unfold loop placeRow
    cases hrow : encRow b f e.2.number with
    | error why => exact iff_of_false (not_returns_error why) fun h => not_returns_error why h.1
    | ok row => exact (ih _).trans (and_iff_right (returns_ok row)).symm

theorem decMatrixChecked_eq (hnew : new required total = some f) {l : List (ℕ × Share)}
    (hlt : ∀ e ∈ l, e.2.number < f.total) (mx : Mat Gf) :
    loop (placeRow b f) l mx =
      .ok (l.foldl (fun mx e => Function.update mx e.1 (f.encMatrix e.2.number)) mx) := by
  induction l generalizing mx with
  | nil => rfl
  | cons e l ih =>
    obtain ⟨hfirst, hrest⟩ := List.forall_mem_cons.mp hlt
    have hround : placeRow b f mx e = .ok (Function.update mx e.1 (f.encMatrix e.2.number)) := by
      unfold placeRow
      rw [encRow_of_lt hnew hfirst]
      rfl
    rw [loop, hround, List.foldl_cons]
    exact ih hrest _

end Rebuilding

section Places

variable {required total k : ℕ} {b : Build} {f : Fec} {lowest : List Share}

/-- There are gaps for all other places at least. -/
theorem length_le_gaps {l : List ℕ} (hsorted : l.Pairwise (· ≤ ·)) (hlt : ∀ x ∈ l, x < k) :
    k ≤ l.length + (gaps k l).length := by
  have hall : List.range k ⊆ l ++ gaps k l := by
    intro x hx
    rw [List.mem_append, mem_gaps hsorted hlt]
    by_cases hxl : x ∈ l
    · exact .inl hxl
    · exact .inr ⟨List.mem_range.mp hx, hxl⟩
  have hcount := (List.nodup_range.subperm hall).length_le
  rwa [List.length_range, List.length_append] at hcount

/-- The `k` shares with the lowest numbers, in order. -/
structure Lowest (k : ℕ) (lowest : List Share) : Prop where
  sorted : (lowest.map (·.number)).Pairwise (· ≤ ·)
  length : lowest.length = k

namespace Lowest

theorem dataNumbers (h : Lowest k lowest) :
    ((lowest.takeWhile fun s => s.number < k).map (·.number)).Pairwise (· ≤ ·) ∧
      ∀ x ∈ (lowest.takeWhile fun s => s.number < k).map (·.number), x < k := by
  rw [takeWhile_number]
  exact ⟨h.sorted.sublist (List.takeWhile_sublist _), fun _ => takeWhile_lt⟩

theorem mem_parity_iff (h : Lowest k lowest) {s : Share} :
    s ∈ lowest.dropWhile (fun s => s.number < k) ↔ s ∈ lowest ∧ k ≤ s.number := by
  constructor
  · intro hs
    refine ⟨(List.dropWhile_sublist _).subset hs, le_of_mem_dropWhile h.sorted ?_⟩
    rw [← dropWhile_number]
    exact List.mem_map_of_mem hs
  · rintro ⟨hs, hge⟩
    rw [← List.takeWhile_append_dropWhile (p := fun s : Share => decide (s.number < k))
      (l := lowest), List.mem_append] at hs
    refine hs.resolve_left fun hdata => ?_
    have hlt := h.dataNumbers.2 _ (List.mem_map_of_mem hdata)
    omega

/-- Every parity share gets a place. -/
theorem map_snd_placed (h : Lowest k lowest) :
    (placed k lowest).map Prod.snd = lowest.dropWhile fun s => s.number < k := by
  obtain ⟨hsorted, hlt⟩ := h.dataNumbers
  have hgaps := length_le_gaps hsorted hlt
  have hsplit := congrArg List.length
    (List.takeWhile_append_dropWhile (p := fun s : Share => decide (s.number < k)) (l := lowest))
  rw [List.length_append, h.length] at hsplit
  rw [List.length_map] at hgaps
  apply List.map_snd_zip
  omega

theorem nodup_places (h : Lowest k lowest) : ((placed k lowest).map Prod.fst).Nodup := by
  unfold placed
  rw [List.zip_eq_zip_take_min, List.map_fst_zip]
  · exact (nodup_gaps h.dataNumbers.1).sublist (List.take_sublist _ _)
  · rw [List.length_take, List.length_take]
    omega

theorem of_mem_placed (h : Lowest k lowest) {e : ℕ × Share} (he : e ∈ placed k lowest) :
    e.2 ∈ lowest ∧ k ≤ e.2.number := by
  rw [← h.mem_parity_iff, ← h.map_snd_placed]
  exact List.mem_map_of_mem he

theorem forall_placed_iff (h : Lowest k lowest) (P : Share → Prop) :
    (∀ e ∈ placed k lowest, P e.2) ↔ ∀ s ∈ lowest, k ≤ s.number → P s := by
  constructor
  · intro hall s hs hge
    have hmem := h.mem_parity_iff.mpr ⟨hs, hge⟩
    rw [← h.map_snd_placed] at hmem
    obtain ⟨e, he, rfl⟩ := List.mem_map.mp hmem
    exact hall e he
  · intro hall e he
    obtain ⟨hs, hge⟩ := h.of_mem_placed he
    exact hall e.2 hs hge

/-- A place has its own block or a parity share. -/
theorem slot_cases (h : Lowest k lowest) (r : ℕ) :
    ((placed k lowest).lookup r = none ∧ slot k lowest r = r) ∨
      ∃ s, (placed k lowest).lookup r = some s ∧ slot k lowest r = s.number ∧ s ∈ lowest ∧
        k ≤ s.number := by
  unfold slot
  cases hlookup : (placed k lowest).lookup r with
  | none => exact .inl ⟨rfl, rfl⟩
  | some s =>
    obtain ⟨before, after, hsplit, -⟩ := List.lookup_eq_some_iff.mp hlookup
    have hmem : (r, s) ∈ placed k lowest := by
      rw [hsplit]
      exact List.mem_append_right before List.mem_cons_self
    obtain ⟨hs, hge⟩ := h.of_mem_placed hmem
    exact .inr ⟨s, rfl, rfl, hs, hge⟩

theorem invertMatrix_eq_none_iff (h : Lowest k lowest) (hnew : new k total = some f)
    (hlt : ∀ s ∈ lowest, s.number < f.total) :
    invertMatrix (f.decMatrix (placed k lowest)) k = none ↔ LastRepeats k (slot k lowest) := by
  obtain ⟨⟨hpos, hkt, hle⟩, -⟩ := new_eq hnew
  have htotal := total_of_new hnew
  have hc := systematic hnew
  refine Fec.invertMatrix_eq_none_iff hc (fun r _ => ?_) (fun r hr => ?_) fun r hr j hj => ?_
  · rcases h.slot_cases r with ⟨-, hown⟩ | ⟨s, -, hslot, -, hge⟩
    · exact .inl hown
    · exact .inr (hslot ▸ hge)
  · rcases h.slot_cases r with ⟨-, hown⟩ | ⟨s, -, hslot, hs, -⟩
    · omega
    · have hnumber := hlt s hs
      omega
  · unfold decMatrix select
    rw [foldl_update (fun s : Share => f.encMatrix s.number) h.nodup_places]
    rcases h.slot_cases r with ⟨hlookup, hown⟩ | ⟨s, hlookup, hslot, -⟩
    · rw [hlookup, hown, hc.identity r hr j hj]
      rfl
    · rw [hlookup, hslot]
      rfl

end Lowest

end Places

section Reports

variable {required total : ℕ} {b : Build} {o : Sorting} {f : Fec} {shares lowest : List Share}

theorem new_self (hnew : new required total = some f) : new f.required f.total = some f := by
  rw [required_of_new hnew, total_of_new hnew]
  exact hnew

theorem sameLength_iff (lowest : List Share) :
    (lowest.any fun s => s.data.length ≠ (lowest.head?.map (·.data.length)).getD 0) = false ↔
      SameLength lowest := by
  have hbyte (n m : ℕ) : (¬ decide (n ≠ m) = true) ↔ n = m := by simp
  rw [List.any_eq_false]
  simp only [hbyte]
  cases lowest with
  | nil =>
    refine iff_of_true (fun s hs => ?_) fun s hs => ?_
    · exact absurd hs List.not_mem_nil
    · exact absurd hs List.not_mem_nil
  | cons a l =>
    rw [List.head?_cons, Option.map_some, Option.getD_some]
    constructor
    · intro hall s hs t ht
      rw [hall s hs, hall t ht]
    · intro hsame s hs
      exact hsame s hs a List.mem_cons_self

theorem lowest_take (o : Sorting) {k : ℕ} (hk : k ≤ shares.length) :
    Lowest k ((o.sort (·.number) shares).take k) := by
  have hlength := (o.perm (·.number) shares).length_eq
  refine ⟨?_, ?_⟩
  · rw [List.map_take]
    exact (o.sorted (·.number) shares).sublist (List.take_sublist _ _)
  · rw [List.length_take, hlength]
    omega

/-- The rows of the lowest shares that are no data. -/
theorem returns_decMatrixChecked_lowest (hnew : new required total = some f)
    (h : Lowest f.required lowest) :
    Returns (decMatrixChecked b f (placed f.required lowest)) ↔
      ∀ s ∈ lowest, f.required ≤ s.number → Readable b f s.number := by
  unfold decMatrixChecked
  rw [returns_decMatrixChecked_iff, h.forall_placed_iff fun s => Returns (encRow b f s.number)]
  simp only [returns_encRow_iff hnew]

theorem rejected_iff (hnew : new required total = some f) (h : Lowest f.required lowest)
    {mDec : Mat Gf} (hread : decMatrixChecked b f (placed f.required lowest) = .ok mDec) :
    Rejected b f lowest ↔ invertMatrix mDec f.required = none := by
  unfold Rejected
  by_cases hlt : ∀ s ∈ lowest, s.number < f.total
  · have hplain : mDec = f.decMatrix (placed f.required lowest) := by
      unfold decMatrixChecked at hread
      rw [decMatrixChecked_eq hnew fun e he => hlt e.2 (h.of_mem_placed he).1] at hread
      exact (Except.ok.inj hread).symm
    have hnone : ¬ ∃ s ∈ lowest, f.total ≤ s.number := by
      rintro ⟨s, hs, hge⟩
      have hnumber := hlt s hs
      omega
    rw [hplain, h.invertMatrix_eq_none_iff (new_self hnew) hlt]
    constructor
    · exact fun hrejected => hrejected.1 hlt
    · exact fun hlast => ⟨fun _ => hlast, fun hsome => absurd hsome hnone⟩
  · constructor
    · rintro ⟨-, hfails⟩
      push Not at hlt
      exact hfails hlt mDec hread
    · intro hfails
      refine ⟨fun hall => absurd hall hlt, fun _ other hother => ?_⟩
      cases hread.symm.trans hother
      exact hfails

theorem returns_restoreChecked_iff (blockSize : ℕ) (lowest : List Share) :
    Returns (restoreChecked b o f blockSize lowest) ↔
      Returns (decMatrixChecked b f (placed f.required lowest)) := by
  unfold restoreChecked placed
  dsimp only
  cases decMatrixChecked b f _ with
  | error why => exact iff_of_false (not_returns_error why) (not_returns_error why)
  | ok mDec =>
    dsimp only
    cases invertMatrix mDec f.required with
    | none => exact iff_of_true (returns_ok _) (returns_ok mDec)
    | some inv => exact iff_of_true (returns_ok _) (returns_ok mDec)

theorem restoreChecked_fails_iff (blockSize : ℕ) {mDec : Mat Gf}
    (hread : decMatrixChecked b f (placed f.required lowest) = .ok mDec) :
    (∀ out, restoreChecked b o f blockSize lowest ≠ .ok (.ok out)) ↔
      invertMatrix mDec f.required = none := by
  unfold placed at hread
  unfold restoreChecked
  dsimp only
  rw [hread]
  dsimp only
  cases invertMatrix mDec f.required with
  | none =>
    refine iff_of_true (fun out hout => ?_) rfl
    cases hout
  | some inv => exact iff_of_false (fun hnone => hnone _ rfl) (Option.some_ne_none inv)

theorem rebuildChecked_eq (henough : f.required ≤ shares.length)
    (hsame : SameLength ((o.sort (·.number) shares).take f.required)) :
    f.rebuildChecked b o shares =
      restoreChecked b o f
        ((((o.sort (·.number) shares).take f.required).head?.map (·.data.length)).getD 0)
        ((o.sort (·.number) shares).take f.required) := by
  have hlength := (o.perm (·.number) shares).length_eq
  unfold rebuildChecked
  dsimp only
  rw [hlength, if_neg (by omega), (sameLength_iff _).mpr hsame, if_neg Bool.false_ne_true]

/-- Shares that are too few or of different lengths are reported. -/
theorem rebuildChecked_refuses (h : ¬ (f.required ≤ shares.length ∧
    SameLength ((o.sort (·.number) shares).take f.required))) :
    ∃ e, f.rebuildChecked b o shares = .ok (.error e) := by
  have hlength := (o.perm (·.number) shares).length_eq
  unfold rebuildChecked
  dsimp only
  rw [hlength]
  by_cases hfew : shares.length < f.required
  · rw [if_pos hfew]
    exact ⟨_, rfl⟩
  · have hdiffer := mt (sameLength_iff _).mp fun hsame => h ⟨Nat.le_of_not_lt hfew, hsame⟩
    rw [if_neg hfew, if_pos (Bool.eq_true_of_not_eq_false hdiffer)]
    exact ⟨_, rfl⟩

theorem returns_rebuildChecked_iff (hnew : new required total = some f) (shares : List Share) :
    Returns (f.rebuildChecked b o shares) ↔
      (f.required ≤ shares.length → SameLength ((o.sort (·.number) shares).take f.required) →
        ∀ s ∈ (o.sort (·.number) shares).take f.required,
          f.required ≤ s.number → Readable b f s.number) := by
  by_cases h : f.required ≤ shares.length ∧
      SameLength ((o.sort (·.number) shares).take f.required)
  · obtain ⟨henough, hsame⟩ := h
    rw [rebuildChecked_eq henough hsame, returns_restoreChecked_iff,
      returns_decMatrixChecked_lowest hnew (lowest_take o henough)]
    exact ⟨fun hreadable _ _ => hreadable, fun hreadable => hreadable henough hsame⟩
  · obtain ⟨e, he⟩ := rebuildChecked_refuses (b := b) h
    rw [he]
    exact iff_of_true (returns_ok _) fun henough hsame => absurd ⟨henough, hsame⟩ h

theorem rebuildReports_iff (hnew : new required total = some f) (shares : List Share) :
    RebuildReports b o f shares ↔ RebuildFits b o f shares := by
  constructor
  · rintro ⟨hreturns, hrejects⟩ henough hsame
    have hlowest := lowest_take o henough
    have hreadable := (returns_rebuildChecked_iff hnew shares).mp hreturns henough hsame
    obtain ⟨mDec, hread⟩ := (returns_decMatrixChecked_lowest hnew hlowest).mpr hreadable
    refine ⟨hreadable, fun hrepeated => ?_⟩
    rw [rejected_iff hnew hlowest hread, ← restoreChecked_fails_iff _ hread,
      ← rebuildChecked_eq henough hsame]
    exact hrejects hrepeated
  · intro hfits
    refine ⟨(returns_rebuildChecked_iff hnew shares).mpr fun henough hsame =>
      (hfits henough hsame).1, fun hrepeated => ?_⟩
    by_cases h : f.required ≤ shares.length ∧
        SameLength ((o.sort (·.number) shares).take f.required)
    · obtain ⟨henough, hsame⟩ := h
      have hlowest := lowest_take o henough
      obtain ⟨hreadable, hrejected⟩ := hfits henough hsame
      obtain ⟨mDec, hread⟩ := (returns_decMatrixChecked_lowest hnew hlowest).mpr hreadable
      rw [rebuildChecked_eq henough hsame, restoreChecked_fails_iff _ hread,
        ← rejected_iff hnew hlowest hread]
      exact hrejected hrepeated
    · obtain ⟨e, he⟩ := rebuildChecked_refuses (b := b) h
      rw [he]
      intro out hout
      cases hout

/-- Numbers of the code are never out of range. -/
theorem rebuildChecked_returns (hnew : new required total = some f)
    (hlt : ∀ s ∈ shares, s.number < f.total) : Returns (f.rebuildChecked b o shares) := by
  rw [returns_rebuildChecked_iff hnew]
  intro _ _ s hs _
  have hmem := (o.perm (·.number) shares).subset (List.mem_of_mem_take hs)
  exact (returns_encRow_iff hnew s.number).mp ⟨_, encRow_of_lt hnew (hlt s hmem)⟩

end Reports

section Decoding

variable {required total : ℕ} {b : Build} {o : Sorting} {f : Fec} {shares : List Share}
  {allocs : Resources}

/-- With debug assertions the loop fails at an ambiguous system, and otherwise it is the plain
one. -/
theorem correctRowChecked_eq (allocs : Resources) (synd : Mat Gf) (c : ℕ) (shares : List Share)
    (i : ℕ) :
    (b.debugAssertions = true ∧ f.AmbiguousRow allocs synd c shares i →
        f.correctRowChecked b allocs synd c shares i = .error (.inl .debugAssertion)) ∧
      (¬ (b.debugAssertions = true ∧ f.AmbiguousRow allocs synd c shares i) →
        f.correctRowChecked b allocs synd c shares i =
          (f.correctRow allocs synd c shares i).mapError .inr) := by
  have hbad (s : List Share) (j : ℕ) (h : b.debugAssertions = true ∧ Ambiguous allocs s j) :
      f.correctByteChecked b allocs s j = .error (.inl .debugAssertion) := by
    unfold correctByteChecked
    rw [if_pos (h.imp_right not_solved_iff.mpr)]
  have hgood (s : List Share) (j : ℕ) (h : ¬ (b.debugAssertions = true ∧ Ambiguous allocs s j)) :
      f.correctByteChecked b allocs s j = (f.correctByte allocs s j).mapError .inr := by
    unfold correctByteChecked
    rw [if_neg fun hboth => h (hboth.imp_right not_solved_iff.mp)]
  have hloop := loop_guarded hbad hgood
    ((List.range allocs.shareLen).filter fun j =>
      byte (combine c allocs.shareLen (synd i) fun j => (shares[j]?.map (·.data)).getD []) j ≠ 0)
    shares
  rwa [comes_and] at hloop

theorem correctChecked_eq (shares : List Share) (reportInvalid : Bool) (allocs : Resources) :
    (b.debugAssertions = true ∧ f.ComesToAmbiguous allocs shares →
        f.correctChecked b shares reportInvalid allocs = .error .debugAssertion) ∧
      (¬ (b.debugAssertions = true ∧ f.ComesToAmbiguous allocs shares) →
        f.correctChecked b shares reportInvalid allocs =
          .ok (f.correct shares reportInvalid allocs)) := by
  unfold correctChecked correct ComesToAmbiguous
  obtain ⟨synd, r, c⟩ := f.syndromeMatrix shares
  dsimp only
  have hloop := loop_guarded
    (fun s i h => (f.correctRowChecked_eq (b := b) allocs synd c s i).1 h)
    (fun s i h => (f.correctRowChecked_eq (b := b) allocs synd c s i).2 h)
    (List.range r) shares
  rw [comes_and] at hloop
  constructor
  · intro h
    rw [hloop.1 h]
  · intro h
    rw [hloop.2 h]
    cases loop (f.correctRow allocs synd c) (List.range r) shares with
    | error e => rfl
    | ok out =>
      dsimp only [Except.mapError]
      split_ifs <;> rfl

theorem hasDuplicate_eq_false_iff {numbers : List ℕ} (h : numbers.Pairwise (· ≤ ·)) :
    hasDuplicate numbers = false ↔ numbers.Nodup := by
  constructor
  · intro hnone
    induction numbers with
    | nil => exact List.nodup_nil
    | cons a l ih =>
      cases l with
      | nil => exact List.nodup_singleton a
      | cons b l =>
        obtain ⟨hne, hrest⟩ := Bool.or_eq_false_iff.mp hnone
        rw [beq_eq_false_iff_ne] at hne
        have hnodup := ih h.of_cons hrest
        refine List.nodup_cons.mpr ⟨fun ha => ?_, hnodup⟩
        have hab := List.rel_of_pairwise_cons h List.mem_cons_self
        rcases List.mem_cons.mp ha with rfl | hal
        · exact hne rfl
        · have hba := List.rel_of_pairwise_cons h.of_cons hal
          omega
  · intro hnodup
    exact hasDuplicate_eq_false ((h.and hnodup).imp fun hab => lt_of_le_of_ne hab.1 hab.2)

theorem SameLength.of_perm {l l' : List Share} (h : SameLength l) (hperm : l.Perm l') :
    SameLength l' := fun s hs t ht => h s (hperm.mem_iff.mpr hs) t (hperm.mem_iff.mpr ht)

theorem resources_new_perm {sorted : List Share}
    (h : Resources.new required shares = .ok (allocs, sorted)) : sorted.Perm shares := by
  unfold Resources.new at h
  simp only at h
  split_ifs at h
  cases h
  exact sortByKey_perm _ _

theorem acceptable_iff : Acceptable required shares ↔
    ∃ allocs sorted, Resources.new required shares = .ok (allocs, sorted) := by
  have hperm := sortByKey_perm (·.number) shares
  have hlength := hperm.length_eq
  have hnodup := (hasDuplicate_eq_false_iff (pairwise_sortByKey (·.number) shares)).trans
    (hperm.map _).nodup_iff
  have hsame := sameLength_iff (sortByKey (·.number) shares)
  unfold Resources.new
  dsimp only
  rw [hlength]
  constructor
  · intro h
    rw [if_neg (Bool.not_eq_true _ ▸ hnodup.mpr h.nodup), if_neg (by have := h.enough; omega),
      if_neg (Bool.not_eq_true _ ▸ hsame.mpr (h.same.of_perm hperm.symm)),
      if_neg (by have := h.enough; omega)]
    exact ⟨_, _, rfl⟩
  · rintro ⟨allocs, sorted, h⟩
    split_ifs at h with hrepeated hfew hdiffer hnone
    refine ⟨hnodup.mp (Bool.eq_false_of_not_eq_true hrepeated), by omega, ?_⟩
    exact (hsame.mp (Bool.eq_false_of_not_eq_true hdiffer)).of_perm hperm

theorem decodeChecked_returns_iff (hnew : new required total = some f) (shares : List Share)
    (reportInvalid : Bool) :
    Returns (f.decodeChecked b o shares reportInvalid) ↔ DecodeFits b f shares := by
  obtain ⟨⟨-, -, hle⟩, -⟩ := new_eq hnew
  have htotal := total_of_new hnew
  unfold decodeChecked
  cases hresources : Resources.new f.required shares with
  | error e =>
    refine iff_of_true (returns_ok _) ⟨fun hacceptable => ?_, fun _ allocs sorted hok => ?_⟩
    · obtain ⟨allocs, sorted, hok⟩ := acceptable_iff.mp hacceptable
      cases hresources.symm.trans hok
    · cases hresources.symm.trans hok
  | ok resources =>
    obtain ⟨allocs, sorted⟩ := resources
    have hperm := resources_new_perm hresources
    have hacceptable := acceptable_iff.mpr ⟨allocs, sorted, hresources⟩
    dsimp only
    by_cases hlt : ∀ s ∈ shares, s.number < f.total
    · have hinside : (sorted.any fun s => f.total ≤ s.number) = false := by
        rw [List.any_eq_false]
        intro s hs
        have hnumber := hlt s (hperm.mem_iff.mp hs)
        simpa using hnumber
      have hlt' : ∀ s ∈ sorted, s.number < f.total := fun s hs => hlt s (hperm.mem_iff.mp hs)
      rw [if_neg (Bool.not_eq_true _ ▸ hinside)]
      by_cases hambiguous : b.debugAssertions = true ∧ f.ComesToAmbiguous allocs sorted
      · rw [(correctChecked_eq sorted reportInvalid allocs).1 hambiguous]
        refine iff_of_false (not_returns_error _) fun hfits => ?_
        exact hfits.unambiguous hambiguous.1 allocs sorted hresources hambiguous.2
      · have hfits : DecodeFits b f shares := by
          refine ⟨fun _ => hlt, fun hdebug allocs' sorted' hok hcomes => hambiguous ⟨hdebug, ?_⟩⟩
          cases hresources.symm.trans hok
          exact hcomes
        rw [(correctChecked_eq sorted reportInvalid allocs).2 hambiguous]
        cases hcorrect : f.correct sorted reportInvalid allocs with
        | error e => exact iff_of_true (returns_ok _) hfits
        | ok out =>
          have hnumbers := correct_numbers (htotal ▸ hle) hlt' hcorrect
          have hout : ∀ s ∈ out, s.number < f.total := by
            intro s hs
            obtain ⟨t, ht, hts⟩ := List.mem_map.mp (hnumbers.mem_iff.mp (List.mem_map_of_mem hs))
            exact hts ▸ hlt' t ht
          obtain ⟨result, hresult⟩ := rebuildChecked_returns (b := b) (o := o) hnew hout
          dsimp only
          rw [hresult]
          exact iff_of_true (returns_ok _) hfits
    · have houtside : (sorted.any fun s => f.total ≤ s.number) = true := by
        rw [List.any_eq_true]
        push Not at hlt
        obtain ⟨s, hs, hge⟩ := hlt
        exact ⟨s, hperm.mem_iff.mpr hs, decide_eq_true hge⟩
      rw [if_pos houtside]
      exact iff_of_false (not_returns_error _) fun hfits => hlt (hfits.numbers hacceptable)

end Decoding

section Plain

variable {required total : ℕ} {b : Build} {f : Fec} {shares : List Share}

/-- Shares with the same key stay in order. -/
def stable : Sorting := ⟨sortByKey, sortByKey_perm, pairwise_sortByKey⟩

/-- With numbers of the code this is the plain rebuilding. -/
theorem rebuildChecked_stable (hnew : new required total = some f)
    (hlt : ∀ s ∈ shares, s.number < f.total) :
    f.rebuildChecked b stable shares = .ok (f.rebuild shares) := by
  unfold rebuildChecked rebuild restoreChecked decMatrixChecked decMatrix
  dsimp only [stable]
  have hrows : ∀ e ∈ placed f.required ((sortByKey (·.number) shares).take f.required),
      e.2.number < f.total := by
    intro e he
    have hparity := (List.dropWhile_sublist _).subset (List.of_mem_zip he).2
    exact hlt e.2 ((sortByKey_perm _ shares).subset (List.mem_of_mem_take hparity))
  have hread := decMatrixChecked_eq (b := b) hnew hrows fun i j => if i = j then 1 else 0
  unfold placed at hread
  rw [hread]
  split_ifs
  · rfl
  · rfl
  · dsimp only
    cases invertMatrix _ f.required <;> rfl

theorem decodeChecked_stable (hnew : new required total = some f) (hfits : DecodeFits b f shares)
    (reportInvalid : Bool) :
    f.decodeChecked b stable shares reportInvalid = .ok (f.decode shares reportInvalid) := by
  obtain ⟨⟨-, -, hle⟩, -⟩ := new_eq hnew
  have htotal := total_of_new hnew
  unfold decodeChecked decode
  cases hresources : Resources.new f.required shares with
  | error e => rfl
  | ok resources =>
    obtain ⟨allocs, sorted⟩ := resources
    have hperm := resources_new_perm hresources
    have hlt : ∀ s ∈ sorted, s.number < f.total := fun s hs =>
      hfits.numbers (acceptable_iff.mpr ⟨allocs, sorted, hresources⟩) s (hperm.mem_iff.mp hs)
    have hinside : ¬ (sorted.any fun s => f.total ≤ s.number) = true := by
      rw [Bool.not_eq_true, List.any_eq_false]
      intro s hs
      simpa using hlt s hs
    dsimp only
    rw [if_neg hinside, (correctChecked_eq sorted reportInvalid allocs).2
      fun h => hfits.unambiguous h.1 allocs sorted hresources h.2]
    cases hcorrect : f.correct sorted reportInvalid allocs with
    | error e => rfl
    | ok out =>
      have hnumbers := correct_numbers (htotal ▸ hle) hlt hcorrect
      have hout : ∀ s ∈ out, s.number < f.total := by
        intro s hs
        obtain ⟨t, ht, hts⟩ := List.mem_map.mp (hnumbers.mem_iff.mp (List.mem_map_of_mem hs))
        exact hts ▸ hlt t ht
      dsimp only
      rw [rebuildChecked_stable hnew hout]
      cases f.rebuild out <;> rfl

end Plain

/-- Exactly on what each of the three never panics, and rebuilding never accepts repeated
numbers. -/
theorem reports_iff {required total : ℕ} {f : Fec} (hnew : new required total = some f) (b : Build)
    (o : Sorting) :
    (∀ data parityLen, Returns (f.encodeChecked b data parityLen) ↔
        EncodeFits b f data.length parityLen) ∧
      (∀ shares, RebuildReports b o f shares ↔ RebuildFits b o f shares) ∧
      ∀ shares reportInvalid, Returns (f.decodeChecked b o shares reportInvalid) ↔
        DecodeFits b f shares :=
  ⟨encodeChecked_returns_iff, rebuildReports_iff hnew, decodeChecked_returns_iff hnew⟩

/-- In a release build, and for a code with two symbols of parity. -/
theorem reports_iff_release : ∃ f, new 1 3 = some f ∧
    (∀ data parityLen, Returns (f.encodeChecked ⟨false, false⟩ data parityLen) ↔
        EncodeFits ⟨false, false⟩ f data.length parityLen) ∧
      (∀ shares, RebuildReports ⟨false, false⟩ stable f shares ↔
        RebuildFits ⟨false, false⟩ stable f shares) ∧
      ∀ shares reportInvalid, Returns (f.decodeChecked ⟨false, false⟩ stable shares reportInvalid) ↔
        DecodeFits ⟨false, false⟩ f shares :=
  ⟨_, rfl, reports_iff (show new 1 3 = some _ from rfl) ⟨false, false⟩ stable⟩

/-- Nothing to encode, a number that is out of range, a block that comes twice. -/
theorem reports_fails : ∃ f, new 1 3 = some f ∧ ∀ (b : Build) (o : Sorting),
    ¬ Returns (f.encodeChecked b [] 0) ∧
      ¬ Returns (f.rebuildChecked b o [⟨5, [1]⟩]) ∧
      (∃ out, f.rebuildChecked b o [⟨0, [1]⟩, ⟨0, [1]⟩] = .ok (.ok out)) ∧
      ¬ Returns (f.decodeChecked b o [⟨0, [1]⟩, ⟨1, [1]⟩, ⟨7, [1]⟩] false) := by
  have hnew : new 1 3 = some ⟨1, 3, newEncMatrix 1, newVandMatrix⟩ := rfl
  refine ⟨_, hnew, fun b o => ⟨fun hreturns => ?_, fun hreturns => ?_, ?_, fun hreturns => ?_⟩⟩
  · have hfits := (encodeChecked_returns_iff _ _).mp hreturns
    exact hfits.filled ⟨rfl, rfl⟩
  · have hsorted : o.sort (·.number) [⟨5, [1]⟩] = [⟨5, [1]⟩] :=
      List.perm_singleton.mp (o.perm _ _)
    have hreadable := (returns_rebuildChecked_iff hnew _).mp hreturns (Nat.le_refl 1)
    rw [hsorted] at hreadable
    have hfive := hreadable (by decide) ⟨5, [1]⟩ List.mem_cons_self (by decide)
    unfold Readable at hfive
    split_ifs at hfive
    · revert hfive
      decide
    · revert hfive
      decide
  · have hsorted : o.sort (·.number) [⟨0, [1]⟩, ⟨0, [1]⟩] = [⟨0, [1]⟩, ⟨0, [1]⟩] :=
      List.perm_replicate.mp (o.perm (·.number) (List.replicate 2 ⟨0, [1]⟩))
    have hsame : SameLength ((o.sort (·.number) [⟨0, [1]⟩, ⟨0, [1]⟩]).take 1) := by
      rw [hsorted]
      decide
    by_contra hnone
    push Not at hnone
    rw [rebuildChecked_eq (by decide) hsame, hsorted] at hnone
    have hsingular := (restoreChecked_fails_iff _ rfl).mp hnone
    have hregular : (invertMatrix (fun i j => if i = j then 1 else 0) 1).isSome = true := by
      decide
    rw [hsingular] at hregular
    cases hregular
  · have hfits := (decodeChecked_returns_iff hnew _ _).mp hreturns
    have hnumber := hfits.numbers ⟨by decide, by decide, by decide⟩ ⟨7, [1]⟩ (by simp)
    revert hnumber
    decide

end OrionNetwork.Fec
