import OrionNetwork.FecMatrix
import Mathlib.Data.List.GetD
import Mathlib.Data.List.Sort

/-!
# The erasure code

Data of `required` blocks is extended by parity blocks to `total` blocks. The
parity blocks are values of the polynomials that take the data blocks as their
values at the first points. A share is one block with its number.
-/
namespace OrionNetwork

open Galois PivotExchange

structure Fec where
  required : ℕ
  total : ℕ
  encMatrix : Mat Gf
  vandMatrix : Mat Gf

end OrionNetwork

namespace OrionNetwork.Fec
open Galois Loops PivotExchange EvaluationCode

/-- Identity rows for the data, then a row for each parity block. -/
def newEncMatrix (required : ℕ) : Mat Gf := fun row col =>
  if row < required then (if row = col then 1 else 0)
  else ∑ i ∈ Finset.range required,
    Gf.expAt (row * i % 255) * createInvertedVdm required i col

/-- Row by row the powers of a base, which is doubled for the next row. -/
def newVandMatrix : Mat Gf := fun row col =>
  if col = 0 then (if row = 0 then 1 else 0)
  else (fun a => (fun g => Gf.ofNat 2 * g)^[row] 1 * a)^[col - 1] 1

/-- Parameters out of range panic. -/
def new (required total : ℕ) : Option Fec :=
  if required > 0 ∧ total > required ∧ required ≤ 256 ∧ total ≤ 256 then
    some ⟨required, total, newEncMatrix required, newVandMatrix⟩
  else none

/-- `out` with the multiple of `input` added. -/
def mulSliceXor (c : Gf) (input out : List Gf) : List Gf :=
  List.zipWith (fun i o => o + c * i) input out

/-- The part with number `i` of a slice cut into parts of the same size. -/
def chunk (size : ℕ) (slice : List Gf) (i : ℕ) : List Gf := (slice.drop (i * size)).take size

inductive EncodeError where
  | invalidParityLength
  | invalidDataLength
  deriving DecidableEq, Repr

/-- Rows of a matrix applied to the first blocks, added up in a cleared buffer. -/
def combine (count size : ℕ) (row : ℕ → Gf) (block : ℕ → List Gf) : List Gf :=
  forTo (fun j out => mulSliceXor (row j) (block j) out) count (List.replicate size 0)

/-- The parity for data that is not empty. -/
def encode (f : Fec) (data : List Gf) (parityLen : ℕ) : Except EncodeError (List Gf) :=
  let blockSize := data.length / f.required
  if blockSize * f.required ≠ data.length then .error .invalidDataLength
  else if blockSize * (f.total - f.required) ≠ parityLen then .error .invalidParityLength
  else .ok ((List.range (f.total - f.required)).flatMap fun i =>
    combine f.required blockSize (f.encMatrix (i + f.required)) (chunk blockSize data))

structure Share where
  number : ℕ
  data : List Gf

inductive RebuildError where
  | notEnoughShares
  | notEqualLengths
  | invertMatrix
  deriving DecidableEq, Repr

def usizeMax : ℕ := 2 ^ 64 - 1

/-- Keys are distinct wherever this is used. -/
def sortByKey (key : Share → ℕ) (shares : List Share) : List Share :=
  shares.insertionSort fun a b => key a ≤ key b

/-- The numbers strictly between neighbours. -/
def windowGaps : List ℕ → List ℕ
  | a :: b :: numbers => List.range' (a + 1) (b - (a + 1)) ++ windowGaps (b :: numbers)
  | _ => []

/-- The data blocks without a share, in the order in which parity is given to
them: those between shares, those behind the last and those before the first. -/
def gaps (required : ℕ) (numbers : List ℕ) : List ℕ :=
  let firstId := numbers.head?.getD 0
  let lastId := (numbers.getLast?.map (· + 1)).getD 0
  windowGaps numbers ++ List.range' lastId (required - lastId) ++ List.range firstId

/-- A parity share is marked with the block it stands in for. -/
def mark : List ℕ → List Share → List Share
  | i :: is, p :: parity => { p with number := usizeMax - i } :: mark is parity
  | _, parity => parity

def decMatrix (f : Fec) (placed : List (ℕ × Share)) : Mat Gf :=
  placed.foldl (fun mx e => Function.update mx e.1 (f.encMatrix e.2.number))
    fun i j => if i = j then 1 else 0

/-- Block `i` is computed from what the shares hold now and written over it. -/
def restoreRound (f : Fec) (inv : Mat Gf) (blockSize i : ℕ) (shares : List Share) : List Share :=
  match shares[i]? with
  | none => shares
  | some s =>
    if s.number < f.required then shares
    else shares.set i { s with
      data := combine f.required blockSize (inv i) fun j => (shares[j]?.map (·.data)).getD [] }

def rebuild (f : Fec) (shares : List Share) : Except RebuildError (List Share) :=
  let shares := sortByKey (·.number) shares
  if shares.length < f.required then .error .notEnoughShares
  else
    let shares := shares.take f.required
    let blockSize := (shares.head?.map (·.data.length)).getD 0
    if shares.any fun s => s.data.length ≠ blockSize then .error .notEqualLengths
    else
      let data := shares.takeWhile fun s => s.number < f.required
      let parity := shares.dropWhile fun s => s.number < f.required
      let missing := gaps f.required (data.map (·.number))
      let marked := sortByKey
        (fun s => if s.number > f.required then usizeMax - s.number else s.number)
        (data ++ mark missing parity)
      match invertMatrix (f.decMatrix (missing.zip parity)) f.required with
      | none => .error .invertMatrix
      | some inv => .ok (forTo (f.restoreRound inv blockSize) f.required marked)

section Encoding

variable {required total : ℕ} {f : Fec}

theorem new_eq (h : new required total = some f) :
    (0 < required ∧ required < total ∧ total ≤ 256) ∧
      f = ⟨required, total, newEncMatrix required, newVandMatrix⟩ := by
  unfold new at h
  split_ifs at h with hrange
  exact ⟨by omega, (Option.some.inj h).symm⟩

theorem required_of_new (h : new required total = some f) : f.required = required := by
  rw [(new_eq h).2]

theorem total_of_new (h : new required total = some f) : f.total = total := by
  rw [(new_eq h).2]

theorem point_pow {r : ℕ} (hr : 0 < r) (i : ℕ) : Gf.expAt (r * i % 255) = point r ^ i := by
  have hlt : r * i % 255 < 510 := lt_trans (Nat.mod_lt _ (by decide)) (by decide)
  rw [Gf.expAt_eq hlt, Gf.power_mod, point, if_neg (by omega), Gf.power_pow]

/-- The encoder evaluates the polynomial through the data. -/
theorem systematic (h : new required total = some f) :
    Systematic f.encMatrix point required total := by
  obtain ⟨⟨hpos, hlt, hle⟩, rfl⟩ := new_eq h
  change Systematic (newEncMatrix required) point required total
  have hidentity : ∀ r < required, ∀ j < required,
      newEncMatrix required r j = if r = j then 1 else 0 := by
    intro r hr j _
    rw [newEncMatrix, if_pos hr]
  refine ⟨hlt.le, ?_, hidentity, fun d => ?_⟩
  · apply point_injOn.mono
    intro r hr
    simp only [Finset.coe_range, Set.mem_Iio] at hr ⊢
    omega
  -- the basis polynomials, weighted by the message
  let p := ∑ row ∈ Finset.range required,
    Polynomial.C (d row) * polynomial required fun i => createInvertedVdm required i row
  have heval : ∀ z, p.eval z = ∑ row ∈ Finset.range required,
      (∑ i ∈ Finset.range required, createInvertedVdm required i row * z ^ i) * d row := by
    intro z
    rw [Polynomial.eval_finsetSum]
    apply Finset.sum_congr rfl
    intro row _
    rw [Polynomial.eval_mul, Polynomial.eval_C, eval_polynomial, mul_comm]
  refine ⟨p, ?_, fun r hr => ?_⟩
  · rw [← Polynomial.mem_degreeLT]
    apply Submodule.sum_mem
    intro row _
    rw [← Polynomial.smul_eq_C_mul]
    apply Submodule.smul_mem
    rw [Polynomial.mem_degreeLT]
    exact degree_polynomial _ _
  · rw [heval]
    apply Finset.sum_congr rfl
    intro row hrow
    rw [Finset.mem_range] at hrow
    congr 1
    by_cases hdata : r < required
    · rw [createInvertedVdm_spec hpos (by omega) hrow hdata, hidentity r hdata row hrow]
    · rw [newEncMatrix, if_neg hdata]
      apply Finset.sum_congr rfl
      intro i _
      rw [point_pow (by omega), mul_comm]

end Encoding

/-- A byte of a block. -/
def byte (block : List Gf) (t : ℕ) : Gf := block.getD t 0

theorem length_mulSliceXor {c : Gf} {input out : List Gf} (h : input.length = out.length) :
    (mulSliceXor c input out).length = out.length := by
  simp [mulSliceXor, h]

theorem byte_mulSliceXor {c : Gf} {input out : List Gf} (h : input.length = out.length) {t : ℕ}
    (ht : t < out.length) : byte (mulSliceXor c input out) t = byte out t + c * byte input t := by
  unfold byte mulSliceXor
  rw [List.getD_eq_getElem _ _ (by simp [h, ht]), List.getD_eq_getElem _ _ ht,
    List.getD_eq_getElem _ _ (by omega), List.getElem_zipWith]

/-- A combination of blocks is one of their bytes, position by position. -/
theorem combine_spec {count size : ℕ} {row : ℕ → Gf} {block : ℕ → List Gf}
    (hblock : ∀ j < count, (block j).length = size) :
    (combine count size row block).length = size ∧ ∀ t < size,
      byte (combine count size row block) t =
        apply count (fun _ => row) (fun j => byte (block j) t) 0 := by
  refine forTo_invariant (fun n out => out.length = size ∧ ∀ t < size,
      byte out t = ∑ j ∈ Finset.range n, row j * byte (block j) t) ⟨List.length_replicate, ?_⟩ ?_
  · intro t ht
    rw [Finset.sum_range_zero]
    exact List.getD_replicate _ ht
  · rintro n hn out ⟨hlen, hbyte⟩
    have heq : (block n).length = out.length := by rw [hblock n hn, hlen]
    refine ⟨by rw [length_mulSliceXor heq, hlen], fun t ht => ?_⟩
    rw [byte_mulSliceXor heq (by omega), hbyte t ht, Finset.sum_range_succ]

theorem length_chunk {size count i : ℕ} {slice : List Gf} (hlen : slice.length = size * count)
    (hi : i < count) : (chunk size slice i).length = size := by
  have hle : i * size + size ≤ size * count := by
    have := Nat.mul_le_mul_left size (show i + 1 ≤ count from hi)
    nlinarith
  simp only [chunk, List.length_take, List.length_drop, hlen]
  omega

/-- The block with number `s` of a codeword. -/
def blockAt (f : Fec) (size : ℕ) (data parity : List Gf) (s : ℕ) : List Gf :=
  if s < f.required then chunk size data s else chunk size parity (s - f.required)

/-- Cutting what was put together from parts of one size. -/
theorem chunk_flatMap {size : ℕ} {part : ℕ → List Gf} (hpart : ∀ i, (part i).length = size)
    {count i : ℕ} (hi : i < count) :
    chunk size ((List.range count).flatMap part) i = part i := by
  have hlength : ∀ n, ((List.range n).flatMap part).length = n * size := by
    intro n
    induction n with
    | zero => simp
    | succ n ih =>
      rw [List.range_succ, List.flatMap_append, List.length_append, ih, List.flatMap_singleton,
        hpart]
      ring
  obtain ⟨n, rfl⟩ : ∃ n, count = i + 1 + n := ⟨count - (i + 1), by omega⟩
  unfold chunk
  rw [List.range_add, List.flatMap_append, List.range_succ, List.flatMap_append,
    List.flatMap_singleton, List.append_assoc,
    List.drop_left' (hlength i), List.take_left' (hpart i)]

/-- Every byte position of a codeword is the code applied to the data. -/
theorem blockAt_spec {required total size parityLen : ℕ} {f : Fec} {data parity : List Gf}
    (hnew : new required total = some f) (hlen : data.length = required * size)
    (hparity : f.encode data parityLen = .ok parity) {s : ℕ} (hs : s < total) :
    (f.blockAt size data parity s).length = size ∧ ∀ t < size,
      byte (f.blockAt size data parity s) t =
        apply required f.encMatrix (fun j => byte (chunk size data j) t) s := by
  obtain ⟨⟨hpos, hlt, hle⟩, -⟩ := new_eq hnew
  have hrequired := required_of_new hnew
  have htotal := total_of_new hnew
  have hchunks : ∀ j < required, (chunk size data j).length = size := by
    intro j hj
    exact length_chunk (by rw [hlen, Nat.mul_comm]) hj
  unfold blockAt
  rw [hrequired]
  by_cases hdata : s < required
  · rw [if_pos hdata]
    refine ⟨hchunks s hdata, fun t _ => ?_⟩
    rw [(systematic hnew).apply_message hdata]
  · rw [if_neg hdata]
    have hsize : data.length / f.required = size := by
      rw [hrequired, hlen, Nat.mul_div_cancel_left _ hpos]
    unfold encode at hparity
    simp only [hsize] at hparity
    split_ifs at hparity
    cases hparity
    rw [hrequired, htotal]
    have hpart : ∀ i, (combine required size (f.encMatrix (i + required)) (chunk size data)).length =
        size := fun i => (combine_spec hchunks).1
    rw [chunk_flatMap hpart (by omega)]
    refine ⟨hpart _, fun t ht => ?_⟩
    rw [(combine_spec hchunks).2 t ht, Nat.sub_add_cancel (by omega)]
    rfl

end OrionNetwork.Fec
