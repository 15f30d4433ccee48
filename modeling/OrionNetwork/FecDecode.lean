import OrionNetwork.Collections
import OrionNetwork.FecSyndrome
import Mathlib.Data.List.TakeWhile

/-!
# Decoding with altered shares

Byte positions in which a check fails are corrected one after the other, from a
polynomial that is fitted to the shares. A share is marked as invalid by its
number, which is counted down from the largest one. The mark is set for every
share as soon as a byte is corrected, and not only for those that had another
value, so either all shares are reported or none.
-/
namespace OrionNetwork.Fec
open Galois Loops PivotExchange Collections

/-- The coefficients, lowest first, in an array of 256. -/
abbrev Poly := List Gf

namespace Poly

def isZero (p : Poly) : Bool := p.all fun x => x = 0

/-- Leading zeros go, but one coefficient stays. -/
def sanitize (p : Poly) : Poly :=
  match (p.reverse.dropWhile fun x => x = 0).reverse with
  | [] => [0]
  | kept => kept

def scale (p : Poly) (factor : Gf) : Poly := p.map fun x => factor * x

/-- What `b` has beyond the length of `a` is dropped. -/
def add : Poly → Poly → Poly
  | x :: a, y :: b => (x + y) :: add a b
  | a, _ => a

def push (p : Poly) (x : Gf) : Option Poly := if p.length < 256 then some (p ++ [x]) else none

/-- Every round takes the leading coefficient from `p`, so there are at most as
many as it has coefficients. The quotient comes out highest first. -/
def divLoop (b : Poly) : ℕ → Poly → Poly → Option (Poly × Poly)
  | 0, q, p => some (q, p)
  | n + 1, q, p =>
    if b.length ≤ p.length then
      match Gf.div (p.getLast?.getD 0) (b.getLast?.getD 0) with
      | none => none
      | some coef =>
        match q.push coef with
        | none => none
        | some q =>
          let scaled := b.scale coef
          let padded := List.replicate (p.length - scaled.length) 0 ++ scaled
          divLoop b n q (p.add padded).dropLast
    else some (q, p)

def div (a b : Poly) : Option (Poly × Poly) :=
  let a := a.sanitize
  let b := b.sanitize
  if b.isEmpty then none
  else if a.isEmpty then some ([0], [0])
  else (divLoop b a.length [0] a).map fun s => (sanitize s.1.reverse, sanitize s.2)

theorem length_add (a b : Poly) : (add a b).length = a.length := by
  induction a generalizing b with
  | nil => rfl
  | cons x a ih =>
    cases b with
    | nil => rfl
    | cons y b => rw [add, List.length_cons, ih, List.length_cons]

/-- More rounds than there are coefficients change nothing. -/
theorem divLoop_budget {b p : Poly} (hb : b ≠ []) {n : ℕ} (hn : p.length ≤ n) (q : Poly) :
    divLoop b (n + 1) q p = divLoop b n q p := by
  induction n generalizing q p with
  | zero =>
    have hpos := List.length_pos_of_ne_nil hb
    rw [divLoop, divLoop, if_neg (by omega)]
  | succ n ih =>
    rw [divLoop, divLoop]
    split_ifs with hle
    · split
      · rfl
      · next coef _ =>
        split
        · rfl
        · next q' _ =>
          apply ih
          rw [List.length_dropLast, length_add]
          omega
    · rfl

def eval (p : Poly) (x : Gf) : Gf :=
  p.zipIdx.foldl (fun acc e => acc + e.1 * Gf.exp x e.2) 0

end Poly

/-- The second matrix gets the row operations of the first. -/
def addMulBoth (s : Mat Gf × Mat Gf) (a b : ℕ) : Mat Gf × Mat Gf :=
  let fac := s.1 b a
  (matrixAddMulRows s.1 a b fac, matrixAddMulRows s.2 a b fac)

def invertWithRound (k i : ℕ) (s : Mat Gf × Mat Gf) : Mat Gf × Mat Gf :=
  match pivotBelow s.1 k i with
  | none => s
  | some pRow =>
    let pVal := s.1 pRow i
    let s := if pRow ≠ i then (matrixSwapRows s.1 i pRow, matrixSwapRows s.2 i pRow) else s
    match Gf.div 1 pVal with
    | none => s
    | some inv =>
      forTo (fun t s => addMulBoth s i (i + 1 + t)) (k - (i + 1))
        (Function.update s.1 i fun j => inv * s.1 i j, Function.update s.2 i fun j => inv * s.2 i j)

/-- A singular matrix is not noticed. -/
def invertMatrixWith (mx : Mat Gf) (k : ℕ) (out : Mat Gf) : Mat Gf × Mat Gf :=
  forDown (fun i s => forDown (fun j s => addMulBoth s i j) i s) k
    (forTo (invertWithRound k) k (mx, out))

inductive ResourcesError where
  | duplicateShares
  | notEnoughShares
  | notEqualLengths
  deriving DecidableEq, Repr

inductive SyndromeMatrixError where
  | failedToStandardize
  deriving DecidableEq, Repr

inductive BerklekampWelchError where
  | notEnoughShares
  | invertMatrix
  | divPoly
  | cannotRecover
  deriving DecidableEq, Repr

inductive CorrectError where
  | invalidShares (numbers : List ℕ)
  | syndromeMatrix (e : SyndromeMatrixError)
  | berklekampWelch (e : BerklekampWelchError)
  deriving DecidableEq, Repr

inductive DecodeError where
  | initResources (e : ResourcesError)
  | correct (e : CorrectError)
  | rebuild (e : RebuildError)
  deriving DecidableEq, Repr

/-- The sizes of the buffers; what they hold is cleared or overwritten before use. -/
structure Resources where
  shareLen : ℕ
  e : ℕ
  q : ℕ

/-- Two neighbours have the same number. -/
def hasDuplicate : List ℕ → Bool
  | a :: b :: numbers => a == b || hasDuplicate (b :: numbers)
  | _ => false

/-- The shares are sorted on the way. -/
def Resources.new (required : ℕ) (shares : List Share) :
    Except ResourcesError (Resources × List Share) :=
  let shares := sortByKey (·.number) shares
  if hasDuplicate (shares.map (·.number)) then .error .duplicateShares
  else if shares.length < required then .error .notEnoughShares
  else
    let shareLen := (shares.head?.map (·.data.length)).getD 0
    if shares.any fun s => s.data.length ≠ shareLen then .error .notEqualLengths
    else
      let e := (shares.length - required) / 2
      if e = 0 then .error .notEnoughShares
      else .ok (⟨shareLen, e, e + required⟩, shares)

def evalPoint (num : ℕ) : Gf := if num = 0 then 0 else Gf.exp (Gf.ofNat 2) (num - 1)

/-- The corrected byte for every number. The points of the shares are those of
their numbers, also when these are marks. -/
def berklekampWelch (shares : List Share) (j : ℕ) (allocs : Resources) :
    Except BerklekampWelchError (ℕ → Gf) :=
  let dim := allocs.q + allocs.e
  let x := fun i => evalPoint ((shares[i]?.map (·.number)).getD 0)
  let r := fun i => byte ((shares[i]?.map (·.data)).getD []) j
  let f := fun i => Gf.exp (x i) allocs.e * r i
  let s : Mat Gf := fun i c =>
    if c < allocs.q then Gf.exp (x i) c else Gf.exp (x i) (c - allocs.q) * r i
  let a := (invertMatrixWith s dim fun i c => if i = c then 1 else 0).2
  let u := fun i => (List.range dim).foldl (fun acc c => acc + a i c * f c) 0
  let qPoly : Poly := (List.range allocs.q).map u
  let ePoly : Poly := (List.range allocs.e).map (fun i => u (allocs.q + i)) ++ [1]
  match qPoly.div ePoly with
  | none => .error .divPoly
  | some (pPoly, rem) =>
    if !rem.isZero then .error .cannotRecover else .ok fun i => pPoly.eval (evalPoint i)

/-- All shares are marked, and get their byte. -/
def applyCorrection (total : ℕ) (correction : ℕ → Gf) (j : ℕ) (share : Share) : Share :=
  let number := if share.number < total then usizeMax - share.number else share.number
  { number := number, data := share.data.set j (correction (usizeMax - number)) }

def correctByte (f : Fec) (allocs : Resources) (shares : List Share) (j : ℕ) :
    Except CorrectError (List Share) :=
  match berklekampWelch shares j allocs with
  | .error e => .error (.berklekampWelch e)
  | .ok correction => .ok (shares.map (applyCorrection f.total correction j))

/-- The bytes that fail the check of row `i` are corrected. -/
def correctRow (f : Fec) (allocs : Resources) (synd : Mat Gf) (c : ℕ) (shares : List Share)
    (i : ℕ) : Except CorrectError (List Share) :=
  let buf := combine c allocs.shareLen (synd i) fun j => (shares[j]?.map (·.data)).getD []
  loop (f.correctByte allocs) ((List.range allocs.shareLen).filter fun j => byte buf j ≠ 0) shares

def correct (f : Fec) (shares : List Share) (reportInvalid : Bool) (allocs : Resources) :
    Except CorrectError (List Share) :=
  let (synd, r, c) := f.syndromeMatrix shares
  match loop (f.correctRow allocs synd c) (List.range r) shares with
  | .error e => .error e
  | .ok shares =>
    let shares := sortByKey (·.number) shares
    let valid := shares.takeWhile fun s => s.number < f.total
    let invalid := (shares.dropWhile fun s => s.number < f.total).map fun s =>
      { s with number := usizeMax - s.number }
    if reportInvalid && valid.length ≠ shares.length then
      .error (.invalidShares (invalid.map (·.number)))
    else .ok (valid ++ invalid)

/-- The numbers of the shares are below `total`; others are out of the bounds of
the buffers. -/
def decode (f : Fec) (shares : List Share) (reportInvalid : Bool) :
    Except DecodeError (List Share) :=
  match Resources.new f.required shares with
  | .error e => .error (.initResources e)
  | .ok (allocs, shares) =>
    match f.correct shares reportInvalid allocs with
    | .error e => .error (.correct e)
    | .ok shares =>
      match f.rebuild shares with
      | .error e => .error (.rebuild e)
      | .ok shares => .ok shares

section Blame

variable {f : Fec} {allocs : Resources} {shares : List Share}

/-- No share is marked, or all are. -/
def Marked (numbers : List ℕ) (shares : List Share) : Prop :=
  shares.map (·.number) = numbers ∨ shares.map (·.number) = numbers.map (usizeMax - ·)

/-- Shares without a mark are all valid. -/
theorem takeWhile_of_lt {k : ℕ} {l : List Share} (h : ∀ s ∈ l, s.number < k) :
    (l.takeWhile fun s => s.number < k) = l := by
  rw [List.takeWhile_eq_self_iff]
  intro s hs
  simpa using h s hs

theorem dropWhile_of_lt {k : ℕ} {l : List Share} (h : ∀ s ∈ l, s.number < k) :
    (l.dropWhile fun s => s.number < k) = [] := by
  rw [List.dropWhile_eq_nil_iff]
  intro s hs
  simpa using h s hs

/-- Marks are out of the range of numbers. -/
theorem dropWhile_of_ge {k : ℕ} {l : List Share} (h : ∀ s ∈ l, k ≤ s.number) :
    (l.dropWhile fun s => s.number < k) = l := by
  rw [List.dropWhile_eq_self_iff]
  intro hpos
  simpa using h _ (List.getElem_mem hpos)

theorem unmark {numbers : List ℕ} {k : ℕ} (hk : k ≤ 256) (hlt : ∀ n ∈ numbers, n < k) :
    (numbers.map (usizeMax - ·)).map (usizeMax - ·) = numbers ∧
      ∀ n ∈ numbers.map (usizeMax - ·), k ≤ n := by
  constructor
  · rw [List.map_map]
    conv_rhs => rw [← List.map_id numbers]
    apply List.map_congr_left
    intro n hn
    have hnumber := hlt n hn
    simp only [Function.comp_apply, id]
    unfold usizeMax
    omega
  · intro m hm
    obtain ⟨n, hn, rfl⟩ := List.mem_map.mp hm
    have hnumber := hlt n hn
    unfold usizeMax
    omega

theorem correctByte_marks {numbers : List ℕ} {out : List Share} {j : ℕ}
    (hlt : ∀ n ∈ numbers, n < f.total) (hle : f.total ≤ 256) (h : Marked numbers shares)
    (hout : f.correctByte allocs shares j = .ok out) :
    out.map (·.number) = numbers.map (usizeMax - ·) := by
  unfold correctByte at hout
  split at hout
  · cases hout
  · next correction _ =>
    cases hout
    rw [List.map_map]
    rcases h with h | h
    · rw [← h, List.map_map]
      apply List.map_congr_left
      intro s hs
      have hnumber := hlt s.number (h ▸ List.mem_map_of_mem hs)
      simp [applyCorrection, hnumber]
    · rw [← h]
      apply List.map_congr_left
      intro s hs
      have hbig := (unmark hle hlt).2 s.number (h ▸ List.mem_map_of_mem hs)
      simp [applyCorrection, hbig]

/-- A row whose check passes changes nothing, and any other marks all shares. -/
theorem correctRow_cases {numbers : List ℕ} {out : List Share} {synd : Mat Gf} {c i : ℕ}
    (hlt : ∀ n ∈ numbers, n < f.total) (hle : f.total ≤ 256) (h : Marked numbers shares)
    (hout : f.correctRow allocs synd c shares i = .ok out) :
    (out = shares ∧ (List.range allocs.shareLen).filter (fun j =>
        byte (combine c allocs.shareLen (synd i) fun j => (shares[j]?.map (·.data)).getD []) j ≠ 0) =
          []) ∨
      out.map (·.number) = numbers.map (usizeMax - ·) := by
  unfold correctRow at hout
  simp only at hout
  cases hbytes : (List.range allocs.shareLen).filter (fun j =>
      byte (combine c allocs.shareLen (synd i) fun j => (shares[j]?.map (·.data)).getD []) j ≠ 0) with
  | nil =>
    rw [hbytes] at hout
    cases hout
    exact .inl ⟨rfl, rfl⟩
  | cons j l =>
    rw [hbytes] at hout
    have hlast := loop_invariant (P := fun left s => Marked numbers s ∧
      (left = [] → s.map Share.number = numbers.map (usizeMax - ·))) hout
      ⟨h, fun hnil => by cases hnil⟩ (by
        rintro a left s t ⟨hs, -⟩ hround
        have hmarks := correctByte_marks hlt hle hs hround
        exact ⟨.inr hmarks, fun _ => hmarks⟩)
    exact .inr (hlast.2 rfl)

theorem correctRow_marked {numbers : List ℕ} {out : List Share} {synd : Mat Gf} {c i : ℕ}
    (hlt : ∀ n ∈ numbers, n < f.total) (hle : f.total ≤ 256) (h : Marked numbers shares)
    (hout : f.correctRow allocs synd c shares i = .ok out) : Marked numbers out := by
  rcases correctRow_cases hlt hle h hout with ⟨hsame, -⟩ | hmarks
  · rw [hsame]
    exact h
  · exact .inr hmarks

/-- The rounds mark no share or all. -/
theorem loop_marked {synd : Mat Gf} {c : ℕ} {rows : List ℕ} {out : List Share}
    (hle : f.total ≤ 256) (hlt : ∀ n ∈ shares.map (·.number), n < f.total)
    (h : loop (f.correctRow allocs synd c) rows shares = .ok out) :
    Marked (shares.map (·.number)) out :=
  loop_invariant (P := fun _ s => Marked (shares.map Share.number) s) h (.inl rfl)
    fun _ _ _ _ hs hround => correctRow_marked hlt hle hs hround

/-- Marked shares get their numbers back. -/
theorem unmark_perm {numbers : List ℕ} {k : ℕ} (hk : k ≤ 256) (hlt : ∀ n ∈ numbers, n < k)
    (h : (shares.map (·.number)).Perm (numbers.map (usizeMax - ·))) :
    (((shares.dropWhile fun s => s.number < k).map fun s =>
      { s with number := usizeMax - s.number }).map (·.number)).Perm numbers := by
  obtain ⟨hback, hbig⟩ := unmark hk hlt
  rw [dropWhile_of_ge fun s hs => hbig _ (h.mem_iff.mp (List.mem_map_of_mem hs)), List.map_map]
  calc shares.map ((·.number) ∘ fun s => { s with number := usizeMax - s.number })
      = (shares.map (·.number)).map (usizeMax - ·) := by
        rw [List.map_map]
        rfl
    _ |>.Perm ((numbers.map (usizeMax - ·)).map (usizeMax - ·)) := h.map _
    _ = numbers := hback

/-- Corrected shares have their numbers. -/
theorem correct_numbers {report : Bool} {out : List Share} (hle : f.total ≤ 256)
    (hlt : ∀ s ∈ shares, s.number < f.total) (h : f.correct shares report allocs = .ok out) :
    (out.map (·.number)).Perm (shares.map (·.number)) := by
  have hlt' : ∀ n ∈ shares.map (·.number), n < f.total := List.forall_mem_map.mpr hlt
  simp only [correct] at h
  split at h
  · cases h
  · next out' hloop =>
    have hsort := (sortByKey_perm (·.number) out').map (·.number)
    split_ifs at h
    cases h
    rw [List.map_append]
    rcases loop_marked hle hlt' hloop with hnone | hall
    · rw [hnone] at hsort
      have hvalid : ∀ s ∈ sortByKey (·.number) out', s.number < f.total :=
        fun s hs => hlt' _ (hsort.mem_iff.mp (List.mem_map_of_mem hs))
      rwa [takeWhile_of_lt hvalid, dropWhile_of_lt hvalid, List.map_nil, List.map_nil, List.append_nil]
    · rw [hall] at hsort
      have hmarked : ∀ s ∈ sortByKey (·.number) out', f.total ≤ s.number :=
        fun s hs => (unmark hle hlt').2 _ (hsort.mem_iff.mp (List.mem_map_of_mem hs))
      have hnone : (sortByKey (·.number) out').takeWhile (fun s => s.number < f.total) = [] := by
        have hsplit := List.takeWhile_append_dropWhile
          (p := fun s : Share => decide (s.number < f.total)) (l := sortByKey (·.number) out')
        rw [dropWhile_of_ge hmarked] at hsplit
        exact List.append_left_eq_self.mp hsplit
      rw [hnone, List.map_nil, List.nil_append]
      exact unmark_perm hle hlt' hsort

end Blame

section Decoding

variable {required total size parityLen : ℕ} {f : Fec} {data parity : List Gf}
  {shares : List Share}

/-- Blocks with distinct numbers, that may have been altered. -/
structure Received (f : Fec) (size : ℕ) (shares : List Share) : Prop where
  nodup : (shares.map (·.number)).Nodup
  lt : ∀ s ∈ shares, s.number < f.total
  length : ∀ s ∈ shares, s.data.length = size

theorem Shares.received (hnew : new required total = some f)
    (hlen : data.length = required * size) (hparity : f.encode data parityLen = .ok parity)
    (h : Shares f size data parity shares) : Received f size shares := by
  have htotal := total_of_new hnew
  refine ⟨h.nodup, h.lt, fun s hs => ?_⟩
  rw [h.content s hs]
  exact (blockAt_spec hnew hlen hparity (htotal ▸ h.lt s hs)).1

theorem sortByKey_eq_self {key : Share → ℕ} (h : (shares.map key).Pairwise (· ≤ ·)) :
    sortByKey key shares = shares := by
  rw [List.pairwise_map] at h
  exact h.insertionSort_eq

theorem hasDuplicate_eq_false {numbers : List ℕ} (h : numbers.Pairwise (· < ·)) :
    hasDuplicate numbers = false := by
  induction numbers with
  | nil => rfl
  | cons a l ih =>
    cases l with
    | nil => rfl
    | cons b l =>
      have hab : a < b := List.rel_of_pairwise_cons h List.mem_cons_self
      rw [hasDuplicate, ih h.of_cons, Bool.or_false, beq_eq_false_iff_ne]
      omega

/-- Two shares more than needed are enough to go on. -/
theorem resources_new (h : Received f size shares) (hcount : required + 2 ≤ shares.length) :
    Resources.new required shares =
      .ok (⟨size, (shares.length - required) / 2, (shares.length - required) / 2 + required⟩,
        sortByKey (·.number) shares) := by
  have hperm := sortByKey_perm (·.number) shares
  have hlength := hperm.length_eq
  have hsizes : ∀ s ∈ sortByKey (·.number) shares, s.data.length = size :=
    fun s hs => h.length s (hperm.mem_iff.mp hs)
  have hhead : ((sortByKey (·.number) shares).head?.map (·.data.length)).getD 0 = size := by
    cases hcons : sortByKey (·.number) shares with
    | nil =>
      rw [hcons, List.length_nil] at hlength
      omega
    | cons s l => exact hsizes s (hcons ▸ List.mem_cons_self)
  have hany : ((sortByKey (·.number) shares).any fun s => s.data.length ≠ size) = false := by
    rw [List.any_eq_false]
    intro s hs
    simp [hsizes s hs]
  unfold Resources.new
  simp only [hasDuplicate_eq_false (pairwise_sorted h.nodup), hhead, hany, hlength,
    Bool.false_eq_true, if_false]
  rw [if_neg (by omega), if_neg (by omega)]

/-- The bytes that fail the check of row `i`. -/
def failing (f : Fec) (size : ℕ) (shares : List Share) (i : ℕ) : List ℕ :=
  (List.range size).filter fun j =>
    byte (combine shares.length size ((f.syndromeMatrix shares).1 i) fun j =>
      (shares[j]?.map (·.data)).getD []) j ≠ 0

theorem failing_eq_nil_iff (h : Received f size shares) (i : ℕ) :
    f.failing size shares i = [] ↔ ∀ t < size, apply shares.length (f.syndromeMatrix shares).1
      (fun j => byte ((shares[j]?.map (·.data)).getD []) t) i = 0 := by
  have hblocks : ∀ j < shares.length, ((shares[j]?.map (·.data)).getD []).length = size := by
    intro j hj
    rw [List.getElem?_eq_getElem hj, Option.map_some, Option.getD_some]
    exact h.length _ (List.getElem_mem hj)
  obtain ⟨-, hbytes⟩ := @combine_spec shares.length size ((f.syndromeMatrix shares).1 i) _ hblocks
  unfold failing
  rw [List.filter_eq_nil_iff]
  constructor
  · intro hnone t ht
    refine (hbytes t ht).symm.trans ?_
    simpa using hnone t (List.mem_range.mpr ht)
  · intro hzero t ht
    have hcheck := (hbytes t (List.mem_range.mp ht)).trans (hzero t (List.mem_range.mp ht))
    simpa using hcheck

/-- Shares that pass every check are left as they are. -/
theorem correct_of_passed (h : Received f size shares)
    (hsorted : (shares.map (·.number)).Pairwise (· < ·)) (report : Bool) {allocs : Resources}
    (hsize : allocs.shareLen = size)
    (hpassed : ∀ i < shares.length - f.required, f.failing size shares i = []) :
    f.correct shares report allocs = .ok shares := by
  have hrows : ∀ i ∈ List.range (shares.length - f.required),
      f.correctRow allocs (f.syndromeMatrix shares).1 shares.length shares i = .ok shares := by
    intro i hi
    have hnone := hpassed i (List.mem_range.mp hi)
    unfold failing at hnone
    unfold correctRow
    rw [hsize]
    simp only [hnone]
    rfl
  have hkept := takeWhile_of_lt h.lt
  have hrest := dropWhile_of_lt h.lt
  have hloop : loop (f.correctRow allocs (f.syndromeMatrix shares).1 (f.syndromeMatrix shares).2.2)
      (List.range (f.syndromeMatrix shares).2.1) shares = .ok shares := by
    apply loop_of_fixed
    intro i hi
    apply hrows
    simpa [syndromeMatrix, parityMatrix] using hi
  unfold correct
  simp only [hloop, sortByKey_eq_self (hsorted.imp fun h => h.le), hkept, hrest]
  simp

end Decoding

end OrionNetwork.Fec
