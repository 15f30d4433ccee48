import OrionNetwork.FecDivision

/-!
# Polynomials in arrays

A polynomial is an array of 256 cells, of which the first ones are in use. A pop reads the cell
behind the last one, so with a full array it panics. Otherwise the cells in use are the list of
coefficients, and those behind stay cleared.
-/
namespace OrionNetwork.PolyBuffers
open Galois Polynomial CoefficientLists

inductive Fault where
  | tooManyElements
  | unwrap
  | outOfRange
  | debugAssertion
  | unfinished
  deriving DecidableEq, Repr

structure Poly where
  data : List Gf
  len : ℕ
  size : data.length = 256
  fits : len ≤ 256

/-- Cleared cells behind the coefficients. -/
def filled (l : List Gf) : List Gf := l ++ List.replicate (256 - l.length) 0

theorem length_filled {l : List Gf} (h : l.length ≤ 256) : (filled l).length = 256 := by
  rw [filled, List.length_append, List.length_replicate]
  omega

namespace Poly

def fromIter (items : List Gf) : Except Fault Poly :=
  if h : items.length ≤ 256 then .ok ⟨filled items, items.length, length_filled h, h⟩
  else .error .tooManyElements

/-- A greater size would panic with the first use. -/
def zero (size : ℕ) (h : size ≤ 256) : Poly :=
  ⟨List.replicate 256 0, size, List.length_replicate, h⟩

theorem one_fits : 1 ≤ 256 := by decide

def asSlice (p : Poly) : List Gf := p.data.take p.len

theorem length_asSlice (p : Poly) : p.asSlice.length = p.len := by
  rw [asSlice, List.length_take, p.size]
  exact min_eq_left p.fits

theorem length_modified (p : Poly) {f : List Gf → List Gf} (hf : ∀ l, (f l).length = l.length) :
    (f p.asSlice ++ p.data.drop p.len).length = 256 := by
  have hfits := p.fits
  rw [List.length_append, hf, length_asSlice, List.length_drop, p.size]
  omega

/-- The cells in use are overwritten, as through the slice of them. -/
def modify (p : Poly) (f : List Gf → List Gf) (hf : ∀ l, (f l).length = l.length) : Poly :=
  ⟨f p.asSlice ++ p.data.drop p.len, p.len, p.length_modified hf, p.fits⟩

def deg (p : Poly) : Option ℕ := if p.len = 0 then none else some (p.len - 1)

/-- No degree is below every degree. -/
def degLe : Option ℕ → Option ℕ → Bool
  | none, _ => true
  | some _, none => false
  | some a, some b => a ≤ b

theorem length_scaled (factor : Gf) (l : List Gf) :
    (Fec.Poly.scale l factor).length = l.length := List.length_map _

def scale (p : Poly) (factor : Gf) : Poly :=
  p.modify (fun l => Fec.Poly.scale l factor) (length_scaled factor)

/-- Cells that the other one has not stay as they are. -/
def add (p b : Poly) : Poly :=
  p.modify (fun l => Fec.Poly.add l b.asSlice) fun l => Fec.Poly.length_add l _

def reverse (p : Poly) : Poly := p.modify List.reverse fun _ => List.length_reverse

theorem sanitized_fits (p : Poly) (n : ℕ) : max (p.len - n) 1 ≤ 256 := by
  have hfits := p.fits
  omega

def sanitize (p : Poly) : Poly :=
  let trailingZeros := (p.asSlice.reverse.takeWhile fun x => x = 0).length
  ⟨p.data, max (p.len - trailingZeros) 1, p.size, p.sanitized_fits _⟩

theorem length_pushed (p : Poly) (x : Gf) : (p.data.set p.len x).length = 256 := by
  rw [List.length_set, p.size]

def push (p : Poly) (x : Gf) : Option Poly :=
  if h : p.len < 256 then some ⟨p.data.set p.len x, p.len + 1, p.length_pushed x, h⟩ else none

theorem popped_fits (p : Poly) : p.len - 1 ≤ 256 := (Nat.sub_le _ _).trans p.fits

/-- The cell behind the last one is read. -/
def pop (p : Poly) : Except Fault (Option Gf × Poly) :=
  if p.len = 0 then .ok (none, p)
  else
    match p.data[p.len]? with
    | none => .error .outOfRange
    | some out => .ok (some out, ⟨p.data, p.len - 1, p.size, p.popped_fits⟩)

/-- One time through the loop. `none` is an early return. -/
def divRound (debug : Bool) (b q p : Poly) : Except Fault (Option (Poly × Poly)) :=
  let leadingP := p.asSlice.getLast?.getD 0
  match b.asSlice.getLast? with
  | none => .error .unwrap
  | some leadingB =>
    match Gf.div leadingP leadingB with
    | none => .ok none
    | some coef =>
      match q.push coef with
      | none => .ok none
      | some q =>
        let scaled := b.scale coef
        match p.deg, scaled.deg with
        | some d, some e =>
          match fromIter (List.replicate (d - e) 0 ++ scaled.asSlice) with
          | .error why => .error why
          | .ok padded =>
            match (p.add padded).pop with
            | .error why => .error why
            | .ok (out, p) =>
              if debug = true ∧ out ≠ some 0 then .error .debugAssertion else .ok (some (q, p))
        | _, _ => .ok none

def divLoop (debug : Bool) (b : Poly) : ℕ → Poly → Poly → Except Fault (Option (Poly × Poly))
  | 0, _, _ => .error .unfinished
  | n + 1, q, p =>
    if degLe b.deg p.deg then
      match divRound debug b q p with
      | .error why => .error why
      | .ok none => .ok none
      | .ok (some (q, p)) => divLoop debug b n q p
    else .ok (some (q, p))

/-- With at most as many rounds as the dividend has coefficients. -/
def div (debug : Bool) (a b : Poly) : Except Fault (Option (Poly × Poly)) :=
  let a := a.sanitize
  let b := b.sanitize
  if b.asSlice.isEmpty then .ok none
  else if a.asSlice.isEmpty then .ok (some (zero 1 one_fits, zero 1 one_fits))
  else
    match divLoop debug b (a.len + 1) (zero 1 one_fits) a with
    | .error why => .error why
    | .ok none => .ok none
    | .ok (some (q, p)) => .ok (some (q.reverse.sanitize, p.sanitize))

/-- The coefficients are in use, and the cells behind them are cleared. -/
structure Holds (p : Poly) (l : List Gf) : Prop where
  len : p.len = l.length
  data : p.data = filled l

section Refinement

variable {p q b : Poly} {l m : List Gf} {x y : Gf}

theorem Holds.length_le (h : Holds p l) : l.length ≤ 256 := h.len ▸ p.fits

theorem holds_fromIter (h : l.length ≤ 256) : ∃ p, fromIter l = .ok p ∧ Holds p l :=
  ⟨_, dif_pos h, rfl, rfl⟩

theorem holds_zero (n : ℕ) (h : n ≤ 256) : Holds (zero n h) (List.replicate n 0) := by
  refine ⟨List.length_replicate.symm, ?_⟩
  rw [filled, List.length_replicate, ← List.replicate_add, Nat.add_sub_cancel' h]
  rfl

theorem Holds.asSlice (h : Holds p l) : p.asSlice = l := by
  rw [Poly.asSlice, h.data, h.len, filled, List.take_left]

theorem Holds.modify (h : Holds p l) (f : List Gf → List Gf)
    (hf : ∀ l, (f l).length = l.length) : Holds (p.modify f hf) (f l) := by
  refine ⟨h.len.trans (hf l).symm, ?_⟩
  change f p.asSlice ++ p.data.drop p.len = filled (f l)
  rw [h.asSlice, h.data, h.len, filled, List.drop_left, filled, hf]

theorem Holds.scale (h : Holds p l) (factor : Gf) :
    Holds (p.scale factor) (Fec.Poly.scale l factor) := h.modify _ _

theorem Holds.add (h : Holds p l) (hb : Holds b m) : Holds (p.add b) (Fec.Poly.add l m) := by
  rw [← hb.asSlice]
  exact h.modify _ _

theorem Holds.reverse (h : Holds p l) : Holds p.reverse l.reverse := h.modify _ _

/-- Zeros at the end are as good as cleared cells. -/
theorem filled_zeros (l : List Gf) {n : ℕ} (h : l.length + n ≤ 256) :
    filled (l ++ List.replicate n 0) = filled l := by
  rw [filled, List.append_assoc, ← List.replicate_add, List.length_append, List.length_replicate,
    filled]
  congr 2
  omega

theorem length_trim (l : List Gf) :
    (trim l).length = l.length - (l.reverse.takeWhile fun x => x = 0).length := by
  have hsplit := congrArg List.length
    (List.takeWhile_append_dropWhile (p := fun x : Gf => x = 0) (l := l.reverse))
  rw [List.length_append, List.length_reverse] at hsplit
  rw [Fec.Poly.trim_eq, List.length_reverse]
  omega

theorem filled_trim (l : List Gf) (h : l.length ≤ 256) : filled (trim l) = filled l := by
  obtain ⟨n, hn⟩ := exists_zeros l
  have hlength := congrArg List.length hn
  rw [List.length_append, List.length_replicate] at hlength
  nth_rewrite 2 [hn]
  exact (filled_zeros _ (by omega)).symm

theorem Holds.sanitize (h : Holds p l) : Holds p.sanitize (Fec.Poly.sanitize l) := by
  have hlen : p.sanitize.len = max (trim l).length 1 := by
    rw [length_trim]
    change max (p.len - (p.asSlice.reverse.takeWhile fun x => x = 0).length) 1 = _
    rw [h.asSlice, h.len]
  have hdata : p.sanitize.data = filled (trim l) := by
    rw [filled_trim l h.length_le]
    exact h.data
  by_cases htrim : trim l = []
  · rw [Fec.Poly.sanitize_of_trim htrim]
    rw [htrim] at hlen hdata
    exact ⟨hlen, hdata.trans (filled_zeros [] (n := 1) (by decide)).symm⟩
  · rw [Fec.Poly.sanitize_of_ne htrim]
    have hpos := List.length_pos_of_ne_nil htrim
    exact ⟨hlen.trans (by omega), hdata⟩

theorem Holds.push (h : Holds p l) (hlt : l.length < 256) (x : Gf) :
    ∃ p', p.push x = some p' ∧ Holds p' (l ++ [x]) := by
  have hroom : p.len < 256 := h.len ▸ hlt
  refine ⟨_, dif_pos hroom, ?_, ?_⟩
  · change p.len + 1 = (l ++ [x]).length
    rw [List.length_append, h.len, List.length_singleton]
  · change p.data.set p.len x = filled (l ++ [x])
    have hcells : 256 - l.length = 256 - (l.length + 1) + 1 := by omega
    rw [h.data, h.len, filled, hcells, List.replicate_succ, List.set_append_right _ _ le_rfl,
      Nat.sub_self, List.set_cons_zero, filled, List.length_append, List.length_singleton,
      List.append_assoc, List.singleton_append]

/-- The array is not full, so the cell behind the last one is cleared. -/
theorem Holds.pop (h : Holds p (l ++ [0])) (hlt : l.length + 1 < 256) :
    ∃ p', p.pop = .ok (some 0, p') ∧ Holds p' l := by
  have hlen : p.len = l.length + 1 := by rw [h.len, List.length_append, List.length_singleton]
  have hread : p.data[p.len]? = some 0 := by
    rw [h.data, h.len, filled, List.getElem?_append_right le_rfl, Nat.sub_self,
      List.getElem?_replicate, if_pos]
    rw [List.length_append, List.length_singleton]
    omega
  refine ⟨⟨p.data, p.len - 1, p.size, p.popped_fits⟩, ?_, ?_, ?_⟩
  · unfold Poly.pop
    rw [if_neg (by omega), hread]
  · change p.len - 1 = l.length
    omega
  · change p.data = filled l
    rw [h.data]
    exact filled_zeros l (n := 1) hlt.le

/-- A round on arrays is one on lists. -/
theorem holds_divRound (debug : Bool) (hb : Holds b (m ++ [y])) (hy : y ≠ 0)
    (hp : Holds p (l ++ [x])) {k : List Gf} (hq : Holds q k) (hle : m.length ≤ l.length)
    (hl : l.length + 1 < 256) (hk : k.length < 256) :
    ∃ q' p', divRound debug b q p = .ok (some (q', p')) ∧ Holds q' (k ++ [x / y]) ∧
      Holds p' (Fec.Poly.reduced (m ++ [y]) (l ++ [x]) (x / y)) := by
  obtain ⟨q', hpush, hq'⟩ := hq.push hk (x / y)
  have hscaled := hb.scale (x / y)
  have hscaledLen : (b.scale (x / y)).len = m.length + 1 := by
    rw [hscaled.len, Fec.Poly.length_scale, List.length_append, List.length_singleton]
  have hlen : p.len = l.length + 1 := by rw [hp.len, List.length_append, List.length_singleton]
  have hpadded : List.replicate (l.length - m.length) 0 ++ (b.scale (x / y)).asSlice =
      Fec.Poly.subtrahend (m ++ [y]) (x / y) (l ++ [x]).length := by
    rw [Fec.Poly.subtrahend, hscaled.asSlice, Fec.Poly.length_scale, List.length_append,
      List.length_append, List.length_singleton, List.length_singleton, Nat.add_sub_add_right]
  have hpaddedLen :
      (Fec.Poly.subtrahend (m ++ [y]) (x / y) (l ++ [x]).length).length = l.length + 1 := by
    rw [Fec.Poly.length_subtrahend _ (by simpa using hle), List.length_append,
      List.length_singleton]
  obtain ⟨padded, hiter, hpad⟩ := holds_fromIter (hpaddedLen.trans_le hl.le)
  obtain ⟨r, hr, hrLength⟩ := Fec.Poly.add_subtrahend (x := x) hy hle
  have hreduced : Fec.Poly.reduced (m ++ [y]) (l ++ [x]) (x / y) = r := by
    rw [Fec.Poly.reduced, List.length_append, List.length_singleton, hr, List.dropLast_concat]
  have hadded : Holds (p.add padded) (r ++ [0]) := by
    have hadd := hp.add hpad
    rwa [List.length_append, List.length_singleton, hr] at hadd
  obtain ⟨p', hpop, hp'⟩ := hadded.pop (by omega)
  refine ⟨q', p', ?_, hq', hreduced ▸ hp'⟩
  unfold divRound
  simp only [hp.asSlice, hb.asSlice, List.getLast?_concat, Option.getD_some, Gf.div_eq x hy, hpush,
    deg, hlen, hscaledLen, Nat.succ_ne_zero, if_false, Nat.add_sub_cancel, hpadded, hiter, hpop,
    ne_eq, not_true, and_false]

/-- Lengths are compared with the degrees. -/
theorem degLe_deg (hb : 0 < b.len) : degLe b.deg p.deg = true ↔ b.len ≤ p.len := by
  have hdeg : b.deg = some (b.len - 1) := if_neg hb.ne'
  rw [hdeg]
  by_cases hp : p.len = 0
  · have hnone : p.deg = none := if_pos hp
    rw [hnone]
    simp [degLe]
    omega
  · have hsome : p.deg = some (p.len - 1) := if_neg hp
    rw [hsome]
    simp [degLe]
    omega

theorem holds_divLoop (debug : Bool) (hb : Holds b (m ++ [y])) (hy : y ≠ 0) {k : List Gf} {n : ℕ}
    (hp : Holds p l) (hq : Holds q k) (hn : l.length ≤ n) (hl : l.length < 256)
    (hfits : k.length + l.length ≤ 256) :
    ∃ q' p' k' r, divLoop debug b (n + 1) q p = .ok (some (q', p')) ∧
      Fec.Poly.divLoop (m ++ [y]) n k l = some (k', r) ∧ Holds q' k' ∧ Holds p' r := by
  have hlen : b.len = m.length + 1 := by rw [hb.len, List.length_append, List.length_singleton]
  have hdeg := degLe_deg (b := b) (p := p) (by omega)
  rw [hlen, hp.len] at hdeg
  induction n generalizing q p k l with
  | zero =>
    refine ⟨q, p, k, l, ?_, Fec.Poly.divLoop_done (by omega) _, hq, hp⟩
    rw [divLoop, if_neg (mt hdeg.mp (by omega))]
  | succ n ih =>
    by_cases hlt : l.length ≤ m.length
    · refine ⟨q, p, k, l, ?_, Fec.Poly.divLoop_done hlt _, hq, hp⟩
      rw [divLoop, if_neg (mt hdeg.mp (by omega))]
    obtain ⟨l, x, rfl⟩ : ∃ l' x, l = l' ++ [x] :=
      (List.eq_nil_or_concat' l).resolve_left (by rintro rfl; exact hlt (Nat.zero_le _))
    rw [List.length_append, List.length_singleton] at hn hl hfits hlt hdeg
    have hle : m.length ≤ l.length := by omega
    have hlength : (Fec.Poly.reduced (m ++ [y]) (l ++ [x]) (x / y)).length = l.length := by
      rw [Fec.Poly.length_reduced, List.length_append, List.length_singleton, Nat.add_sub_cancel]
    obtain ⟨q', p', hround, hq', hp'⟩ := holds_divRound debug hb hy hp hq hle hl (by omega)
    obtain ⟨q'', p'', k', r, hloop, hlist, hq'', hp''⟩ := ih hp' hq' (by omega) (by omega)
      (by rw [hlength, List.length_append, List.length_singleton]; omega)
      (by
        rw [← hlen, ← hp'.len]
        exact degLe_deg (by omega))
    refine ⟨q'', p'', k', r, ?_, ?_, hq'', hp''⟩
    · rw [divLoop, if_pos (hdeg.mpr (by omega)), hround]
      exact hloop
    · rw [Fec.Poly.divLoop_succ hy hle (by omega), hlist]

theorem isEmpty_sanitize (h : Holds p l) : p.sanitize.asSlice.isEmpty = false := by
  rw [h.sanitize.asSlice]
  exact List.isEmpty_eq_false_iff.mpr (Fec.Poly.sanitize_ne_nil l)

/-- Arrays with a free cell are divided as lists. -/
theorem holds_div (debug : Bool) (hp : Holds p l) (hb : Holds b m) (hl : l.length ≤ 255)
    (hm : value m ≠ 0) :
    ∃ q' p' k r, div debug p b = .ok (some (q', p')) ∧ Fec.Poly.div l m = some (k, r) ∧
      Holds q' k ∧ Holds p' r := by
  have htrim : trim m ≠ [] := mt value_eq_zero_iff.mpr hm
  obtain ⟨m', y, hy, hm'⟩ := (trim_cases m).resolve_left htrim
  have hdivisor : Fec.Poly.sanitize m = m' ++ [y] := by
    rw [Fec.Poly.sanitize_of_ne htrim, hm']
  have hlength := Fec.Poly.length_sanitize_le hl (by decide)
  obtain ⟨q', p', k, r, hloop, hlist, hq', hp'⟩ := holds_divLoop debug
    (hdivisor ▸ hb.sanitize) hy hp.sanitize (holds_zero 1 one_fits) le_rfl (by omega)
    (by rw [List.length_replicate]; omega)
  refine ⟨q'.reverse.sanitize, p'.sanitize, Fec.Poly.sanitize k.reverse, Fec.Poly.sanitize r,
    ?_, ?_, hq'.reverse.sanitize, hp'.sanitize⟩
  · unfold div
    simp only [isEmpty_sanitize hp, isEmpty_sanitize hb, Bool.false_eq_true, if_false,
      hp.sanitize.len, hloop]
  · have hne : (Fec.Poly.sanitize l).isEmpty = false :=
      List.isEmpty_eq_false_iff.mpr (Fec.Poly.sanitize_ne_nil l)
    have hne' : (m' ++ [y]).isEmpty = false := List.isEmpty_eq_false_iff.mpr (by simp)
    unfold Fec.Poly.div
    simp only [hdivisor, hne, hne', Bool.false_eq_true, if_false]
    rw [show [0] = List.replicate 1 (0 : Gf) from rfl, hlist]
    rfl

/-- The leading coefficient of zero has no quotient. -/
theorem div_zero (debug : Bool) (hp : Holds p l) (hb : Holds b m) (hm : value m = 0) :
    div debug p b = .ok none := by
  have hdivisor := hb.sanitize
  rw [Fec.Poly.sanitize_of_trim (value_eq_zero_iff.mp hm)] at hdivisor
  have hdividend := hp.sanitize
  have hpos := List.length_pos_of_ne_nil (Fec.Poly.sanitize_ne_nil l)
  have hle : degLe b.sanitize.deg p.sanitize.deg = true := by
    rw [degLe_deg (by rw [hdivisor.len]; exact Nat.one_pos), hdivisor.len, hdividend.len]
    exact hpos
  have hround : divRound debug b.sanitize (zero 1 one_fits) p.sanitize = .ok none := by
    unfold divRound
    rw [hdivisor.asSlice]
    rfl
  unfold div
  simp only [isEmpty_sanitize hp, isEmpty_sanitize hb, Bool.false_eq_true, if_false]
  rw [divLoop, if_pos hle, hround]

end Refinement

/-- The quotient and the remainder come back whether or not debug assertions are checked, and
no round panics. -/
theorem div_euclidean (debug : Bool) (a b : List Gf) (ha : a.length ≤ 255) (hb : b.length ≤ 255) :
    ∃ p d, fromIter a = .ok p ∧ fromIter b = .ok d ∧
      (value b ≠ 0 → ∃ q r, div debug p d = .ok (some (q, r)) ∧
        value a = value q.asSlice * value b + value r.asSlice ∧
        (value r.asSlice = 0 ∨ (value r.asSlice).degree < (value b).degree)) ∧
      (value b = 0 → div debug p d = .ok none) := by
  obtain ⟨p, hiter, hp⟩ := holds_fromIter (ha.trans (by decide))
  obtain ⟨d, hiter', hd⟩ := holds_fromIter (hb.trans (by decide))
  refine ⟨p, d, hiter, hiter', fun hne => ?_, div_zero debug hp hd⟩
  obtain ⟨q', r', q, r, hdiv, hlist, hq, hr⟩ := holds_div debug hp hd ha hne
  obtain ⟨q₀, r₀, hlist', hvalue, hdegree⟩ := Fec.Poly.div_spec ha hne
  obtain ⟨rfl, rfl⟩ : q = q₀ ∧ r = r₀ := by
    rw [hlist, Option.some_inj, Prod.mk.injEq] at hlist'
    exact hlist'
  refine ⟨q', r', hdiv, ?_, .inr ?_⟩
  · rw [hq.asSlice, hr.asSlice, hvalue]
  · rwa [hr.asSlice]

theorem value_linear_ne : value [(1 : Gf), 1] ≠ 0 := by
  rw [Ne, value_eq_zero_iff]
  decide

/-- `x² + 1` by `x + 1`. -/
theorem div_euclidean_square :
    ∃ p d q r, fromIter [1, 0, 1] = .ok p ∧ fromIter [1, 1] = .ok d ∧
      div true p d = .ok (some (q, r)) ∧
      value [(1 : Gf), 0, 1] = value q.asSlice * value [1, 1] + value r.asSlice ∧
      (value r.asSlice = 0 ∨ (value r.asSlice).degree < (value [(1 : Gf), 1]).degree) := by
  obtain ⟨p, d, hp, hd, hquotient, -⟩ :=
    div_euclidean true [(1 : Gf), 0, 1] [1, 1] (by decide) (by decide)
  obtain ⟨q, r, hdiv, hvalue, hdegree⟩ := hquotient value_linear_ne
  exact ⟨p, d, q, r, hp, hd, hdiv, hvalue, hdegree⟩

end Poly

end OrionNetwork.PolyBuffers
