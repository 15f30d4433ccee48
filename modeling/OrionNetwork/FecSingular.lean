import OrionNetwork.FecRebuild
import OrionNetwork.SymbolTableau

/-!
# Inversion where shares are repeated

A row that repeats one above it has no pivot of its own. The search then takes the
next row behind it that is new. The rows are swapped but not their marks, so the row that has
just been used counts as unused, and every column up to there is served by the row of the
column before. Behind it the pivots are on the diagonal again. So a singular matrix is only
noticed when no row is left that is new, and that is when the last of the parity shares that
stand in for a block has a number that occurred before.
-/
namespace OrionNetwork.Fec
open Galois Loops PivotExchange EvaluationCode

variable {k n : ℕ} {enc : Mat Gf} {x : ℕ → Gf} {slot : ℕ → ℕ}

theorem matrixSwapRows_eq (mx : Mat Gf) (a b : ℕ) :
    matrixSwapRows mx a b = fun r => mx (Equiv.swap a b r) := by
  funext r
  rw [matrixSwapRows, Equiv.swap_apply_def]
  split_ifs <;> rfl

/-- The smaller of the two comes first. -/
theorem swapped_eq (mx : Mat Gf) (p i : ℕ) :
    (if p ≠ i then matrixSwapRows mx (min p i) (max p i) else mx) =
      fun r => mx (Equiv.swap p i r) := by
  by_cases hpi : p = i
  · rw [if_neg (not_not.mpr hpi), hpi, Equiv.swap_self]
    rfl
  · rw [if_pos hpi, matrixSwapRows_eq]
    rcases le_total p i with hle | hle
    · rw [min_eq_left hle, max_eq_right hle]
    · rw [min_eq_right hle, max_eq_left hle, Equiv.swap_comm]

section Round

variable {s : Inversion} {out inp : ℕ → ℕ} {i p : ℕ}

/-- Stopping early changes nothing, as a pivot row without other entries has a pivot of one. -/
theorem eliminate_agrees {mx : Mat Gf} {row : ℕ → Gf} (hc : Systematic enc x k n)
    (h : Tableau enc k n mx out inp) (hi : i < k) (hpivot : mx i i ≠ 0)
    (hrow : ∀ j, row j = exchange mx i i j) :
    AgreeOn k (exchange mx i) (eliminate k i mx row) := by
  intro r hr j hj
  rw [eliminate_eq hpivot hrow r hj]
  split_ifs with hstop
  · obtain ⟨hri, hji, hclear⟩ := hstop
    have hown : out i = inp i := by
      rcases (h.entry_ne_zero_iff hc hi hi).mp hpivot with hown | hnew
      · exact hown
      · exact absurd (hclear r hr hri) (h.entry_ne_zero hc hi hr hnew)
    have hone : mx i i = 1 := by rw [h.entry_of_eq hc hi hi hi hown, if_pos rfl]
    rw [hji, exchange, if_neg hri, if_pos rfl, hone, inv_one, mul_one]
  · rfl

/-- The first unused row whose symbol fits is swapped to the diagonal and exchanged. -/
theorem invertRound_eq_some (hc : Systematic enc x k n) (h : Tableau enc k n s.mx out inp)
    (hi : i < k) (hp : p < k) (hunused : s.unusedRows p = true) (hfits : Fits k inp i (out p))
    (hfirst : ∀ j < p, s.unusedRows j = true → ¬ Fits k inp i (out j)) :
    ∃ t, invertRound k i s = some t ∧ t.unusedRows = Function.update s.unusedRows p false ∧
      Tableau enc k n t.mx (Function.update (out ∘ Equiv.swap p i) i (inp i))
        (Function.update inp i (out p)) := by
  have hfind : ((List.range k).find? fun j => s.mx j i ≠ 0 && s.unusedRows j) = some p := by
    rw [List.find?_range_eq_some]
    refine ⟨?_, List.mem_range.mpr hp, fun j hj => ?_⟩
    · simp [(h.entry_ne_zero_iff hc hp hi).mpr hfits, hunused]
    · have hjk : j < k := by omega
      have hentry := h.entry_ne_zero_iff hc hjk hi
      cases hmark : s.unusedRows j with
      | false => simp
      | true =>
        have hzero : s.mx j i = 0 := not_not.mp (mt hentry.mp (hfirst j hj hmark))
        simp [hzero]
  have hswapped : Tableau enc k n (fun r => s.mx (Equiv.swap p i r)) (out ∘ Equiv.swap p i) inp := by
    apply h.reorder
    intro r hr
    rw [Equiv.swap_apply_def]
    split_ifs
    · exact hi
    · exact hp
    · exact hr
  have hpivot : s.mx (Equiv.swap p i i) i ≠ 0 := by
    rw [Equiv.swap_apply_right]
    exact (h.entry_ne_zero_iff hc hp hi).mpr hfits
  obtain ⟨row, hsome, hrow⟩ := @pivotRow_eq (fun r => s.mx (Equiv.swap p i r)) i hpivot
  have hnext := (hswapped.exchange hc hi hpivot).congr
    (eliminate_agrees hc hswapped hi hpivot hrow)
  have hout : (out ∘ Equiv.swap p i) i = out p := congrArg out (Equiv.swap_apply_right p i)
  rw [hout] at hnext
  refine ⟨⟨eliminate k i (fun r => s.mx (Equiv.swap p i r)) row,
    Function.update s.unusedRows p false,
    if p ≠ i then s.swaps ++ [(min p i, max p i)] else s.swaps⟩, ?_, rfl, hnext⟩
  unfold invertRound
  rw [hfind]
  simp only [swapped_eq, hsome]

theorem invertRound_eq_none (hc : Systematic enc x k n) (h : Tableau enc k n s.mx out inp)
    (hi : i < k) (hnone : ∀ j < k, s.unusedRows j = true → ¬ Fits k inp i (out j)) :
    invertRound k i s = none := by
  have hfind : ((List.range k).find? fun j => s.mx j i ≠ 0 && s.unusedRows j) = none := by
    rw [List.find?_eq_none]
    intro j hj
    rw [List.mem_range] at hj
    have hentry := h.entry_ne_zero_iff hc hj hi
    cases hmark : s.unusedRows j with
    | false => simp
    | true =>
      have hzero : s.mx j i = 0 := not_not.mp (mt hentry.mp (hnone j hj hmark))
      simp [hzero]
  unfold invertRound
  rw [hfind]

end Round

section Course

/-- Row `j` has a symbol of parity that occurs in no row above `c`. -/
def Fresh (k : ℕ) (slot : ℕ → ℕ) (c j : ℕ) : Prop := k ≤ slot j ∧ ∀ i < c, slot i ≠ slot j

/-- All pivots so far were at the diagonal or above, and the rows from `c` on are as they
were. Of the symbols of parity the columns have those of the rows above. -/
structure Straight (enc : Mat Gf) (k n : ℕ) (slot : ℕ → ℕ) (c : ℕ) (s : Inversion)
    (out inp : ℕ → ℕ) : Prop where
  tableau : Tableau enc k n s.mx out inp
  unused : ∀ j < k, s.unusedRows j = decide (c ≤ j)
  out_eq : ∀ j, c ≤ j → j < k → out j = slot j
  inp_eq : ∀ j, c ≤ j → j < k → inp j = j
  parity : ∀ q, k ≤ q → ((∃ j < k, inp j = q) ↔ ∃ i < c, slot i = q)

/-- Row `c` repeats a symbol, and `p` is the next row with a new one. -/
structure Detour (k : ℕ) (slot : ℕ → ℕ) (c p : ℕ) : Prop where
  lt : c < p
  lt_size : p < k
  own : k ≤ slot c
  repeated : ∃ i < c, slot i = slot c
  fresh : Fresh k slot c p
  first : ∀ j, c < j → j < p → ¬ Fresh k slot c j

/-- Row `e` has been a pivot row and is not marked, and its symbol is not among the columns. -/
structure Lagging (enc : Mat Gf) (k n : ℕ) (slot : ℕ → ℕ) (c p e : ℕ) (s : Inversion)
    (out inp : ℕ → ℕ) : Prop where
  tableau : Tableau enc k n s.mx out inp
  unused : ∀ j < k, s.unusedRows j = decide (e ≤ j ∧ j ≠ p)
  out_self : out e = e
  out_eq : ∀ j, p < j → j < k → out j = slot j
  inp_ne : ∀ l < k, inp l ≠ e
  inp_eq : ∀ j, e < j → j < k → inp j = j
  parity : ∀ q, k ≤ q → ((∃ j < k, inp j = q) ↔ (∃ i < c, slot i = q) ∨ slot p = q)

/-- The symbols of parity after one more column has got another symbol. -/
theorem exists_update_iff {inp : ℕ → ℕ} {i : ℕ} (hi : i < k) (hmessage : inp i < k) (a : ℕ) {q : ℕ}
    (hq : k ≤ q) : (∃ j < k, Function.update inp i a j = q) ↔ (∃ j < k, inp j = q) ∨ a = q := by
  constructor
  · rintro ⟨j, hj, hjq⟩
    by_cases hji : j = i
    · rw [hji, Function.update_self] at hjq
      exact .inr hjq
    · rw [Function.update_of_ne hji] at hjq
      exact .inl ⟨j, hj, hjq⟩
  · rintro (⟨j, hj, hjq⟩ | haq)
    · have hji : j ≠ i := by
        rintro rfl
        omega
      exact ⟨j, hj, by rw [Function.update_of_ne hji, hjq]⟩
    · exact ⟨i, hi, by rw [Function.update_self, haq]⟩

/-- The symbol that a column gives up is in no column any more. -/
theorem update_ne {inp : ℕ → ℕ} (hinj : Set.InjOn inp (Finset.range k)) {i a : ℕ} (hi : i < k)
    (ha : a ≠ inp i) : ∀ l < k, Function.update inp i a l ≠ inp i := by
  intro l hl
  by_cases hli : l = i
  · rw [hli, Function.update_self]
    exact ha
  · rw [Function.update_of_ne hli]
    intro heq
    exact hli (hinj (by simpa using hl) (by simpa using hi) heq)

/-- Rows other than the two that are swapped. -/
theorem swapped_of_ne {out : ℕ → ℕ} {p i a j : ℕ} (hjp : j ≠ p) (hji : j ≠ i) :
    Function.update (out ∘ Equiv.swap p i) i a j = out j := by
  rw [Function.update_of_ne hji]
  exact congrArg out (Equiv.swap_apply_of_ne_of_ne hjp hji)

variable {c p e : ℕ} {s : Inversion} {out inp : ℕ → ℕ}

namespace Straight

/-- A row from the diagonal on fits if it is that of the column, or new. -/
theorem fits_iff (h : Straight enc k n slot c s out inp) (hown : ∀ r < k, slot r = r ∨ k ≤ slot r)
    {j : ℕ} (hcj : c ≤ j) (hj : j < k) :
    Fits k inp c (out j) ↔ (j = c ∧ slot c = c) ∨ Fresh k slot c j := by
  have hinp : inp c = c := h.inp_eq c le_rfl (by omega)
  unfold Fits Fresh
  rw [h.out_eq j hcj hj, hinp]
  rcases hown j hj with hmessage | hparity
  · rw [hmessage]
    have hfresh : ¬ (k ≤ j ∧ ∀ i < c, slot i ≠ j) := fun hfresh => by omega
    have hold : ¬ ∀ l < k, j ≠ inp l := fun hnew => hnew j hj (h.inp_eq j hcj hj).symm
    rw [or_iff_left hold, or_iff_left hfresh]
    constructor
    · rintro rfl
      exact ⟨rfl, hmessage⟩
    · exact And.left
  · have hne : slot j ≠ c := by omega
    have hdiag : ¬ (j = c ∧ slot c = c) := by
      rintro ⟨rfl, hself⟩
      exact hne hself
    rw [or_iff_right hne, or_iff_right hdiag, and_iff_right hparity]
    have hcolumns := not_congr (h.parity (slot j) hparity)
    constructor
    · intro hnew i hi heq
      exact hcolumns.mp (fun ⟨l, hl, hlj⟩ => hnew l hl hlj.symm) ⟨i, hi, heq⟩
    · intro hfresh l hl heq
      exact hcolumns.mpr (fun ⟨i, hi, hij⟩ => hfresh i hi hij) ⟨l, hl, heq.symm⟩

theorem not_unused (h : Straight enc k n slot c s out inp) {j : ℕ} (hj : j < k)
    (hunused : s.unusedRows j = true) : c ≤ j := by
  rw [h.unused j hj] at hunused
  exact of_decide_eq_true hunused

/-- The pivot is on the diagonal. -/
theorem next (hc : Systematic enc x k n) (h : Straight enc k n slot c s out inp)
    (hown : ∀ r < k, slot r = r ∨ k ≤ slot r) (hck : c < k)
    (hfits : slot c = c ∨ Fresh k slot c c) :
    ∃ t out' inp', invertRound k c s = some t ∧ Straight enc k n slot (c + 1) t out' inp' := by
  have hinp : inp c = c := h.inp_eq c le_rfl hck
  have hout : out c = slot c := h.out_eq c le_rfl hck
  have hdiag : Fits k inp c (out c) := by
    rw [h.fits_iff hown le_rfl hck]
    exact hfits.imp_left fun hself => ⟨rfl, hself⟩
  obtain ⟨t, ht, hunused, htableau⟩ := invertRound_eq_some hc h.tableau hck hck
    (by rw [h.unused c hck, decide_eq_true le_rfl]) hdiag fun j hj hmark => by
      have hcj := h.not_unused (by omega) hmark
      omega
  refine ⟨t, _, _, ht, htableau, fun j hj => ?_, fun j hcj hj => ?_, fun j hcj hj => ?_,
    fun q hq => ?_⟩
  · rw [hunused]
    by_cases hjc : j = c
    · rw [hjc, Function.update_self, decide_eq_false (by omega)]
    · rw [Function.update_of_ne hjc, h.unused j hj, decide_eq_decide]
      omega
  · rw [swapped_of_ne (by omega) (by omega), h.out_eq j (by omega) hj]
  · rw [Function.update_of_ne (by omega), h.inp_eq j (by omega) hj]
  · rw [exists_update_iff hck (by omega) _ hq, h.parity q hq, hout]
    constructor
    · rintro (⟨i, hi, heq⟩ | heq)
      · exact ⟨i, by omega, heq⟩
      · exact ⟨c, Nat.lt_succ_self c, heq⟩
    · rintro ⟨i, hi, heq⟩
      by_cases hic : i = c
      · exact .inr (hic ▸ heq)
      · exact .inl ⟨i, by omega, heq⟩

/-- The row repeats a symbol, and the next new row is taken. -/
theorem detour (hc : Systematic enc x k n) (h : Straight enc k n slot c s out inp)
    (hown : ∀ r < k, slot r = r ∨ k ≤ slot r) (hd : Detour k slot c p) :
    ∃ t out' inp', invertRound k c s = some t ∧ Lagging enc k n slot c p c t out' inp' := by
  have hcp := hd.lt
  have hpk := hd.lt_size
  have hck : c < k := by omega
  have hinp : inp c = c := h.inp_eq c le_rfl hck
  have hout : out p = slot p := h.out_eq p hcp.le hpk
  have hparity := hd.fresh.1
  have hfits : Fits k inp c (out p) := (h.fits_iff hown hcp.le hpk).mpr (.inr hd.fresh)
  obtain ⟨t, ht, hunused, htableau⟩ := invertRound_eq_some hc h.tableau hck hpk
    (by rw [h.unused p hpk, decide_eq_true hcp.le]) hfits fun j hj hmark hfit => by
      have hcj := h.not_unused (by omega) hmark
      have hdiag := hd.own
      rcases (h.fits_iff hown hcj (by omega)).mp hfit with ⟨-, hself⟩ | hfresh
      · omega
      · by_cases hjc : j = c
        · obtain ⟨i, hi, heq⟩ := hd.repeated
          rw [hjc] at hfresh
          exact hfresh.2 i hi heq
        · exact hd.first j (by omega) hj hfresh
  refine ⟨t, _, _, ht, htableau, fun j hj => ?_, ?_, fun j hpj hj => ?_, ?_, fun j hcj hj => ?_,
    fun q hq => ?_⟩
  · rw [hunused]
    by_cases hjp : j = p
    · rw [hjp, Function.update_self, decide_eq_false (by omega)]
    · rw [Function.update_of_ne hjp, h.unused j hj, decide_eq_decide]
      omega
  · rw [Function.update_self, hinp]
  · rw [swapped_of_ne (by omega) (by omega), h.out_eq j (by omega) hj]
  · have hgiven := update_ne h.tableau.injOn hck (show out p ≠ inp c by omega)
    rwa [hinp] at hgiven
  · rw [Function.update_of_ne (by omega), h.inp_eq j (by omega) hj]
  · rw [exists_update_iff hck (by omega) _ hq, h.parity q hq, hout]

end Straight

namespace Lagging

/-- The row of the column before fits, as no column has its symbol. -/
theorem round (hc : Systematic enc x k n) (h : Lagging enc k n slot c p e s out inp)
    (hep : e < p) (hpk : p < k) :
    ∃ t, invertRound k (e + 1) s = some t ∧
      t.unusedRows = Function.update s.unusedRows e false ∧
      Tableau enc k n t.mx (Function.update (out ∘ Equiv.swap e (e + 1)) (e + 1) (e + 1))
        (Function.update inp (e + 1) e) := by
  have hinp : inp (e + 1) = e + 1 := h.inp_eq (e + 1) (Nat.lt_succ_self e) (by omega)
  have hfits : Fits k inp (e + 1) (out e) := by
    rw [h.out_self]
    exact .inr fun l hl heq => h.inp_ne l hl heq.symm
  have hunused : s.unusedRows e = true := by
    rw [h.unused e (by omega)]
    exact decide_eq_true ⟨le_rfl, by omega⟩
  obtain ⟨t, ht, hmarks, htableau⟩ := invertRound_eq_some hc h.tableau (by omega) (by omega) hunused
    hfits fun j hj hmark => by
      rw [h.unused j (by omega)] at hmark
      have hej := (of_decide_eq_true hmark).1
      omega
  rw [h.out_self, hinp] at htableau
  exact ⟨t, ht, hmarks, htableau⟩

/-- One row more is marked. -/
theorem unused_update (h : Lagging enc k n slot c p e s out inp) {j : ℕ} (hj : j < k) :
    Function.update s.unusedRows e false j = decide (e + 1 ≤ j ∧ j ≠ p) := by
  by_cases hje : j = e
  · rw [hje, Function.update_self, decide_eq_false (by omega)]
  · rw [Function.update_of_ne hje, h.unused j hj, decide_eq_decide]
    omega

theorem parity_update (h : Lagging enc k n slot c p e s out inp) (hek : e + 1 < k) {q : ℕ}
    (hq : k ≤ q) : (∃ j < k, Function.update inp (e + 1) e j = q) ↔
      (∃ i < c, slot i = q) ∨ slot p = q := by
  have hinp : inp (e + 1) = e + 1 := h.inp_eq (e + 1) (Nat.lt_succ_self e) hek
  have hne : e ≠ q := by omega
  rw [exists_update_iff hek (by omega) _ hq, or_iff_left hne, h.parity q hq]

theorem next (hc : Systematic enc x k n) (h : Lagging enc k n slot c p e s out inp)
    (hep : e + 1 < p) (hpk : p < k) :
    ∃ t out' inp', invertRound k (e + 1) s = some t ∧
      Lagging enc k n slot c p (e + 1) t out' inp' := by
  have hinp : inp (e + 1) = e + 1 := h.inp_eq (e + 1) (Nat.lt_succ_self e) (by omega)
  obtain ⟨t, ht, hunused, htableau⟩ := h.round hc (by omega) hpk
  refine ⟨t, _, _, ht, htableau, fun j hj => ?_, ?_, fun j hpj hj => ?_, ?_, fun j hcj hj => ?_,
    fun q hq => h.parity_update (by omega) hq⟩
  · rw [hunused, h.unused_update hj]
  · rw [Function.update_self]
  · rw [swapped_of_ne (by omega) (by omega), h.out_eq j hpj hj]
  · have hgiven := update_ne h.tableau.injOn (show e + 1 < k by omega) (show e ≠ inp (e + 1) by omega)
    rwa [hinp] at hgiven
  · rw [Function.update_of_ne (by omega), h.inp_eq j (by omega) hj]

/-- The last column of the detour. -/
theorem last (hc : Systematic enc x k n) (h : Lagging enc k n slot c p e s out inp)
    (hd : Detour k slot c p) (hep : e + 1 = p) :
    ∃ t out' inp', invertRound k (e + 1) s = some t ∧
      Straight enc k n slot (p + 1) t out' inp' := by
  have hpk := hd.lt_size
  obtain ⟨t, ht, hunused, htableau⟩ := h.round hc (by omega) hpk
  refine ⟨t, _, _, ht, htableau, fun j hj => ?_, fun j hpj hj => ?_, fun j hpj hj => ?_,
    fun q hq => ?_⟩
  · rw [hunused, h.unused_update hj, decide_eq_decide]
    omega
  · rw [swapped_of_ne (by omega) (by omega), h.out_eq j (by omega) hj]
  · rw [Function.update_of_ne (by omega), h.inp_eq j (by omega) hj]
  · rw [h.parity_update (by omega) hq]
    constructor
    · rintro (⟨i, hi, heq⟩ | heq)
      · have hcp := hd.lt
        exact ⟨i, by omega, heq⟩
      · exact ⟨p, Nat.lt_succ_self p, heq⟩
    · rintro ⟨i, hi, heq⟩
      -- the rows that the detour has passed repeat symbols
      rcases lt_trichotomy i c with hic | rfl | hci
      · exact .inl ⟨i, hic, heq⟩
      · obtain ⟨i', hi', heq'⟩ := hd.repeated
        exact .inl ⟨i', hi', heq'.trans heq⟩
      · by_cases hip : i = p
        · exact .inr (hip ▸ heq)
        · have hold := hd.first i hci (by omega)
          unfold Fresh at hold
          push Not at hold
          obtain ⟨i', hi', heq'⟩ := hold (by omega)
          exact .inl ⟨i', hi', heq'.trans heq⟩

end Lagging

/-- Row `c` repeats a symbol, and no row behind it is new. -/
structure Stuck (k : ℕ) (slot : ℕ → ℕ) (c : ℕ) : Prop where
  own : k ≤ slot c
  repeated : ∃ i < c, slot i = slot c
  none_fresh : ∀ j, c < j → j < k → ¬ Fresh k slot c j

/-- Where the inversion is before column `c`. -/
def Reached (enc : Mat Gf) (k n : ℕ) (slot : ℕ → ℕ) (c : ℕ) (s : Inversion) : Prop :=
  (∃ out inp, Straight enc k n slot c s out inp) ∨
    ∃ first p e out inp, c = e + 1 ∧ first ≤ e ∧ e < p ∧ Detour k slot first p ∧
      Lagging enc k n slot first p e s out inp

theorem Straight.step (hc : Systematic enc x k n) (h : Straight enc k n slot c s out inp)
    (hown : ∀ r < k, slot r = r ∨ k ≤ slot r) (hck : c < k) :
    (∃ t, invertRound k c s = some t ∧ Reached enc k n slot (c + 1) t) ∨
      (invertRound k c s = none ∧ Stuck k slot c) := by
  by_cases hdiag : slot c = c ∨ Fresh k slot c c
  · obtain ⟨t, out', inp', ht, hnext⟩ := h.next hc hown hck hdiag
    exact .inl ⟨t, ht, .inl ⟨out', inp', hnext⟩⟩
  obtain ⟨hself, hold⟩ := not_or.mp hdiag
  have hparity : k ≤ slot c := (hown c hck).resolve_left hself
  have hrepeated : ∃ i < c, slot i = slot c := by
    unfold Fresh at hold
    push Not at hold
    exact hold hparity
  by_cases hlater : ∃ p, c < p ∧ p < k ∧ Fresh k slot c p
  · classical
    obtain ⟨hcp, hpk, hfresh⟩ := Nat.find_spec hlater
    have hd : Detour k slot c (Nat.find hlater) :=
      ⟨hcp, hpk, hparity, hrepeated, hfresh, fun j hcj hj hnew =>
        Nat.find_min hlater hj ⟨hcj, by omega, hnew⟩⟩
    obtain ⟨t, out', inp', ht, hlagging⟩ := h.detour hc hown hd
    exact .inl ⟨t, ht, .inr ⟨c, _, c, out', inp', rfl, le_rfl, hcp, hd, hlagging⟩⟩
  · have hnone : ∀ j, c < j → j < k → ¬ Fresh k slot c j :=
      fun j hcj hj hnew => hlater ⟨j, hcj, hj, hnew⟩
    refine .inr ⟨invertRound_eq_none hc h.tableau hck fun j hj hmark hfits => ?_,
      hparity, hrepeated, hnone⟩
    have hcj := h.not_unused hj hmark
    rcases (h.fits_iff hown hcj hj).mp hfits with ⟨-, hself'⟩ | hnew
    · exact hself hself'
    · by_cases hjc : j = c
      · exact hold (hjc ▸ hnew)
      · exact hnone j (by omega) hj hnew

theorem Reached.step (hc : Systematic enc x k n) (hown : ∀ r < k, slot r = r ∨ k ≤ slot r)
    (hck : c < k) (h : Reached enc k n slot c s) :
    (∃ t, invertRound k c s = some t ∧ Reached enc k n slot (c + 1) t) ∨
      (invertRound k c s = none ∧ Stuck k slot c) := by
  rcases h with ⟨out, inp, hstraight⟩ | ⟨first, p, e, out, inp, rfl, hfirst, hep, hd, hlagging⟩
  · exact hstraight.step hc hown hck
  · by_cases hlast : e + 1 = p
    · obtain ⟨t, out', inp', ht, hnext⟩ := hlagging.last hc hd hlast
      exact .inl ⟨t, ht, .inl ⟨out', inp', hlast ▸ hnext⟩⟩
    · obtain ⟨t, out', inp', ht, hnext⟩ := hlagging.next hc (by omega) hd.lt_size
      exact .inl ⟨t, ht, .inr ⟨first, p, e + 1, out', inp', rfl, by omega, by omega, hd, hnext⟩⟩

/-- The last row of parity has a symbol that occurs above it. -/
def LastRepeats (k : ℕ) (slot : ℕ → ℕ) : Prop :=
  ∃ t < k, k ≤ slot t ∧ (∃ i < t, slot i = slot t) ∧ ∀ j, t < j → j < k → slot j < k

/-- Where the search gets stuck, the last row of parity is no longer new. -/
theorem Stuck.lastRepeats (h : Stuck k slot c) (hck : c < k) : LastRepeats k slot := by
  classical
  let P : ℕ → Prop := fun j => j < k ∧ k ≤ slot j
  let t := Nat.findGreatest P k
  have hfirst : P c := ⟨hck, h.own⟩
  obtain ⟨htk, hparity⟩ : P t := Nat.findGreatest_spec hck.le hfirst
  have hct : c ≤ t := Nat.le_findGreatest hck.le hfirst
  have hbehind : ∀ j, t < j → j < k → slot j < k := by
    intro j htj hj
    by_contra hge
    exact Nat.findGreatest_is_greatest htj hj.le ⟨hj, by omega⟩
  refine ⟨t, htk, hparity, ?_, hbehind⟩
  by_cases htc : t = c
  · rw [htc]
    exact h.repeated
  · have hold := h.none_fresh t (by omega) htk
    unfold Fresh at hold
    push Not at hold
    obtain ⟨i, hi, heq⟩ := hold hparity
    exact ⟨i, by omega, heq⟩

/-- At the last row of parity nothing else is left if it repeats a symbol. -/
theorem Reached.stuck (hc : Systematic enc x k n) (hown : ∀ r < k, slot r = r ∨ k ≤ slot r)
    (h : Reached enc k n slot c s) (hck : c < k) (hparity : k ≤ slot c)
    (hrepeated : ∃ i < c, slot i = slot c) (hbehind : ∀ j, c < j → j < k → slot j < k) :
    invertRound k c s = none := by
  obtain ⟨i, hi, heq⟩ := hrepeated
  rcases h with ⟨out, inp, hstraight⟩ | ⟨first, p, e, out, inp, rfl, hfirst, hep, hd, hlagging⟩
  · refine invertRound_eq_none hc hstraight.tableau hck fun j hj hmark hfits => ?_
    have hcj := hstraight.not_unused hj hmark
    rcases (hstraight.fits_iff hown hcj hj).mp hfits with ⟨-, hself⟩ | hnew
    · omega
    · by_cases hjc : j = c
      · exact hnew.2 i hi (hjc ▸ heq)
      · have hmessage := hbehind j (by omega) hj
        have hge := hnew.1
        omega
  · exfalso
    -- the detour leads to this very row, which would be new
    have hp : p = e + 1 := by
      by_contra hne
      have hmessage := hbehind p (by omega) hd.lt_size
      have hge := hd.fresh.1
      omega
    have hnew := hd.fresh.2
    rw [hp] at hnew
    rcases lt_trichotomy i first with hbefore | rfl | hafter
    · exact hnew i hbefore heq
    · obtain ⟨i', hi', heq'⟩ := hd.repeated
      exact hnew i' hi' (heq'.trans heq)
    · have hold := hd.first i hafter (by omega)
      unfold Fresh at hold
      push Not at hold
      obtain ⟨i', hi', heq'⟩ := hold (by omega)
      exact hnew i' hi' (heq'.trans heq)

theorem reached_or_none (hc : Systematic enc x k n) (hown : ∀ r < k, slot r = r ∨ k ≤ slot r)
    (h : Reached enc k n slot 0 s) (hck : c ≤ k) :
    tryTo (invertRound k) c s = none ∨
      ∃ t, tryTo (invertRound k) c s = some t ∧ Reached enc k n slot c t := by
  induction c with
  | zero => exact .inr ⟨s, rfl, h⟩
  | succ c ih =>
    rw [tryTo]
    rcases ih (by omega) with hnone | ⟨t, ht, hreached⟩
    · rw [hnone]
      exact .inl rfl
    · rw [ht, Option.bind_some]
      rcases hreached.step hc hown (by omega) with hsome | ⟨hnone, -⟩
      · exact .inr hsome
      · exact .inl hnone

/-- A matrix with rows in common is only found to be singular if its last row of parity is
one of them. -/
theorem invertMatrix_eq_none_iff (hc : Systematic enc x k n) {mx : Mat Gf}
    (hown : ∀ r < k, slot r = r ∨ k ≤ slot r) (hlt : ∀ r < k, slot r < n)
    (hm : AgreeOn k mx (select enc slot)) : invertMatrix mx k = none ↔ LastRepeats k slot := by
  have hstart : Reached enc k n slot 0 ⟨mx, fun _ => true, []⟩ := by
    have hparity (q : ℕ) (hq : k ≤ q) : (∃ j < k, id j = q) ↔ ∃ i < 0, slot i = q := by
      refine iff_of_false ?_ ?_
      · rintro ⟨j, hj, rfl⟩
        exact absurd hj (Nat.not_lt.mpr hq)
      · rintro ⟨i, hi, -⟩
        exact absurd hi (Nat.not_lt_zero i)
    exact .inl ⟨slot, id, hc.tableau hlt hm, fun j _ => (decide_eq_true (Nat.zero_le j)).symm,
      fun _ _ _ => rfl, fun _ _ _ => rfl, hparity⟩
  unfold invertMatrix
  rw [Option.map_eq_none_iff]
  constructor
  · intro hnone
    by_contra hlast
    obtain ⟨t, ht, -⟩ := tryTo_invariant (Reached enc k n slot) hstart fun c hck s hreached =>
      (hreached.step hc hown hck).resolve_right fun hstuck => hlast (hstuck.2.lastRepeats hck)
    rw [ht] at hnone
    cases hnone
  · rintro ⟨t, htk, hparity, hrepeated, hbehind⟩
    refine tryTo_eq_none (m := t + 1) ?_ htk
    rw [tryTo]
    rcases reached_or_none hc hown hstart htk.le with hnone | ⟨s, hs, hreached⟩
    · rw [hnone, Option.bind_none]
    · rw [hs, Option.bind_some]
      exact hreached.stuck hc hown htk hparity hrepeated hbehind

end Course

end OrionNetwork.Fec
