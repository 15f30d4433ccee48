import OrionNetwork.EvaluationCode

/-!
# Exchanging symbols of a codeword

A square matrix writes some symbols of a codeword in terms of `k` other ones, and a
pivot step exchanges one symbol of each kind. Any `k` symbols determine a codeword and
can be chosen freely, so an entry is not zero exactly if the symbol of its row may take the
place of the one of its column: it is that symbol, or none of the `k`. Rows may have
symbols in common.
-/
namespace OrionNetwork.EvaluationCode
open PivotExchange Polynomial

variable {F : Type*} [Field F] {enc : Mat F} {x : ℕ → F} {k n : ℕ}

theorem Systematic.exists_message (hc : Systematic enc x k n) {g : ℕ → ℕ}
    (hlt : ∀ j < k, g j < n) (hinj : Set.InjOn g (Finset.range k)) (v : ℕ → F) :
    ∃ d, ∀ j < k, apply k enc d (g j) = v j := by
  have hpoints : Set.InjOn (x ∘ g) (Finset.range k) := by
    refine hc.injOn.comp hinj fun j hj => ?_
    simp only [Finset.coe_range, Set.mem_Iio] at hj ⊢
    exact hlt j hj
  obtain ⟨p, ⟨hdegree, heval⟩, -⟩ := existsUnique_polynomial hpoints v
  refine ⟨fun j => p.eval (x j), fun j hj => ?_⟩
  rw [hc.apply_eq_eval hdegree (fun _ _ => rfl) (hlt j hj)]
  exact heval j hj

/-- A value that is new may be put anywhere. -/
theorem injOn_update {f : ℕ → ℕ} (hf : Set.InjOn f (Finset.range k)) {a j : ℕ}
    (hnew : ∀ l < k, a ≠ f l) : Set.InjOn (Function.update f j a) (Finset.range k) := by
  intro b hb c hc heq
  have hbk : b < k := by simpa using hb
  have hck : c < k := by simpa using hc
  by_cases hbj : b = j
  · by_cases hcj : c = j
    · rw [hbj, hcj]
    · rw [hbj, Function.update_self, Function.update_of_ne hcj] at heq
      exact absurd heq (hnew c hck)
  · by_cases hcj : c = j
    · rw [hcj, Function.update_self, Function.update_of_ne hbj] at heq
      exact absurd heq.symm (hnew b hbk)
    · rw [Function.update_of_ne hbj, Function.update_of_ne hcj] at heq
      exact hf hb hc heq

/-- The symbols `out` of the rows in terms of the symbols `inp` of the columns. -/
structure Tableau (enc : Mat F) (k n : ℕ) (m : Mat F) (out inp : ℕ → ℕ) : Prop where
  out_lt : ∀ r < k, out r < n
  inp_lt : ∀ j < k, inp j < n
  injOn : Set.InjOn inp (Finset.range k)
  represents : ∀ d, ∀ r < k, apply k enc d (out r) = apply k m (fun j => apply k enc d (inp j)) r

/-- A symbol may take the place of the one of column `i`. -/
def Fits (k : ℕ) (inp : ℕ → ℕ) (i s : ℕ) : Prop := s = inp i ∨ ∀ l < k, s ≠ inp l

/-- At first the columns are the message. -/
theorem Systematic.tableau (hc : Systematic enc x k n) {slot : ℕ → ℕ} {m : Mat F}
    (hlt : ∀ r < k, slot r < n) (hm : AgreeOn k m (select enc slot)) :
    Tableau enc k n m slot id := by
  have hkn := hc.le
  refine ⟨hlt, fun j hj => ?_, Set.injOn_id _, fun d r hr => ?_⟩
  · exact lt_of_lt_of_le hj hkn
  · rw [apply_congr hm hr]
    apply Finset.sum_congr rfl
    intro j hj
    have hmessage : apply k enc d (id j) = d j := hc.apply_message (Finset.mem_range.mp hj)
    beta_reduce
    rw [hmessage]
    rfl

namespace Tableau

variable {m : Mat F} {out inp : ℕ → ℕ}

/-- An entry is the symbol of its row where all columns but its own are zero. -/
theorem entry_eq (hc : Systematic enc x k n) (h : Tableau enc k n m out inp) {j : ℕ} (hj : j < k) :
    ∃ d, (∀ l < k, apply k enc d (inp l) = if l = j then 1 else 0) ∧
      ∀ r < k, m r j = apply k enc d (out r) := by
  obtain ⟨d, hd⟩ := hc.exists_message h.inp_lt h.injOn (Pi.single j 1)
  refine ⟨d, fun l hl => ?_, fun r hr => ?_⟩
  · rw [hd l hl, Pi.single_apply]
  · rw [h.represents d r hr, ← apply_single hj m r]
    apply Finset.sum_congr rfl
    intro l hl
    beta_reduce
    rw [hd l (Finset.mem_range.mp hl)]

theorem entry_of_eq (hc : Systematic enc x k n) (h : Tableau enc k n m out inp) {r j l : ℕ}
    (hr : r < k) (hj : j < k) (hl : l < k) (heq : out r = inp l) :
    m r j = if l = j then 1 else 0 := by
  obtain ⟨d, hinp, hentry⟩ := h.entry_eq hc hj
  rw [hentry r hr, heq, hinp l hl]

/-- Otherwise `k` symbols are zero, and then all are. -/
theorem entry_ne_zero (hc : Systematic enc x k n) (h : Tableau enc k n m out inp) {r j : ℕ}
    (hr : r < k) (hj : j < k) (hnew : ∀ l < k, out r ≠ inp l) : m r j ≠ 0 := by
  obtain ⟨d, hinp, hentry⟩ := h.entry_eq hc hj
  intro hzero
  rw [hentry r hr] at hzero
  have hall : apply k enc d (inp j) = 0 := by
    apply hc.apply_eq_zero_of_injOn (g := Function.update inp j (out r)) _ _ _ (h.inp_lt j hj)
    · intro l hl
      by_cases hlj : l = j
      · rw [hlj, Function.update_self]
        exact h.out_lt r hr
      · rw [Function.update_of_ne hlj]
        exact h.inp_lt l hl
    · exact injOn_update h.injOn hnew
    · intro l hl
      by_cases hlj : l = j
      · rw [hlj, Function.update_self]
        exact hzero
      · rw [Function.update_of_ne hlj, hinp l hl, if_neg hlj]
  rw [hinp j hj, if_pos rfl] at hall
  exact one_ne_zero hall

theorem entry_ne_zero_iff (hc : Systematic enc x k n) (h : Tableau enc k n m out inp) {r j : ℕ}
    (hr : r < k) (hj : j < k) : m r j ≠ 0 ↔ Fits k inp j (out r) := by
  by_cases hnew : ∀ l < k, out r ≠ inp l
  · exact iff_of_true (h.entry_ne_zero hc hr hj hnew) (.inr hnew)
  · have hother : Fits k inp j (out r) ↔ out r = inp j := or_iff_left hnew
    push Not at hnew
    obtain ⟨l, hl, heq⟩ := hnew
    rw [hother, h.entry_of_eq hc hr hj hl heq]
    constructor
    · intro hone
      have hlj : l = j := by
        by_contra hlj
        exact hone (if_neg hlj)
      rw [heq, hlj]
    · intro hown
      have hlj : l = j := h.injOn (by simpa using hl) (by simpa using hj) (heq.symm.trans hown)
      rw [if_pos hlj]
      exact one_ne_zero

theorem congr {m' : Mat F} (h : Tableau enc k n m out inp) (hm : AgreeOn k m m') :
    Tableau enc k n m' out inp := by
  refine ⟨h.out_lt, h.inp_lt, h.injOn, fun d r hr => ?_⟩
  rw [h.represents d r hr, apply_congr hm hr]

theorem reorder (h : Tableau enc k n m out inp) {σ : ℕ → ℕ} (hσ : ∀ r < k, σ r < k) :
    Tableau enc k n (fun r => m (σ r)) (out ∘ σ) inp :=
  ⟨fun r hr => h.out_lt (σ r) (hσ r hr), h.inp_lt, h.injOn,
    fun d r hr => h.represents d (σ r) (hσ r hr)⟩

theorem exchange [CharP F 2] (hc : Systematic enc x k n) (h : Tableau enc k n m out inp) {i : ℕ}
    (hi : i < k) (hpivot : m i i ≠ 0) :
    Tableau enc k n (exchange m i) (Function.update out i (inp i))
      (Function.update inp i (out i)) := by
  have hfits := (h.entry_ne_zero_iff hc hi hi).mp hpivot
  refine ⟨fun r hr => ?_, fun j hj => ?_, ?_, fun d r hr => ?_⟩
  · by_cases hri : r = i
    · rw [hri, Function.update_self]
      exact h.inp_lt i hi
    · rw [Function.update_of_ne hri]
      exact h.out_lt r hr
  · by_cases hji : j = i
    · rw [hji, Function.update_self]
      exact h.out_lt i hi
    · rw [Function.update_of_ne hji]
      exact h.inp_lt j hj
  · rcases hfits with hown | hnew
    · rw [hown, Function.update_eq_self]
      exact h.injOn
    · exact injOn_update h.injOn hnew
  · have hstep := (exchange_iff hi hpivot (fun r => apply k enc d (out r))
      (fun j => apply k enc d (inp j))).mpr (h.represents d) r hr
    have hupdate (f : ℕ → ℕ) (a : ℕ) : Function.update (fun r => apply k enc d (f r)) i
        (apply k enc d a) = fun r => apply k enc d (Function.update f i a r) :=
      (Function.comp_update (apply k enc d) f i a).symm
    rw [hupdate, hupdate] at hstep
    exact hstep

end Tableau

end OrionNetwork.EvaluationCode
