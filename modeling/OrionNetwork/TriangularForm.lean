import OrionNetwork.PolynomialRows

/-!
# Triangular form

Row operations do not change which inputs have no output. A matrix with zeros below the
diagonal, and only zeros and ones on it, has no such input but zero exactly if it has ones all
along: at the first zero there is an input that ends there, and that is completed from there
upwards.
-/
namespace OrionNetwork.TriangularForm
open PivotExchange PolynomialRows

variable {F : Type*} [Field F] {k n i : ℕ} {m m' : Mat F} {x : ℕ → F}

/-- The input has no output. -/
def Vanishes (k : ℕ) (m : Mat F) (x : ℕ → F) : Prop := ∀ r < k, apply k m x r = 0

def Regular (k : ℕ) (m : Mat F) : Prop := ∀ x, Vanishes k m x → ∀ j < k, x j = 0

/-- The first `n` columns have zeros below the diagonal, and zeros or ones on it. -/
def Triangular (k n : ℕ) (m : Mat F) : Prop :=
  ∀ l < n, (m l l = 0 ∨ m l l = 1) ∧ ∀ r, l < r → r < k → m r l = 0

theorem Regular.congr (h : ∀ x, Vanishes k m x ↔ Vanishes k m' x) : Regular k m ↔ Regular k m' := by
  constructor
  · intro hm x hx
    exact hm x ((h x).mpr hx)
  · intro hm' x hx
    exact hm' x ((h x).mp hx)

section Operations

theorem swap_lt {p r : ℕ} (hi : i < k) (hp : p < k) (hr : r < k) : Equiv.swap i p r < k := by
  rw [Equiv.swap_apply_def]
  split_ifs
  · exact hp
  · exact hi
  · exact hr

theorem vanishes_swap {p : ℕ} (hi : i < k) (hp : p < k) :
    Vanishes k (fun r => m (Equiv.swap i p r)) x ↔ Vanishes k m x := by
  constructor
  · intro h r hr
    have hrow := h (Equiv.swap i p r) (swap_lt hi hp hr)
    change apply k m x (Equiv.swap i p (Equiv.swap i p r)) = 0 at hrow
    rwa [Equiv.swap_apply_self] at hrow
  · intro h r hr
    exact h (Equiv.swap i p r) (swap_lt hi hp hr)

theorem apply_scaleRow (a : F) (r : ℕ) :
    apply k (scaleRow m i a) x r = if r = i then a * apply k m x i else apply k m x r := by
  unfold apply scaleRow
  split_ifs with hri
  · rw [hri, Function.update_self, Finset.mul_sum]
    apply Finset.sum_congr rfl
    intro j _
    rw [mul_assoc]
  · rw [Function.update_of_ne hri]

theorem vanishes_scaleRow {a : F} (ha : a ≠ 0) :
    Vanishes k (scaleRow m i a) x ↔ Vanishes k m x := by
  apply forall₂_congr
  intro r _
  rw [apply_scaleRow]
  split_ifs with hri
  · rw [hri, mul_eq_zero, or_iff_right ha]
  · rfl

theorem apply_addRow {chosen : ℕ → Prop} [DecidablePred chosen] (a : ℕ → F) (r : ℕ) :
    apply k (addRow m i chosen a) x r =
      if chosen r then apply k m x r + a r * apply k m x i else apply k m x r := by
  unfold apply addRow
  split_ifs
  · rw [Finset.mul_sum, ← Finset.sum_add_distrib]
    apply Finset.sum_congr rfl
    intro j _
    rw [add_mul, mul_assoc]
  · rfl

theorem vanishes_addRow (hi : i < k) {chosen : ℕ → Prop} [DecidablePred chosen]
    (hself : ¬ chosen i) (a : ℕ → F) :
    Vanishes k (addRow m i chosen a) x ↔ Vanishes k m x := by
  constructor
  · intro h r hr
    have hpivot := h i hi
    rw [apply_addRow, if_neg hself] at hpivot
    have hrow := h r hr
    rw [apply_addRow, hpivot, mul_zero, add_zero, ite_self] at hrow
    exact hrow
  · intro h r hr
    rw [apply_addRow, h r hr, h i hi, mul_zero, add_zero, ite_self]

/-- A column that is zero from the diagonal on is left as it is. -/
theorem Triangular.skip (h : Triangular k n m) (hcol : ∀ r, n ≤ r → r < k → m r n = 0)
    (hn : n < k) : Triangular k (n + 1) m := by
  intro l hl
  by_cases hln : l = n
  · subst hln
    exact ⟨.inl (hcol l le_rfl hn), fun r hlr hr => hcol r hlr.le hr⟩
  · exact h l (by omega)

theorem Triangular.swap (h : Triangular k n m) {p : ℕ} (hn : n < k) (hnp : n ≤ p) (hp : p < k) :
    Triangular k n fun r => m (Equiv.swap n p r) := by
  intro l hl
  beta_reduce
  rw [Equiv.swap_apply_of_ne_of_ne (by omega) (by omega)]
  refine ⟨(h l hl).1, fun r hlr hr => (h l hl).2 _ ?_ ?_⟩
  · rw [Equiv.swap_apply_def]
    split_ifs <;> omega
  · rw [Equiv.swap_apply_def]
    split_ifs <;> omega

theorem Triangular.scaleRow (h : Triangular k n m) (hn : n < k) (a : F) :
    Triangular k n (scaleRow m n a) := by
  intro l hl
  unfold PolynomialRows.scaleRow
  refine ⟨?_, fun r hlr hr => ?_⟩
  · rw [Function.update_of_ne (by omega)]
    exact (h l hl).1
  · by_cases hrn : r = n
    · rw [hrn, Function.update_self, (h l hl).2 n (by omega) hn, mul_zero]
    · rw [Function.update_of_ne hrn]
      exact (h l hl).2 r hlr hr

/-- A column with a one on the diagonal is cleared below it. -/
theorem Triangular.eliminate (h : Triangular k n m) (hn : n < k) {a : ℕ → F} (hone : m n n = 1)
    (ha : ∀ r, m r n + a r = 0) :
    Triangular k (n + 1) (addRow m n (fun r => n < r ∧ r < k) a) := by
  intro l hl
  unfold addRow
  rw [if_neg (by omega)]
  by_cases hln : l = n
  · subst hln
    refine ⟨.inr hone, fun r hlr hr => ?_⟩
    rw [if_pos ⟨hlr, hr⟩, hone, mul_one, ha]
  · refine ⟨(h l (by omega)).1, fun r hlr hr => ?_⟩
    rw [(h l (by omega)).2 r hlr hr, (h l (by omega)).2 n (by omega) hn, mul_zero, add_zero,
      ite_self]

/-- A row is added to those above it. -/
theorem Triangular.addRow_above (h : Triangular k k m) (hi : i < k) (a : ℕ → F) :
    Triangular k k (addRow m i (fun r => r < i) a) := by
  intro l hl
  have hrow {r : ℕ} (hlr : l ≤ r) : addRow m i (fun r => r < i) a r l = m r l := by
    unfold addRow
    by_cases hri : r < i
    · rw [if_pos hri, (h l hl).2 i (by omega) hi, mul_zero, add_zero]
    · rw [if_neg hri]
  rw [hrow le_rfl]
  refine ⟨(h l hl).1, fun r hlr hr => ?_⟩
  rw [hrow hlr.le]
  exact (h l hl).2 r hlr hr

end Operations

section Tracking

variable {a b : Mat F}

/-- The rows of `b` are those of `a` times the matrix `m`. -/
def Tracks (k : ℕ) (m a b : Mat F) : Prop :=
  ∀ r < k, ∀ j < k, apply k a (fun l => m l j) r = b r j

theorem Tracks.swap (h : Tracks k m a b) {p : ℕ} (hi : i < k) (hp : p < k) :
    Tracks k m (fun r => a (Equiv.swap i p r)) fun r => b (Equiv.swap i p r) :=
  fun r hr j hj => h (Equiv.swap i p r) (swap_lt hi hp hr) j hj

theorem Tracks.scaleRow (h : Tracks k m a b) (hi : i < k) (c : F) :
    Tracks k m (scaleRow a i c) (scaleRow b i c) := by
  intro r hr j hj
  rw [apply_scaleRow]
  unfold PolynomialRows.scaleRow
  by_cases hri : r = i
  · rw [if_pos hri, hri, Function.update_self, h i hi j hj]
  · rw [if_neg hri, Function.update_of_ne hri, h r hr j hj]

theorem Tracks.addRow (h : Tracks k m a b) (hi : i < k) (chosen : ℕ → Prop) [DecidablePred chosen]
    (c : ℕ → F) : Tracks k m (addRow a i chosen c) (addRow b i chosen c) := by
  intro r hr j hj
  rw [apply_addRow]
  unfold PolynomialRows.addRow
  by_cases hchosen : chosen r
  · rw [if_pos hchosen, if_pos hchosen, h r hr j hj, h i hi j hj]
  · rw [if_neg hchosen, if_neg hchosen, h r hr j hj]

end Tracking

section Diagonal

/-- The rows with a one on the diagonal can be solved for the first inputs. -/
theorem exists_completion (h : Echelon k n m) (hn : n ≤ k) (x : ℕ → F) :
    ∃ y : ℕ → F, (∀ j, n ≤ j → y j = x j) ∧ ∀ r < n, apply k m y r = 0 := by
  induction n generalizing x with
  | zero => exact ⟨x, fun _ _ => rfl, fun r hr => absurd hr (Nat.not_lt_zero r)⟩
  | succ n ih =>
    let w := Function.update x n (-others k m x n n)
    obtain ⟨y, hy, hzero⟩ := ih (fun l hl => h l (by omega)) (by omega) w
    refine ⟨y, fun j hj => ?_, fun r hr => ?_⟩
    · rw [hy j (by omega)]
      exact Function.update_of_ne (by omega) _ _
    · by_cases hrn : r = n
      · have hsame : apply k m y n = apply k m w n := by
          apply Finset.sum_congr rfl
          intro j _
          by_cases hjn : j < n
          · rw [(h j (by omega)).2 n hjn (by omega), zero_mul, zero_mul]
          · rw [hy j (by omega)]
        have hown : w n = -others k m x n n := Function.update_self _ _ _
        rw [hrn, hsame, apply_eq_others (show n < k by omega), others_update, hown,
          (h n (by omega)).1, one_mul, neg_add_cancel]
      · exact hzero r (by omega)

theorem Echelon.regular (h : Echelon k k m) : Regular k m := by
  intro x hx
  have hlast : ∀ n ≤ k, ∀ j, k - n ≤ j → j < k → x j = 0 := by
    intro n
    induction n with
    | zero =>
      intro _ j hj hjk
      omega
    | succ n ih =>
      intro hn j hj hjk
      by_cases hfirst : k - n ≤ j
      · exact ih (by omega) j hfirst hjk
      · have hrow := hx j hjk
        have hrest : others k m x j j = 0 := by
          apply Finset.sum_eq_zero
          intro l hl
          obtain ⟨hlj, hlk⟩ := Finset.mem_erase.mp hl
          rw [Finset.mem_range] at hlk
          by_cases hbefore : l < j
          · rw [(h l hlk).2 j hbefore hjk, zero_mul]
          · rw [ih (by omega) l (by omega) hlk, mul_zero]
        rwa [apply_eq_others hjk, hrest, add_zero, (h j hjk).1, one_mul] at hrow
  exact fun j hj => hlast k le_rfl j (by omega) hj

/-- At the first zero of the diagonal there is an input without output. -/
theorem not_regular (h : Echelon k n m) (hn : n < k) (hcol : ∀ r, n ≤ r → r < k → m r n = 0) :
    ¬ Regular k m := by
  intro hregular
  obtain ⟨y, hy, hzero⟩ := exists_completion h hn.le (Pi.single n 1)
  have hvanishes : Vanishes k m y := by
    intro r hr
    by_cases hrn : r < n
    · exact hzero r hrn
    · apply Finset.sum_eq_zero
      intro j hj
      rcases lt_trichotomy j n with hjn | rfl | hjn
      · rw [(h j hjn).2 r (by omega) hr, zero_mul]
      · rw [hcol r (by omega) hr, zero_mul]
      · rw [hy j hjn.le, Pi.single_eq_of_ne hjn.ne', mul_zero]
  have hone := hregular y hvanishes n hn
  rw [hy n le_rfl, Pi.single_eq_same] at hone
  exact one_ne_zero hone

theorem diagonal_iff (h : Triangular k k m) : (∀ j < k, m j j = 1) ↔ Regular k m := by
  constructor
  · intro hones
    exact Echelon.regular fun l hl => ⟨hones l hl, (h l hl).2⟩
  · intro hregular
    by_contra hzero
    push Not at hzero
    classical
    obtain ⟨hlast, hdiagonal⟩ := Nat.find_spec hzero
    have hech : Echelon k (Nat.find hzero) m := by
      intro l hl
      refine ⟨?_, (h l (by omega)).2⟩
      by_contra hne
      exact Nat.find_min hzero hl ⟨by omega, hne⟩
    refine not_regular hech hlast (fun r hr hrk => ?_) hregular
    rcases hr.eq_or_lt with rfl | hlt
    · exact (h _ hlast).1.resolve_right hdiagonal
    · exact (h _ hlast).2 r hlt hrk

end Diagonal

end OrionNetwork.TriangularForm
