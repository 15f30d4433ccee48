import Mathlib.Data.Nat.Notation
import Mathlib.Tactic

/-!
# Counting loops

Loops over `0..n`, upwards, downwards and with early failure, on an explicit
state. An invariant is indexed by the bound that is reached.
-/
namespace OrionNetwork.Loops

variable {σ : Type*}

/-- `for i in 0..n`. -/
def forTo (f : ℕ → σ → σ) : ℕ → σ → σ
  | 0, s => s
  | n + 1, s => f n (forTo f n s)

/-- `for i in (0..n).rev()`. -/
def forDown (f : ℕ → σ → σ) : ℕ → σ → σ
  | 0, s => s
  | n + 1, s => forDown f n (f n s)

/-- `for i in 0..n` with a body that may give up. -/
def tryTo (f : ℕ → σ → Option σ) : ℕ → σ → Option σ
  | 0, s => some s
  | n + 1, s => (tryTo f n s).bind (f n)

theorem forTo_invariant {f : ℕ → σ → σ} {n : ℕ} {s : σ} (P : ℕ → σ → Prop) (h0 : P 0 s)
    (hstep : ∀ i < n, ∀ s, P i s → P (i + 1) (f i s)) : P n (forTo f n s) := by
  induction n with
  | zero => exact h0
  | succ n ih =>
    apply hstep n (Nat.lt_succ_self n)
    apply ih
    intro i hi
    exact hstep i (Nat.lt_succ_of_lt hi)

theorem forTo_keep {ρ : Type*} {f : ℕ → σ → σ} {n : ℕ} (get : σ → ρ)
    (hkeep : ∀ i < n, ∀ t, get (f i t) = get t) (s : σ) : get (forTo f n s) = get s :=
  forTo_invariant (P := fun _ t => get t = get s) rfl fun i hi t ht => (hkeep i hi t).trans ht

/-- Two loops whose rounds keep a relation between the states. -/
theorem forTo_related {ρ : Type*} {f : ℕ → σ → σ} {g : ℕ → ρ → ρ} {n : ℕ} {s : σ} {t : ρ}
    (R : σ → ρ → Prop) (h : R s t) (hstep : ∀ i < n, ∀ s t, R s t → R (f i s) (g i t)) :
    R (forTo f n s) (forTo g n t) := by
  induction n with
  | zero => exact h
  | succ n ih =>
    apply hstep n (Nat.lt_succ_self n)
    apply ih
    intro i hi
    exact hstep i (Nat.lt_succ_of_lt hi)

theorem forDown_related {ρ : Type*} {f : ℕ → σ → σ} {g : ℕ → ρ → ρ} {n : ℕ} {s : σ} {t : ρ}
    (R : σ → ρ → Prop) (h : R s t) (hstep : ∀ i < n, ∀ s t, R s t → R (f i s) (g i t)) :
    R (forDown f n s) (forDown g n t) := by
  induction n generalizing s t with
  | zero => exact h
  | succ n ih =>
    apply ih
    · exact hstep n (Nat.lt_succ_self n) s t h
    · intro i hi
      exact hstep i (Nat.lt_succ_of_lt hi)

/-- A part of the state that a loop of its own computes. -/
theorem forTo_part {ρ : Type*} {f : ℕ → σ → σ} {g : ℕ → ρ → ρ} (part : σ → ρ)
    (hpart : ∀ i s, part (f i s) = g i (part s)) (n : ℕ) (s : σ) :
    part (forTo f n s) = forTo g n (part s) :=
  forTo_related (fun s t => part s = t) rfl fun i _ s _ h => (hpart i s).trans (congrArg (g i) h)

theorem forDown_part {ρ : Type*} {f : ℕ → σ → σ} {g : ℕ → ρ → ρ} (part : σ → ρ)
    (hpart : ∀ i s, part (f i s) = g i (part s)) (n : ℕ) (s : σ) :
    part (forDown f n s) = forDown g n (part s) :=
  forDown_related (fun s t => part s = t) rfl fun i _ s _ h => (hpart i s).trans (congrArg (g i) h)

/-- What one round writes and no other round touches. -/
theorem forTo_write {ρ : Type*} {f : ℕ → σ → σ} {n k : ℕ} (hk : k < n) (get : σ → ρ) {v : ρ}
    (hwrite : ∀ t, get (f k t) = v) (hkeep : ∀ i < n, i ≠ k → ∀ t, get (f i t) = get t) (s : σ) :
    get (forTo f n s) = v := by
  refine forTo_invariant (P := fun i t => k < i → get t = v) ?_ ?_ hk
  · intro h
    exact absurd h (Nat.not_lt_zero k)
  · intro i hi t ht hki
    by_cases hik : i = k
    · rw [hik, hwrite]
    · rw [hkeep i hi hik, ht (by omega)]

theorem forDown_invariant {f : ℕ → σ → σ} {n : ℕ} {s : σ} (P : ℕ → σ → Prop) (h0 : P n s)
    (hstep : ∀ i < n, ∀ s, P (i + 1) s → P i (f i s)) : P 0 (forDown f n s) := by
  induction n generalizing s with
  | zero => exact h0
  | succ n ih =>
    apply ih
    · exact hstep n (Nat.lt_succ_self n) s h0
    · intro i hi
      exact hstep i (Nat.lt_succ_of_lt hi)

/-- A body that never gives up under the invariant lets the loop finish. -/
theorem tryTo_invariant {f : ℕ → σ → Option σ} {n : ℕ} {s : σ} (P : ℕ → σ → Prop)
    (h0 : P 0 s) (hstep : ∀ i < n, ∀ s, P i s → ∃ t, f i s = some t ∧ P (i + 1) t) :
    ∃ t, tryTo f n s = some t ∧ P n t := by
  induction n with
  | zero => exact ⟨s, rfl, h0⟩
  | succ n ih =>
    obtain ⟨t, ht, hP⟩ := ih fun i hi => hstep i (Nat.lt_succ_of_lt hi)
    obtain ⟨u, hu, hP'⟩ := hstep n (Nat.lt_succ_self n) t hP
    refine ⟨u, ?_, hP'⟩
    rw [tryTo, ht, Option.bind_some, hu]

/-- A loop that gives up does not go on. -/
theorem tryTo_eq_none {f : ℕ → σ → Option σ} {m n : ℕ} {s : σ} (h : tryTo f m s = none)
    (hmn : m ≤ n) : tryTo f n s = none := by
  induction n, hmn using Nat.le_induction with
  | base => exact h
  | succ n _ ih => rw [tryTo, ih, Option.bind_none]

end OrionNetwork.Loops
