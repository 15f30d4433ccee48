import Mathlib.Tactic

/-!
# Checked arithmetic of machine integers

A program that stops where an addition, subtraction, multiplication or negation leaves
its type. The values are integers, a type is the range they have to stay in, and a result
stands for the program going on with it.
-/
namespace OrionNetwork.CheckedIntegers

/-- Why a program does not go on: a result outside of its type, an iterator with no next
item, or a loop that still runs after the rounds it was given. -/
inductive Trap where
  | overflow
  | exhausted
  | running
  deriving DecidableEq, Repr

/-- The values from `lo` up to `hi`, which is not one of them. -/
structure IntType where
  lo : ℤ
  hi : ℤ

def signed (bits : ℕ) : IntType := ⟨-2 ^ (bits - 1), 2 ^ (bits - 1)⟩

def unsigned (bits : ℕ) : IntType := ⟨0, 2 ^ bits⟩

namespace IntType

def check (t : IntType) (x : ℤ) : Except Trap ℤ :=
  if t.lo ≤ x ∧ x < t.hi then .ok x else .error .overflow

def add (t : IntType) (a b : ℤ) : Except Trap ℤ := t.check (a + b)

def sub (t : IntType) (a b : ℤ) : Except Trap ℤ := t.check (a - b)

def mul (t : IntType) (a b : ℤ) : Except Trap ℤ := t.check (a * b)

def neg (t : IntType) (a : ℤ) : Except Trap ℤ := t.check (-a)

/-- A conversion that keeps the low bits. -/
def wrap (t : IntType) (x : ℤ) : ℤ := (x - t.lo) % (t.hi - t.lo) + t.lo

theorem wrap_eq_self {t : IntType} {x : ℤ} (hlo : t.lo ≤ x) (hhi : x < t.hi) : t.wrap x = x := by
  unfold wrap
  rw [Int.emod_eq_of_lt (by omega) (by omega)]
  omega

theorem wrap_range {t : IntType} (ht : t.lo < t.hi) (x : ℤ) : t.lo ≤ t.wrap x ∧ t.wrap x < t.hi := by
  unfold wrap
  have hpos := Int.emod_nonneg (x - t.lo) (b := t.hi - t.lo) (by omega)
  have hlt := Int.emod_lt_of_pos (x - t.lo) (b := t.hi - t.lo) (by omega)
  omega

theorem dvd_wrap_sub (t : IntType) (x : ℤ) : t.hi - t.lo ∣ t.wrap x - x := by
  unfold wrap
  rw [Int.emod_def]
  exact ⟨-((x - t.lo) / (t.hi - t.lo)), by ring⟩

end IntType

/-- The program goes on, with a value of which `P` is true. -/
def Yields {α : Type*} (x : Except Trap α) (P : α → Prop) : Prop := ∃ a, x = .ok a ∧ P a

section Rules

variable {α β σ : Type} {P : α → Prop}

theorem yields_pure {a : α} (h : P a) : Yields (pure a) P := ⟨a, rfl, h⟩

/-- A computed value is the only one. -/
theorem yields_of_eq {x : Except Trap α} {a : α} (h : x = .ok a) : Yields x (· = a) := ⟨a, h, rfl⟩

theorem Yields.of_ok {x : Except Trap α} {a : α} (h : Yields x P) (hx : x = .ok a) : P a := by
  obtain ⟨b, hb, hP⟩ := h
  rw [hx] at hb
  cases hb
  exact hP

theorem Yields.bind {Q : β → Prop} {x : Except Trap α} {f : α → Except Trap β} (h : Yields x P)
    (hf : ∀ a, P a → Yields (f a) Q) : Yields (x >>= f) Q := by
  obtain ⟨a, rfl, ha⟩ := h
  exact hf a ha

theorem Yields.mono {P' : α → Prop} {x : Except Trap α} (h : Yields x P) (hP : ∀ a, P a → P' a) :
    Yields x P' := by
  obtain ⟨a, ha, h⟩ := h
  exact ⟨a, ha, hP a h⟩

/-- A result inside of the range is the result. -/
theorem yields_check {t : IntType} {x : ℤ} (hlo : t.lo ≤ x) (hhi : x < t.hi) :
    Yields (t.check x) (· = x) :=
  ⟨x, if_pos ⟨hlo, hhi⟩, rfl⟩

theorem yields_mapM {f : α → Except Trap β} {R : α → β → Prop} {l : List α}
    (h : ∀ a ∈ l, Yields (f a) (R a)) : Yields (l.mapM f) (List.Forall₂ R l) := by
  induction l with
  | nil => exact yields_pure List.Forall₂.nil
  | cons a l ih =>
    rw [List.mapM_cons]
    refine (h a List.mem_cons_self).bind fun b hb => ?_
    refine (ih fun c hc => h c (List.mem_cons_of_mem a hc)).bind fun bs hbs => ?_
    exact yields_pure (List.Forall₂.cons hb hbs)

/-- One fact about all results. -/
theorem yields_mapM_forall {f : α → Except Trap β} {Q : β → Prop} {l : List α}
    (h : ∀ a ∈ l, Yields (f a) Q) :
    Yields (l.mapM f) fun out => out.length = l.length ∧ ∀ b ∈ out, Q b := by
  refine (yields_mapM h).mono fun out hout => ⟨hout.length_eq.symm, ?_⟩
  clear h
  induction hout with
  | nil => simp
  | cons hb _ ih => exact List.forall_mem_cons.mpr ⟨hb, ih⟩

/-- Facts about the results by their places. -/
theorem yields_mapM_getD {f : α → Except Trap β} {R : ℕ → β → Prop} {l : List α} (d : α) (d' : β)
    (h : ∀ i < l.length, Yields (f (l.getD i d)) (R i)) :
    Yields (l.mapM f) fun out => out.length = l.length ∧ ∀ i < l.length, R i (out.getD i d') := by
  induction l generalizing R with
  | nil => exact yields_pure ⟨rfl, fun i hi => absurd hi (Nat.not_lt_zero i)⟩
  | cons a l ih =>
    rw [List.mapM_cons]
    refine (h 0 (Nat.succ_pos _)).bind fun b hb => ?_
    refine (ih (R := fun i => R (i + 1)) fun i hi => h (i + 1) (Nat.succ_lt_succ hi)).bind
      fun bs hbs => yields_pure ?_
    obtain ⟨hlength, hbs⟩ := hbs
    refine ⟨by rw [List.length_cons, hlength, List.length_cons], fun i hi => ?_⟩
    cases i with
    | zero => exact hb
    | succ i => exact hbs i (Nat.lt_of_succ_lt_succ hi)

/-- A second loop over the results of the first one. -/
theorem yields_mapM_mapM {δ : Type} {f : α → Except Trap β} {g : β → Except Trap δ} {Q : β → Prop}
    {R : α → δ → Prop} {l : List α} (h : ∀ a ∈ l, Yields (f a) fun b => Q b ∧ Yields (g b) (R a)) :
    Yields (l.mapM f) fun bs => bs.length = l.length ∧ (∀ b ∈ bs, Q b) ∧
      Yields (bs.mapM g) (List.Forall₂ R l) := by
  induction l with
  | nil => exact yields_pure ⟨rfl, by simp, yields_pure List.Forall₂.nil⟩
  | cons a l ih =>
    rw [List.mapM_cons]
    refine (h a List.mem_cons_self).bind fun b hb => ?_
    refine (ih fun c hc => h c (List.mem_cons_of_mem a hc)).bind fun bs hbs => yields_pure ?_
    obtain ⟨hlength, hQ, hrest⟩ := hbs
    refine ⟨by rw [List.length_cons, hlength, List.length_cons],
      List.forall_mem_cons.mpr ⟨hb.1, hQ⟩, ?_⟩
    rw [List.mapM_cons]
    refine hb.2.bind fun d hd => ?_
    exact hrest.bind fun ds hds => yields_pure (List.Forall₂.cons hd hds)

/-- A loop over a list keeps what each round keeps. -/
theorem yields_foldlM {f : σ → α → Except Trap σ} {P : ℕ → σ → Prop} {l : List α} {s : σ}
    (h0 : P 0 s) (h : ∀ i (hi : i < l.length) t, P i t → Yields (f t l[i]) (P (i + 1))) :
    Yields (l.foldlM f s) (P l.length) := by
  induction l generalizing s P with
  | nil => exact yields_pure h0
  | cons a l ih =>
    rw [List.foldlM_cons]
    refine (h 0 (Nat.succ_pos _) s h0).bind fun t ht => ?_
    exact ih (P := fun i => P (i + 1)) ht fun i hi => h (i + 1) (Nat.succ_lt_succ hi)

end Rules

end OrionNetwork.CheckedIntegers
