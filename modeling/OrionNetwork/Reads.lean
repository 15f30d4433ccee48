import Mathlib.Data.List.Basic
import Mathlib.Tactic

/-!
# Reading with a record of what can go wrong

A reader consumes its input from the front and yields a value, refuses the input or
panics. Beside the answer it leaves what it did not consume, the sizes it reserved
space for and whether arithmetic overflowed. A read is compared with a plain partial
function: reads are put together as the function is, and the rules below carry what
is known of the parts over to the whole.
-/
namespace OrionNetwork.Reads

variable {τ α β : Type}

inductive Answer (α : Type) where
  | value (a : α)
  | refused
  | panicked
  deriving DecidableEq

def Answer.toOption (rest : List τ) : Answer α → Option (α × List τ)
  | .value a => some (a, rest)
  | .refused => none
  | .panicked => none

/-- Both or none, for a second read that is made even if the first one was refused. -/
def Answer.both : Answer α → Answer β → Answer (α × β)
  | .value a, .value b => .value (a, b)
  | .panicked, _ => .panicked
  | _, .panicked => .panicked
  | _, _ => .refused

structure Read (τ α : Type) where
  answer : Answer α
  rest : List τ
  reserved : List ℕ
  overflowed : Bool

namespace Read

def pure (a : α) (rest : List τ) : Read τ α := ⟨.value a, rest, [], false⟩

def refuse (rest : List τ) : Read τ α := ⟨.refused, rest, [], false⟩

def panic (rest : List τ) : Read τ α := ⟨.panicked, rest, [], false⟩

/-- The record of a read that follows another one. -/
def after (x : Read τ α) (y : Read τ β) : Read τ β :=
  ⟨y.answer, y.rest, x.reserved ++ y.reserved, x.overflowed || y.overflowed⟩

/-- The operator `?`: only a value is gone on with. -/
def bind (x : Read τ α) (f : α → List τ → Read τ β) : Read τ β :=
  match x.answer with
  | .value a => x.after (f a x.rest)
  | .refused => x.after (refuse x.rest)
  | .panicked => x.after (panic x.rest)

def both (x : Read τ α) (f : List τ → Read τ β) : Read τ (α × β) :=
  match x.answer with
  | .panicked => x.after (panic x.rest)
  | answer =>
    let y := f x.rest
    x.after ⟨Answer.both answer y.answer, y.rest, y.reserved, y.overflowed⟩

def map (g : α → β) (x : Read τ α) : Read τ β := x.bind fun a rest => pure (g a) rest

/-- Space is reserved before the read, which panics above the limit. -/
def reserve (limit n : ℕ) (x : Read τ α) : Read τ α :=
  if n < limit then ⟨x.answer, x.rest, n :: x.reserved, x.overflowed⟩ else panic x.rest

/-- An operation before the read overflows: checked, it panics, and otherwise it is
noted. -/
def overflow (checks : Bool) (rest : List τ) (x : Read τ α) : Read τ α :=
  if checks then ⟨.panicked, rest, [], true⟩ else ⟨x.answer, x.rest, x.reserved, true⟩

/-- Neither a panic nor an overflow, and nothing above the bound is reserved. -/
def Calm (bound : ℕ) (x : Read τ α) : Prop :=
  x.answer ≠ .panicked ∧ x.overflowed = false ∧ ∀ n ∈ x.reserved, n ≤ bound

/-- Nothing went wrong, what was reserved is in proportion to the input, and what is left
is its end. -/
structure Safe (factor : ℕ) (input : List τ) (x : Read τ α) : Prop where
  calm : x.Calm (factor * input.length)
  suffix : x.rest <:+ input

/-- A read of the input that goes wrong exactly on a hazard and otherwise does what the
plain function does. -/
structure Sound (bound : ℕ) (input : List τ) (x : Read τ α) (plain : Option (α × List τ))
    (hazard : Prop) : Prop where
  calm_iff : x.Calm bound ↔ ¬ hazard
  suffix : x.Calm bound → x.rest <:+ input
  agrees : x.Calm bound → plain = x.answer.toOption x.rest

variable {bound : ℕ}

theorem calm_pure (a : α) (rest : List τ) : (pure a rest).Calm bound :=
  ⟨by rintro ⟨⟩, rfl, by rintro n ⟨⟩⟩

theorem calm_refuse (rest : List τ) : (refuse rest : Read τ α).Calm bound :=
  ⟨by rintro ⟨⟩, rfl, by rintro n ⟨⟩⟩

theorem not_calm_panic (rest : List τ) : ¬ (panic rest : Read τ α).Calm bound := fun h => h.1 rfl

theorem calm_after {x : Read τ α} {y : Read τ β} (hx : x.answer ≠ .panicked) :
    (x.after y).Calm bound ↔ x.Calm bound ∧ y.Calm bound := by
  unfold Calm after
  simp only [Bool.or_eq_false_iff, List.forall_mem_append]
  tauto

theorem not_calm_bind {x : Read τ α} {f : α → List τ → Read τ β} (hx : ¬ x.Calm bound) :
    ¬ (x.bind f).Calm bound := by
  unfold bind
  cases hanswer : x.answer with
  | value a =>
    rw [calm_after (by rw [hanswer]; rintro ⟨⟩)]
    exact fun h => hx h.1
  | refused =>
    rw [calm_after (by rw [hanswer]; rintro ⟨⟩)]
    exact fun h => hx h.1
  | panicked => exact fun h => h.1 rfl

end Read

open Read

namespace Read.Sound

variable {bound : ℕ} {input : List τ} {x : Read τ α} {plain : Option (α × List τ)} {hazard : Prop}

theorem safe_iff {factor : ℕ} (h : Sound (factor * input.length) input x plain hazard) :
    x.Safe factor input ↔ ¬ hazard := by
  constructor
  · intro hsafe
    exact h.calm_iff.mp hsafe.calm
  · intro hnot
    have hcalm := h.calm_iff.mpr hnot
    exact ⟨hcalm, h.suffix hcalm⟩

theorem congr {hazard' : Prop} (h : Sound bound input x plain hazard) (heq : hazard ↔ hazard') :
    Sound bound input x plain hazard' :=
  ⟨h.calm_iff.trans (not_congr heq), h.suffix, h.agrees⟩

theorem plain_eq {plain' : Option (α × List τ)} (h : Sound bound input x plain hazard)
    (heq : plain = plain') : Sound bound input x plain' hazard := heq ▸ h

/-- What is left of a longer input. -/
theorem longer {input' : List τ} (h : Sound bound input x plain hazard)
    (hsuffix : input <:+ input') : Sound bound input' x plain hazard :=
  ⟨h.calm_iff, fun hcalm => (h.suffix hcalm).trans hsuffix, h.agrees⟩

theorem pure (a : α) {input rest : List τ} (hrest : rest <:+ input) :
    Sound bound input (.pure a rest) (some (a, rest)) False where
  calm_iff := ⟨fun _ => id, fun _ => calm_pure a rest⟩
  suffix _ := hrest
  agrees _ := rfl

theorem refuse {input rest : List τ} (hrest : rest <:+ input) :
    Sound bound input (.refuse rest : Read τ α) none False where
  calm_iff := ⟨fun _ => id, fun _ => calm_refuse rest⟩
  suffix _ := hrest
  agrees _ := rfl

theorem of_not_calm (hx : ¬ x.Calm bound) (hhazard : hazard) :
    Sound bound input x plain hazard where
  calm_iff := ⟨fun hcalm => absurd hcalm hx, fun hnot => absurd hhazard hnot⟩
  suffix hcalm := absurd hcalm hx
  agrees hcalm := absurd hcalm hx

/-- The rule for the operator `?`: the second part is only asked about what the first
one yields and leaves. -/
theorem bind {f : α → List τ → Read τ β} {plain' : α × List τ → Option (β × List τ)}
    {hazard' : α → List τ → Prop} (h : Sound bound input x plain hazard)
    (hf : ∀ a rest, plain = some (a, rest) → rest <:+ input →
      Sound bound input (f a rest) (plain' (a, rest)) (hazard' a rest)) :
    Sound bound input (x.bind f) (plain.bind plain')
      (hazard ∨ ∃ a rest, plain = some (a, rest) ∧ hazard' a rest) := by
  by_cases hcalm : x.Calm bound
  · have hnot := h.calm_iff.mp hcalm
    have hplain := h.agrees hcalm
    unfold Read.bind
    cases hanswer : x.answer with
    | value a =>
      rw [hanswer] at hplain
      have hnext := hf a x.rest hplain (h.suffix hcalm)
      have hafter : (x.after (f a x.rest)).Calm bound ↔ (f a x.rest).Calm bound := by
        rw [calm_after hcalm.1, and_iff_right hcalm]
      constructor
      · rw [hafter, hnext.calm_iff, hplain]
        simp [Answer.toOption, hnot]
      · exact fun hall => hnext.suffix (hafter.mp hall)
      · intro hall
        rw [hplain]
        exact hnext.agrees (hafter.mp hall)
    | refused =>
      rw [hanswer] at hplain
      constructor
      · rw [calm_after hcalm.1, hplain]
        simp [Answer.toOption, hnot, hcalm, calm_refuse]
      · exact fun _ => h.suffix hcalm
      · intro _
        rw [hplain]
        rfl
    | panicked => exact absurd hanswer hcalm.1
  · have hhazard : hazard := by
      by_contra hnot
      exact hcalm (h.calm_iff.mpr hnot)
    exact of_not_calm (not_calm_bind hcalm) (.inl hhazard)

/-- The same after a part that cannot go wrong. -/
theorem bindClear {f : α → List τ → Read τ β} {plain' : α × List τ → Option (β × List τ)}
    {hazard' : α → List τ → Prop} (h : Sound bound input x plain False)
    (hf : ∀ a rest, plain = some (a, rest) → rest <:+ input →
      Sound bound input (f a rest) (plain' (a, rest)) (hazard' a rest)) :
    Sound bound input (x.bind f) (plain.bind plain')
      (∃ a rest, plain = some (a, rest) ∧ hazard' a rest) :=
  (h.bind hf).congr (iff_of_eq (false_or _))

/-- The same before a part that cannot go wrong. -/
theorem bindCalm {f : α → List τ → Read τ β} {plain' : α × List τ → Option (β × List τ)}
    (h : Sound bound input x plain hazard)
    (hf : ∀ a rest, plain = some (a, rest) → rest <:+ input →
      Sound bound input (f a rest) (plain' (a, rest)) False) :
    Sound bound input (x.bind f) (plain.bind plain') hazard := by
  refine (h.bind hf).congr ?_
  simp

theorem map (g : α → β) (h : Sound bound input x plain hazard) :
    Sound bound input (x.map g) (plain.bind fun r => some (g r.1, r.2)) hazard :=
  h.bindCalm fun a _ _ hrest => pure (g a) hrest

/-- Space above the bound, or above what can be had at all, is a hazard. -/
theorem reserve (limit n : ℕ) (h : Sound bound input x plain hazard) :
    Sound bound input (x.reserve limit n) plain (limit ≤ n ∨ bound < n ∨ hazard) := by
  unfold Read.reserve
  by_cases hlimit : n < limit
  · rw [if_pos hlimit]
    have hreserve : Calm bound (⟨x.answer, x.rest, n :: x.reserved, x.overflowed⟩ : Read τ α) ↔
        n ≤ bound ∧ x.Calm bound := by
      unfold Calm
      simp only [List.forall_mem_cons]
      tauto
    constructor
    · rw [hreserve, h.calm_iff]
      simp [hlimit]
    · exact fun hcalm => h.suffix (hreserve.mp hcalm).2
    · exact fun hcalm => h.agrees (hreserve.mp hcalm).2
  · rw [if_neg hlimit]
    exact of_not_calm (not_calm_panic x.rest) (.inl (Nat.le_of_not_lt hlimit))

/-- Space within the bound is there. -/
theorem reserveFew {limit n : ℕ} (h : Sound bound input x plain hazard) (hlimit : n < limit)
    (hbound : n ≤ bound) : Sound bound input (x.reserve limit n) plain hazard := by
  refine (h.reserve limit n).congr ?_
  rw [or_iff_right (Nat.not_le_of_lt hlimit), or_iff_right (Nat.not_lt_of_le hbound)]

/-- An overflow is a hazard in either build. -/
theorem overflow {checks : Bool} {rest : List τ} (hhazard : hazard) :
    Sound bound input (x.overflow checks rest) plain hazard := by
  refine of_not_calm ?_ hhazard
  unfold Read.overflow
  rintro ⟨-, hoverflowed, -⟩
  split_ifs at hoverflowed

/-- The rule for reads that go on after a refusal. -/
theorem both {f : List τ → Read τ β} {plain' : List τ → Option (β × List τ)} {hazard' : Prop}
    (h : Sound bound input x plain hazard)
    (hf : x.rest <:+ input → Sound bound input (f x.rest) (plain' x.rest) hazard') :
    Sound bound input (x.both f)
      (plain.bind fun r => (plain' r.2).bind fun r' => some ((r.1, r'.1), r'.2))
      (hazard ∨ hazard') := by
  by_cases hcalm : x.Calm bound
  · have hnot := h.calm_iff.mp hcalm
    have hplain := h.agrees hcalm
    have hnext := hf (h.suffix hcalm)
    have hboth : x.both f = x.after ⟨Answer.both x.answer (f x.rest).answer, (f x.rest).rest,
        (f x.rest).reserved, (f x.rest).overflowed⟩ := by
      unfold Read.both
      cases hanswer : x.answer with
      | panicked => exact absurd hanswer hcalm.1
      | _ => rfl
    have hpanics : Answer.both x.answer (f x.rest).answer = .panicked ↔
        (f x.rest).answer = .panicked := by
      cases hanswer : x.answer with
      | panicked => exact absurd hanswer hcalm.1
      | _ => cases (f x.rest).answer <;> simp [Answer.both]
    have hafter : (x.both f).Calm bound ↔ (f x.rest).Calm bound := by
      rw [hboth, calm_after hcalm.1, and_iff_right hcalm]
      unfold Calm
      simp only [ne_eq, hpanics]
    constructor
    · rw [hafter, hnext.calm_iff, not_or, and_iff_right hnot]
    · intro hall
      rw [hboth]
      exact hnext.suffix (hafter.mp hall)
    · intro hall
      have hsecond := hnext.agrees (hafter.mp hall)
      rw [hboth, hplain]
      cases hanswer : x.answer with
      | panicked => exact absurd hanswer hcalm.1
      | value a =>
        simp only [Answer.toOption, Option.bind_some, hsecond]
        cases (f x.rest).answer <;> rfl
      | refused =>
        simp only [Answer.toOption, Option.bind_none]
        cases (f x.rest).answer <;> rfl
  · have hhazard : hazard := by
      by_contra hnot
      exact hcalm (h.calm_iff.mpr hnot)
    refine of_not_calm ?_ (.inl hhazard)
    unfold Read.both
    cases hanswer : x.answer with
    | panicked => exact fun hall => hall.1 rfl
    | _ =>
      simp only
      rw [calm_after (by rw [hanswer]; rintro ⟨⟩)]
      exact fun hall => hcalm hall.1

end Read.Sound

end OrionNetwork.Reads
