import Mathlib.Data.List.Basic
import Mathlib.Tactic

/-!
# Input that arrives in chunks

A stream delivers its data in chunks of any size, with moments in between at which
nothing is there yet. A read takes what fits of the chunk that is due and leaves the
rest of it for later, so that it is not known how much a read delivers. At the end of
the stream a read delivers nothing.
-/
namespace OrionNetwork.ChunkedInput

variable {τ : Type}

abbrev Chunk (τ : Type) := { l : List τ // l ≠ [] }

/-- What is still to come, with `none` where a read has to wait. -/
abbrev Source (τ : Type) := List (Option (Chunk τ))

inductive Delivery (τ : Type) where
  | wait
  | data (l : List τ)

namespace Source

/-- All the data that is still to come. -/
def left (s : Source τ) : List τ := s.flatMap fun arrival => arrival.elim [] Subtype.val

/-- How often a read has yet to wait. -/
def delays (s : Source τ) : ℕ := s.countP Option.isNone

@[simp] theorem left_nil : left ([] : Source τ) = [] := rfl

@[simp] theorem left_none (s : Source τ) : left (none :: s) = left s := rfl

@[simp] theorem left_some (chunk : Chunk τ) (s : Source τ) :
    left (some chunk :: s) = chunk.val ++ left s := rfl

@[simp] theorem delays_nil : delays ([] : Source τ) = 0 := rfl

@[simp] theorem delays_none (s : Source τ) : delays (none :: s) = delays s + 1 := by
  simp [delays]

@[simp] theorem delays_some (chunk : Chunk τ) (s : Source τ) :
    delays (some chunk :: s) = delays s := by
  simp [delays]

theorem drop_ne_nil {room : ℕ} {l : List τ} (h : room < l.length) : l.drop room ≠ [] := by
  rw [ne_eq, List.drop_eq_nil_iff]
  omega

/-- A read with room for so many items. -/
def poll (room : ℕ) : Source τ → Delivery τ × Source τ
  | [] => (.data [], [])
  | none :: s => (.wait, s)
  | some chunk :: s =>
    if h : room < chunk.val.length then
      (.data (chunk.val.take room), some ⟨chunk.val.drop room, drop_ne_nil h⟩ :: s)
    else (.data chunk.val, s)

/-- A read waits, delivers the beginning of what is left, or finds the end. -/
theorem poll_cases {room : ℕ} (hroom : 0 < room) (s : Source τ) :
    (∃ s', poll room s = (.wait, s') ∧ left s' = left s ∧ delays s' + 1 = delays s) ∨
    (∃ l s', poll room s = (.data l, s') ∧ 0 < l.length ∧ l.length ≤ room ∧
      left s = l ++ left s' ∧ delays s' = delays s) ∨
    s = [] ∧ poll room s = (.data [], []) := by
  cases s with
  | nil => exact .inr (.inr ⟨rfl, rfl⟩)
  | cons arrival s =>
    cases arrival with
    | none => exact .inl ⟨s, rfl, rfl, (delays_none s).symm⟩
    | some chunk =>
      right
      left
      by_cases hlong : room < chunk.val.length
      · refine ⟨_, _, dif_pos hlong, ?_, ?_, ?_, rfl⟩
        · rw [List.length_take]
          omega
        · exact List.length_take_le _ _
        · rw [left_some, left_some, ← List.append_assoc, List.take_append_drop]
      · exact ⟨_, _, dif_neg hlong, List.length_pos_of_ne_nil chunk.property,
          Nat.le_of_not_lt hlong, rfl, rfl⟩

/-- A read that is polled again until it does not have to wait. -/
def read (room : ℕ) : Source τ → List τ × Source τ
  | [] => ([], [])
  | none :: s => read room s
  | some chunk :: s =>
    if h : room < chunk.val.length then
      (chunk.val.take room, some ⟨chunk.val.drop room, drop_ne_nil h⟩ :: s)
    else (chunk.val, s)

theorem read_eq_of_wait {room : ℕ} {s s' : Source τ} (h : poll room s = (.wait, s')) :
    read room s = read room s' := by
  cases s with
  | nil => cases h
  | cons arrival s =>
    cases arrival with
    | none =>
      cases h
      rfl
    | some chunk =>
      rw [poll] at h
      split_ifs at h
      · cases h
      · cases h

theorem read_eq_of_data {room : ℕ} {s s' : Source τ} {l : List τ}
    (h : poll room s = (.data l, s')) : read room s = (l, s') := by
  cases s with
  | nil =>
    cases h
    rfl
  | cons arrival s =>
    cases arrival with
    | none => cases h
    | some chunk =>
      rw [poll] at h
      rw [read]
      by_cases hlong : room < chunk.val.length
      · rw [dif_pos hlong] at h ⊢
        cases h
        rfl
      · rw [dif_neg hlong] at h ⊢
        cases h
        rfl

/-- A read delivers the beginning of what is left, and something if there is anything. -/
theorem read_spec {room : ℕ} (hroom : 0 < room) (s : Source τ) :
    (read room s).1 ++ left (read room s).2 = left s ∧ (read room s).1.length ≤ room ∧
      (left s ≠ [] → (read room s).1 ≠ []) := by
  induction hdelays : delays s using Nat.strong_induction_on generalizing s with
  | _ n ih =>
    rcases poll_cases hroom s with ⟨s', hpoll, hleft, hless⟩ |
      ⟨l, s', hpoll, hsome, hfits, hleft, -⟩ | ⟨rfl, -⟩
    · rw [read_eq_of_wait hpoll, ← hleft]
      exact ih (delays s') (by omega) s' rfl
    · rw [read_eq_of_data hpoll]
      exact ⟨hleft.symm, hfits, fun _ => List.ne_nil_of_length_pos hsome⟩
    · exact ⟨rfl, Nat.zero_le _, fun h => h⟩

end Source

end OrionNetwork.ChunkedInput
