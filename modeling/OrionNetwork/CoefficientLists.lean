import OrionNetwork.EvaluationCode
import Mathlib.Data.List.DropRight

/-!
# Coefficients in lists

A list of coefficients, the lowest first, and the polynomial that it stands for. Zeros at the
end change the list only, and without them the length tells the degree.
-/
namespace OrionNetwork.CoefficientLists
open Polynomial EvaluationCode

variable {F : Type*} [Field F]

noncomputable def value (l : List F) : F[X] := polynomial l.length fun m => l.getD m 0

@[simp] theorem value_nil : value ([] : List F) = 0 := by simp [value, polynomial]

theorem value_cons (x : F) (l : List F) : value (x :: l) = C x + X * value l := by
  unfold value polynomial
  rw [List.length_cons, Finset.sum_range_succ', add_comm, Finset.mul_sum]
  congr 1
  · simp
  · apply Finset.sum_congr rfl
    intro m _
    simp only [List.getD_cons_succ]
    ring

theorem value_append (l r : List F) : value (l ++ r) = value l + X ^ l.length * value r := by
  induction l with
  | nil => simp
  | cons x l ih =>
    rw [List.cons_append, value_cons, ih, value_cons, List.length_cons]
    ring

theorem value_replicate (n : ℕ) : value (List.replicate n (0 : F)) = 0 := by
  induction n with
  | zero => exact value_nil
  | succ n ih => rw [List.replicate_succ, value_cons, ih, C_0, mul_zero, add_zero]

theorem value_append_zeros (l : List F) (n : ℕ) : value (l ++ List.replicate n 0) = value l := by
  rw [value_append, value_replicate, mul_zero, add_zero]

theorem value_shift (n : ℕ) (l : List F) :
    value (List.replicate n 0 ++ l) = X ^ n * value l := by
  rw [value_append, value_replicate, zero_add, List.length_replicate]

theorem value_scale (c : F) (l : List F) : value (l.map fun x => c * x) = C c * value l := by
  induction l with
  | nil => simp
  | cons x l ih =>
    rw [List.map_cons, value_cons, ih, value_cons, C_mul]
    ring

theorem degree_value_lt (l : List F) : (value l).degree < l.length := degree_polynomial _ _

theorem degree_value_concat {x : F} (hx : x ≠ 0) (l : List F) :
    (value (l ++ [x])).degree = l.length := by
  have hlast : (C x * X ^ l.length).degree = (l.length : WithBot ℕ) := degree_C_mul_X_pow _ hx
  rw [value_append, value_cons, value_nil, mul_zero, add_zero, mul_comm,
    degree_add_eq_right_of_degree_lt]
  · exact hlast
  · rw [hlast]
    exact degree_value_lt l

section Trimming

variable [DecidableEq F]

/-- What is left without zeros at the end. -/
def trim (l : List F) : List F := l.rdropWhile fun x => x = 0

theorem trim_concat (l : List F) (x : F) :
    trim (l ++ [x]) = if x = 0 then trim l else l ++ [x] := by
  rw [trim, List.rdropWhile_concat]
  simp only [decide_eq_true_eq]
  rfl

theorem exists_zeros (l : List F) : ∃ n, l = trim l ++ List.replicate n 0 := by
  induction l using List.reverseRecOn with
  | nil => exact ⟨0, rfl⟩
  | append_singleton l x ih =>
    rw [trim_concat]
    split_ifs with hx
    · obtain ⟨n, hn⟩ := ih
      refine ⟨n + 1, ?_⟩
      nth_rewrite 1 [hn, hx]
      rw [List.append_assoc, ← List.replicate_succ']
    · exact ⟨0, (List.append_nil _).symm⟩

theorem value_trim (l : List F) : value (trim l) = value l := by
  obtain ⟨n, hn⟩ := exists_zeros l
  nth_rewrite 2 [hn]
  rw [value_append_zeros]

/-- Either nothing is left, or a list with a leading coefficient. -/
theorem trim_cases (l : List F) : trim l = [] ∨ ∃ m x, x ≠ 0 ∧ trim l = m ++ [x] := by
  induction l using List.reverseRecOn with
  | nil => exact .inl rfl
  | append_singleton l x ih =>
    rw [trim_concat]
    split_ifs with hx
    · exact ih
    · exact .inr ⟨l, x, hx, rfl⟩

theorem value_eq_zero_iff {l : List F} : value l = 0 ↔ trim l = [] := by
  rw [← value_trim l]
  rcases trim_cases l with h | ⟨m, x, hx, h⟩
  · simp [h]
  · have hne : value (m ++ [x]) ≠ 0 := by
      rw [Ne, ← degree_eq_bot, degree_value_concat hx]
      exact WithBot.coe_ne_bot
    simp [h, hne]

end Trimming

end OrionNetwork.CoefficientLists
