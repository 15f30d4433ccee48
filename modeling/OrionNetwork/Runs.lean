import Mathlib.Data.List.Basic
import Mathlib.Tactic

/-!
# Runs of event-driven systems

A system is a labelled relation: `step s e t` says that handling the event `e`
in the state `s` may end in `t`. A run keeps the events handled so far, oldest
first, so that a property may speak about the history and not only about the
state. Every safety result is proved once per step and lifted by one rule.
-/
namespace OrionNetwork.Runs

variable {σ ε : Type*}

/-- The events `es` lead from `s` to the indexed state. -/
inductive Run (step : σ → ε → σ → Prop) (s : σ) : List ε → σ → Prop where
  | start : Run step s [] s
  | next {es : List ε} {t u : σ} (e : ε) :
      Run step s es t → step t e u → Run step s (es ++ [e]) u

/-- Only the steps admitted by `ok`. -/
def guarded (ok : σ → ε → Prop) (step : σ → ε → σ → Prop) : σ → ε → σ → Prop :=
  fun s e t => ok s e ∧ step s e t

namespace Run

variable {step : σ → ε → σ → Prop} {s t u : σ} {es : List ε}

/-- A property of histories and states that holds at the start and is kept by
every step holds along every run. -/
theorem invariant {P : List ε → σ → Prop} (h : Run step s es t) (h0 : P [] s)
    (hstep : ∀ es t e u, Run step s es t → P es t → step t e u → P (es ++ [e]) u) :
    P es t := by
  induction h with
  | start => exact h0
  | next e hr he ih => exact hstep _ _ e _ hr ih he

/-- The same rule for a property of states alone. -/
theorem stateInvariant {P : σ → Prop} (h : Run step s es t) (h0 : P s)
    (hstep : ∀ t e u, P t → step t e u → P u) : P t :=
  h.invariant (P := fun _ t => P t) h0 (fun _ t e u _ ht he => hstep t e u ht he)

theorem mono {step' : σ → ε → σ → Prop} (h : Run step s es t)
    (hsub : ∀ t e u, step t e u → step' t e u) : Run step' s es t := by
  induction h with
  | start => exact .start
  | next e _ he ih => exact .next e ih (hsub _ _ _ he)

theorem unguard {ok : σ → ε → Prop} (h : Run (guarded ok step) s es t) : Run step s es t :=
  h.mono (fun _ _ _ he => he.2)

/-- Events that are admitted in every state. -/
theorem guard {ok : σ → ε → Prop} (h : Run step s es t) (hok : ∀ e ∈ es, ∀ t, ok t e) :
    Run (guarded ok step) s es t := by
  induction h with
  | start => exact .start
  | next e _ he ih =>
    refine .next e (ih fun e he => hok e (List.mem_append_left _ he)) ⟨?_, he⟩
    exact hok e (List.mem_append_right _ (List.mem_singleton_self e)) _

theorem single {e : ε} (h : step s e t) : Run step s [e] t := by
  simpa using Run.next e .start h

theorem append {es' : List ε} (h : Run step s es t) (h' : Run step t es' u) :
    Run step s (es ++ es') u := by
  induction h' with
  | start => simpa using h
  | next e _ he ih => rw [← List.append_assoc]; exact .next e ih he

theorem of_concat {e : ε} (h : Run step s (es ++ [e]) u) : ∃ t, Run step s es t ∧ step t e u := by
  generalize hes : es ++ [e] = es' at h
  cases h with
  | start => simp at hes
  | next e' hr he =>
    obtain ⟨rfl, rfl⟩ : es = _ ∧ e = e' := by simpa using hes
    exact ⟨_, hr, he⟩

/-- Steps with one outcome make runs with one outcome. -/
theorem unique (hstep : ∀ s e t u, step s e t → step s e u → t = u) (h : Run step s es t)
    (h' : Run step s es u) : t = u := by
  induction h generalizing u with
  | start =>
    generalize hes : ([] : List ε) = es at h'
    cases h' with
    | start => rfl
    | next e _ _ => simp at hes
  | next e _ he ih =>
    obtain ⟨t', hr, he'⟩ := h'.of_concat
    cases ih hr
    exact hstep _ _ _ _ he he'

/-- Related states stay related when the same events are handled. -/
theorem lockstep {R : σ → σ → Prop} {s' : σ} (h : Run step s es t) (h0 : R s s')
    (hstep : ∀ t t' e u, R t t' → step t e u → ∃ u', step t' e u' ∧ R u u') :
    ∃ t', Run step s' es t' ∧ R t t' := by
  induction h with
  | start => exact ⟨s', .start, h0⟩
  | next e _ he ih =>
    obtain ⟨t', hr, hR⟩ := ih
    obtain ⟨u', he', hR'⟩ := hstep _ t' e _ hR he
    exact ⟨u', hr.next e he', hR'⟩

/-- A run of a function is computed by folding it. -/
theorem of_foldl {f : σ → ε → σ} (hstep : ∀ s e, step s e (f s e)) (s : σ) (es : List ε) :
    Run step s es (es.foldl f s) := by
  induction es using List.reverseRecOn with
  | nil => exact .start
  | append_singleton es e ih =>
    rw [List.foldl_append]
    exact .next e ih (hstep _ e)

/-- A run of a partial function is computed by folding it. -/
theorem of_foldlM {f : σ → ε → Option σ} (h : es.foldlM f s = some t) :
    Run (fun s e t => f s e = some t) s es t := by
  induction es using List.reverseRecOn generalizing t with
  | nil =>
    cases h
    exact .start
  | append_singleton es e ih =>
    rw [List.foldlM_append, Option.bind_eq_bind, Option.bind_eq_some_iff] at h
    obtain ⟨u, hu, he⟩ := h
    exact .next e (ih hu) (by simpa using he)

/-- When `ok` is what a step needs to keep `P`, the steps of a run are all
admitted exactly if the states of the run all have `P`. -/
theorem forall_iff_guarded {ok : σ → ε → Prop} {P I : σ → Prop}
    (hdet : ∀ s e t u, step s e t → step s e u → t = u) (h0 : I s) (hIP : ∀ t, I t → P t)
    (hkeep : ∀ t e u, I t → ok t e → step t e u → I u)
    (hneed : ∀ t e u, I t → step t e u → P u → ok t e) (h : Run step s es t) :
    (∀ es' t', es' <+: es → Run step s es' t' → P t') ↔ Run (guarded ok step) s es t := by
  constructor
  · intro hall
    induction h with
    | start => exact .start
    | next e hr he ih =>
      have hg := ih fun es' t' hinitial => hall es' t' (hinitial.trans (List.prefix_append _ _))
      have hI := hg.stateInvariant h0 fun t e u ht hs => hkeep t e u ht hs.1 hs.2
      exact .next e hg ⟨hneed _ e _ hI he (hall _ _ List.prefix_rfl (hr.next e he)), he⟩
  · intro hg
    clear h
    induction hg with
    | start =>
      intro es' t' hinitial hr
      cases List.prefix_nil.mp hinitial
      cases unique hdet .start hr
      exact hIP s h0
    | next e hg he ih =>
      intro es' t' hinitial hr
      rcases List.prefix_concat_iff.mp hinitial with rfl | hinitial
      · cases unique hdet (hg.unguard.next e he.2) hr
        exact hIP _ ((hg.next e he).stateInvariant h0 fun t e u ht hs => hkeep t e u ht hs.1 hs.2)
      · exact ih es' t' hinitial hr

end Run

end OrionNetwork.Runs
