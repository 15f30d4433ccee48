import Mathlib.Data.List.Basic
import Mathlib.Tactic

/-!
# Vectors with unordered removal

Removal by swapping in the last element keeps no order, so the facts here are
up to permutation. A linear map is a vector of pairs that is searched from its
beginning.
-/
namespace OrionNetwork.Collections

variable {α K V : Type*}

/-- The element at `i` is replaced by the last one, whose cell is given up. -/
def swapRemove (l : List α) (i : ℕ) : List α :=
  match l.getLast? with
  | none => []
  | some last => (l.set i last).dropLast

/-- The first element that passes the test, and what is left without it. -/
def findAndRemove (q : α → Bool) (l : List α) : Option (α × List α) :=
  match l.findIdx? q with
  | none => none
  | some i => l[i]?.map fun a => (a, swapRemove l i)

/-- The elements that pass the test are taken out, in order. -/
def extractIf (q : α → Bool) (l : List α) : List α × List α :=
  (l.filter q, l.filter fun a => !q a)

/-- The first element that passes the test is changed in place. -/
def updateFirst (q : α → Bool) (f : α → α) : List α → List α
  | [] => []
  | a :: l => if q a then f a :: l else a :: updateFirst q f l

/-- A step for each element of a list; the first error ends the loop. -/
def loop {ε σ : Type*} (f : σ → α → Except ε σ) : List α → σ → Except ε σ
  | [], s => .ok s
  | a :: l, s =>
    match f s a with
    | .error e => .error e
    | .ok s => loop f l s

theorem perm_swapRemove {l : List α} {i : ℕ} {a : α} (h : l[i]? = some a) :
    l.Perm (a :: swapRemove l i) := by
  obtain rfl | ⟨init, last, rfl⟩ := List.eq_nil_or_concat l
  · simp at h
  rw [List.concat_eq_append] at h ⊢
  obtain ⟨hi, rfl⟩ := List.getElem?_eq_some_iff.mp h
  simp only [swapRemove, List.getLast?_append, List.getLast?_singleton, Option.some_or]
  by_cases hlast : i < init.length
  · rw [List.set_append_left _ _ hlast, List.dropLast_concat, List.getElem_append_left hlast]
    calc (init ++ [last]).Perm (last :: init) := List.perm_append_singleton last init
      _ |>.Perm (last :: init[i] :: init.eraseIdx i) :=
        ((List.getElem_cons_eraseIdx_perm hlast).symm).cons last
      _ |>.Perm (init[i] :: last :: init.eraseIdx i) := .swap _ _ _
      _ |>.Perm (init[i] :: init.set i last) :=
        ((List.set_perm_cons_eraseIdx hlast last).symm).cons _
  · have hend : i = init.length := by
      rw [List.length_append, List.length_singleton] at hi
      omega
    subst hend
    simp

/-- The last element takes the place of the one in the middle, whatever that is. -/
theorem swapRemove_append_cons (pre post : List α) (a : α) :
    swapRemove (pre ++ a :: post) pre.length = pre ++ (post.getLast?.toList ++ post.dropLast) := by
  unfold swapRemove
  obtain rfl | ⟨init, last, rfl⟩ := List.eq_nil_or_concat post
  · simp
  · have hlast : (pre ++ a :: (init.concat last)).getLast? = some last := by
      simp [List.getLast?_append, List.getLast?_cons]
    have hset : (pre ++ a :: init.concat last).set pre.length last =
        pre ++ last :: init ++ [last] := by
      simp
    simp only [hlast, hset, List.dropLast_concat]
    simp

theorem perm_getLast?_dropLast (l : List α) : (l.getLast?.toList ++ l.dropLast).Perm l := by
  obtain rfl | ⟨init, last, rfl⟩ := List.eq_nil_or_concat l
  · simp
  · simpa using (List.perm_append_comm : ([last] ++ init).Perm (init ++ [last]))

theorem length_dropLast_of_getLast? {l : List α} {a : α} (h : l.getLast? = some a) :
    l.dropLast.length + 1 = l.length := by
  have hlength := (perm_getLast?_dropLast l).length_eq
  rw [h, Option.toList_some, List.length_append, List.length_singleton] at hlength
  omega

theorem findAndRemove_some {q : α → Bool} {l rest : List α} {a : α}
    (h : findAndRemove q l = some (a, rest)) : q a = true ∧ l.Perm (a :: rest) := by
  unfold findAndRemove at h
  split at h
  · cases h
  · next i hidx =>
    obtain ⟨b, hb, hpair⟩ := Option.map_eq_some_iff.mp h
    cases hpair
    obtain ⟨hi, hq, -⟩ := List.findIdx?_eq_some_iff_getElem.mp hidx
    rw [List.getElem?_eq_getElem hi] at hb
    cases hb
    exact ⟨hq, perm_swapRemove (List.getElem?_eq_getElem hi)⟩

theorem findAndRemove_eq_none {q : α → Bool} {l : List α} (h : findAndRemove q l = none) :
    ∀ a ∈ l, q a = false := by
  unfold findAndRemove at h
  split at h
  · next hidx => exact List.findIdx?_eq_none_iff.mp hidx
  · next i hidx =>
    obtain ⟨hi, -, -⟩ := List.findIdx?_eq_some_iff_getElem.mp hidx
    rw [List.getElem?_eq_getElem hi] at h
    cases h

theorem extractIf_perm (q : α → Bool) (l : List α) :
    ((extractIf q l).1 ++ (extractIf q l).2).Perm l :=
  List.filter_append_perm q l

theorem mem_updateFirst {q : α → Bool} {f : α → α} {l : List α} {a : α}
    (h : a ∈ updateFirst q f l) : a ∈ l ∨ ∃ b, l.find? q = some b ∧ a = f b := by
  induction l with
  | nil => cases h
  | cons b l ih =>
    unfold updateFirst at h
    by_cases hb : q b = true
    · rw [if_pos hb] at h
      rcases List.mem_cons.mp h with rfl | h
      · exact .inr ⟨b, List.find?_cons_of_pos hb, rfl⟩
      · exact .inl (List.mem_cons_of_mem b h)
    · rw [if_neg hb] at h
      rw [List.find?_cons_of_neg hb]
      rcases List.mem_cons.mp h with rfl | h
      · exact .inl List.mem_cons_self
      · exact (ih h).imp_left (List.mem_cons_of_mem b)

theorem updated_mem {q : α → Bool} {l : List α} {a : α} (h : l.find? q = some a) (f : α → α) :
    f a ∈ updateFirst q f l := by
  induction l with
  | nil => cases h
  | cons b l ih =>
    unfold updateFirst
    by_cases hb : q b = true
    · rw [List.find?_cons_of_pos hb] at h
      cases h
      rw [if_pos hb]
      exact List.mem_cons_self
    · rw [List.find?_cons_of_neg hb] at h
      rw [if_neg hb]
      exact List.mem_cons_of_mem b (ih h)

/-- What the change does not touch. -/
theorem map_updateFirst {β : Type*} {g : α → β} {f : α → α} (hg : ∀ a, g (f a) = g a)
    (q : α → Bool) (l : List α) : (updateFirst q f l).map g = l.map g := by
  induction l with
  | nil => rfl
  | cons a l ih =>
    unfold updateFirst
    split_ifs
    · rw [List.map_cons, List.map_cons, hg]
    · rw [List.map_cons, List.map_cons, ih]

theorem mapM_eq_some_iff {β : Type*} {f : α → Option β} {l : List α} {l' : List β} :
    l.mapM f = some l' ↔ l.map f = l'.map some := by
  induction l generalizing l' with
  | nil =>
    rw [List.mapM_nil, List.map_nil, eq_comm (a := []), List.map_eq_nil_iff]
    exact Option.some_inj.trans eq_comm
  | cons a l ih =>
    constructor
    · intro h
      rw [List.mapM_cons] at h
      obtain ⟨b, hb, h⟩ := Option.bind_eq_some_iff.mp h
      obtain ⟨rest, hrest, h⟩ := Option.bind_eq_some_iff.mp h
      cases h
      rw [List.map_cons, List.map_cons, hb, ih.mp hrest]
    · intro h
      cases l' with
      | nil => cases h
      | cons b rest =>
        rw [List.map_cons, List.map_cons, List.cons.injEq] at h
        rw [List.mapM_cons, h.1, ih.mpr h.2]
        rfl

theorem length_of_mapM {β : Type*} {f : α → Option β} {l : List α} {l' : List β}
    (h : l.mapM f = some l') : l'.length = l.length := by
  rw [← List.length_map (f := f), mapM_eq_some_iff.mp h, List.length_map]

theorem exists_of_mapM {β : Type*} {f : α → Option β} {l : List α} {l' : List β}
    (h : l.mapM f = some l') {b : β} (hb : b ∈ l') : ∃ a ∈ l, f a = some b := by
  have hmem : some b ∈ l.map f := by
    rw [mapM_eq_some_iff.mp h]
    exact List.mem_map_of_mem hb
  exact List.mem_map.mp hmem

/-- What a single round keeps is kept by the loop. -/
theorem loop_invariant {ε σ : Type*} {f : σ → α → Except ε σ} {P : List α → σ → Prop}
    {l : List α} {s t : σ} (h : loop f l s = .ok t) (h0 : P l s)
    (hstep : ∀ a l s t, P (a :: l) s → f s a = .ok t → P l t) : P [] t := by
  induction l generalizing s with
  | nil =>
    cases h
    exact h0
  | cons a l ih =>
    unfold loop at h
    split at h
    · cases h
    · next u hu => exact ih h (hstep a l s u h0 hu)

/-- Related states stay related in a loop over the same elements. -/
theorem loop_lockstep {ε σ : Type*} {f : σ → α → Except ε σ} {R : σ → σ → Prop} {l : List α}
    {s t : σ} (h : loop f l s = .ok t) (s' : σ) (h0 : R s s')
    (hstep : ∀ a s s' t, R s s' → f s a = .ok t → ∃ t', f s' a = .ok t' ∧ R t t') :
    ∃ t', loop f l s' = .ok t' ∧ R t t' := by
  induction l generalizing s s' with
  | nil =>
    cases h
    exact ⟨s', rfl, h0⟩
  | cons a l ih =>
    unfold loop at h ⊢
    split at h
    · cases h
    · next u hu =>
      obtain ⟨u', hu', hR⟩ := hstep a s s' u h0 hu
      rw [hu']
      exact ih h u' hR

/-- A loop whose rounds all succeed. -/
theorem loop_total {ε σ : Type*} {f : σ → α → Except ε σ} {P : σ → Prop} {s : σ} (h0 : P s)
    (l : List α) (hstep : ∀ a s, P s → ∃ t, f s a = .ok t ∧ P t) :
    ∃ t, loop f l s = .ok t ∧ P t := by
  induction l generalizing s with
  | nil => exact ⟨s, rfl, h0⟩
  | cons a l ih =>
    obtain ⟨u, hu, hP⟩ := hstep a s h0
    obtain ⟨t, ht, hPt⟩ := ih hP
    refine ⟨t, ?_, hPt⟩
    rw [loop, hu]
    exact ht

section Guards

variable {ε π σ : Type*} {f : σ → α → Except ε σ}

/-- The loop comes to an element in a state that is bad for it. -/
def Comes (f : σ → α → Except ε σ) (bad : σ → α → Prop) (l : List α) (s : σ) : Prop :=
  ∃ before a after t, l = before ++ a :: after ∧ loop f before s = .ok t ∧ bad t a

theorem not_comes_nil {bad : σ → α → Prop} {s : σ} : ¬ Comes f bad [] s := by
  rintro ⟨before, a, after, t, hl, -⟩
  simp at hl

theorem comes_cons {bad : σ → α → Prop} {a : α} {l : List α} {s : σ} :
    Comes f bad (a :: l) s ↔ bad s a ∨ ∃ t, f s a = .ok t ∧ Comes f bad l t := by
  constructor
  · rintro ⟨before, b, after, t, hl, hloop, hbad⟩
    cases before with
    | nil =>
      cases hl
      cases hloop
      exact .inl hbad
    | cons c before =>
      obtain ⟨rfl, rfl⟩ := List.cons.inj hl
      unfold loop at hloop
      cases hround : f s a with
      | error e =>
        rw [hround] at hloop
        cases hloop
      | ok u =>
        rw [hround] at hloop
        exact .inr ⟨u, rfl, before, b, after, t, rfl, hloop, hbad⟩
  · rintro (hbad | ⟨u, hround, before, b, after, t, rfl, hloop, hbad⟩)
    · exact ⟨[], a, l, s, rfl, rfl, hbad⟩
    · refine ⟨a :: before, b, after, t, rfl, ?_, hbad⟩
      unfold loop
      rw [hround]
      exact hloop

theorem comes_and {p : Prop} {bad : σ → α → Prop} {l : List α} {s : σ} :
    Comes f (fun s a => p ∧ bad s a) l s ↔ p ∧ Comes f bad l s := by
  constructor
  · rintro ⟨before, a, after, t, hl, hloop, hp, hbad⟩
    exact ⟨hp, before, a, after, t, hl, hloop, hbad⟩
  · rintro ⟨hp, before, a, after, t, hl, hloop, hbad⟩
    exact ⟨before, a, after, t, hl, hloop, hp, hbad⟩

/-- Rounds that first check something fail there, and are the plain ones otherwise. -/
theorem loop_guarded {g : σ → α → Except (π ⊕ ε) σ} {bad : σ → α → Prop} {why : π}
    (hbad : ∀ s a, bad s a → g s a = .error (.inl why))
    (hgood : ∀ s a, ¬ bad s a → g s a = (f s a).mapError .inr) (l : List α) (s : σ) :
    (Comes f bad l s → loop g l s = .error (.inl why)) ∧
      (¬ Comes f bad l s → loop g l s = (loop f l s).mapError .inr) := by
  induction l generalizing s with
  | nil => exact ⟨fun h => absurd h not_comes_nil, fun _ => rfl⟩
  | cons a l ih =>
    rw [comes_cons]
    unfold loop
    by_cases hnow : bad s a
    · rw [hbad s a hnow]
      exact ⟨fun _ => rfl, fun h => absurd (.inl hnow) h⟩
    · rw [hgood s a hnow, or_iff_right hnow]
      cases hround : f s a with
      | error e =>
        refine ⟨?_, fun _ => rfl⟩
        rintro ⟨t, ht, -⟩
        cases ht
      | ok t =>
        obtain ⟨hcomes, hclear⟩ := ih t
        constructor
        · rintro ⟨u, hu, hlater⟩
          cases hu
          exact hcomes hlater
        · exact fun h => hclear fun hlater => h ⟨t, rfl, hlater⟩

end Guards

theorem loop_of_fixed {ε σ : Type*} {f : σ → α → Except ε σ} {l : List α} {s : σ}
    (h : ∀ a ∈ l, f s a = .ok s) : loop f l s = .ok s := by
  induction l with
  | nil => rfl
  | cons a l ih =>
    unfold loop
    rw [h a List.mem_cons_self]
    exact ih fun b hb => h b (List.mem_cons_of_mem a hb)

/-- A map as a vector of pairs. -/
abbrev LinearMap (K V : Type*) := List (K × V)

namespace LinearMap

variable [DecidableEq K]

def get (m : LinearMap K V) (key : K) : Option V := (m.find? fun e => e.1 = key).map (·.2)

def insert (key : K) (value : V) : LinearMap K V → LinearMap K V
  | [] => [(key, value)]
  | e :: m => if e.1 = key then (e.1, value) :: m else e :: insert key value m

def remove (m : LinearMap K V) (key : K) : LinearMap K V :=
  match m.findIdx? fun e => e.1 = key with
  | none => m
  | some i => swapRemove m i

def keys (m : LinearMap K V) : List K := m.map Prod.fst

variable {m : LinearMap K V} {key : K}

theorem get_eq_none_iff : m.get key = none ↔ key ∉ m.keys := by
  simp only [get, keys, Option.map_eq_none_iff, List.find?_eq_none, List.mem_map,
    decide_eq_true_eq]
  constructor
  · rintro h ⟨e, he, rfl⟩
    exact h e he rfl
  · rintro h e he rfl
    exact h ⟨e, he, rfl⟩

theorem keys_insert (value : V) :
    (m.insert key value).keys = if key ∈ m.keys then m.keys else m.keys ++ [key] := by
  induction m with
  | nil => rfl
  | cons e m ih =>
    unfold keys at ih ⊢
    by_cases h : e.1 = key
    · simp [insert, h]
    · have hne : key ≠ e.1 := Ne.symm h
      simp only [insert, h, if_false, List.map_cons, ih, List.mem_cons, hne, false_or]
      split_ifs <;> rfl

theorem mem_keys_insert {value : V} {other : K} :
    other ∈ (m.insert key value).keys ↔ other = key ∨ other ∈ m.keys := by
  rw [keys_insert]
  split_ifs with h
  · constructor
    · exact .inr
    · rintro (rfl | h')
      · exact h
      · exact h'
  · rw [List.mem_append, List.mem_singleton, or_comm]

theorem nodup_keys_insert (h : m.keys.Nodup) (key : K) (value : V) :
    (m.insert key value).keys.Nodup := by
  rw [keys_insert]
  split_ifs with hkey
  · exact h
  · refine List.nodup_append.mpr ⟨h, List.nodup_singleton key, ?_⟩
    rintro a ha b hb rfl
    exact hkey (List.mem_singleton.mp hb ▸ ha)

theorem insert_of_not_mem (h : key ∉ m.keys) (value : V) :
    m.insert key value = m ++ [(key, value)] := by
  induction m with
  | nil => rfl
  | cons e m ih =>
    unfold keys at h ih
    rw [List.map_cons, List.mem_cons, not_or] at h
    rw [insert, if_neg (Ne.symm h.1), ih h.2, List.cons_append]

theorem get_insert_self (value : V) : (m.insert key value).get key = some value := by
  induction m with
  | nil => simp [insert, get]
  | cons e m ih =>
    unfold get at ih ⊢
    by_cases h : e.1 = key
    · simp [insert, h]
    · rw [insert, if_neg h, List.find?_cons_of_neg (by simpa using h), ih]

theorem mem_of_mem_insert {value : V} {e : K × V} (h : e ∈ m.insert key value) :
    e = (key, value) ∨ e ∈ m := by
  induction m with
  | nil => exact .inl (List.mem_singleton.mp h)
  | cons first m ih =>
    unfold insert at h
    split_ifs at h with hkey
    · rcases List.mem_cons.mp h with rfl | h
      · exact .inl (Prod.ext hkey rfl)
      · exact .inr (List.mem_cons_of_mem first h)
    · rcases List.mem_cons.mp h with rfl | h
      · exact .inr List.mem_cons_self
      · exact (ih h).imp_right (List.mem_cons_of_mem first)

theorem perm_remove (h : key ∈ m.keys) :
    ∃ value, List.Perm m ((key, value) :: m.remove key) := by
  unfold remove
  cases hidx : m.findIdx? fun e => e.1 = key with
  | none =>
    obtain ⟨e, he, rfl⟩ := List.mem_map.mp h
    simpa using List.findIdx?_eq_none_iff.mp hidx e he
  | some i =>
    obtain ⟨hi, heq, -⟩ := List.findIdx?_eq_some_iff_getElem.mp hidx
    refine ⟨m[i].2, perm_swapRemove ?_⟩
    rw [List.getElem?_eq_getElem hi, ← of_decide_eq_true heq]

theorem remove_eq_self (h : key ∉ m.keys) : m.remove key = m := by
  unfold remove
  have hnone : (m.findIdx? fun e => e.1 = key) = none := by
    refine List.findIdx?_eq_none_iff.mpr ?_
    intro e he
    refine decide_eq_false ?_
    rintro rfl
    exact h (List.mem_map_of_mem he)
  rw [hnone]

theorem mem_of_mem_remove {other : K} (h : other ∈ (m.remove key).keys) : other ∈ m.keys := by
  by_cases hkey : key ∈ m.keys
  · obtain ⟨value, hperm⟩ := perm_remove hkey
    have hkeys : m.keys.Perm (key :: (m.remove key).keys) := hperm.map Prod.fst
    exact hkeys.mem_iff.mpr (List.mem_cons_of_mem key h)
  · rwa [remove_eq_self hkey] at h

theorem mem_of_get {value : V} (h : m.get key = some value) : (key, value) ∈ m := by
  obtain ⟨e, he, rfl⟩ := Option.map_eq_some_iff.mp h
  have hkey : e.1 = key := by simpa using List.find?_some he
  rw [← hkey]
  exact List.mem_of_find?_eq_some he

theorem mem_keys_of_get {value : V} (h : m.get key = some value) : key ∈ m.keys :=
  List.mem_map_of_mem (mem_of_get h)

/-- Where keys are distinct a pair is what is found. -/
theorem get_eq_some_iff (h : m.keys.Nodup) {value : V} :
    m.get key = some value ↔ (key, value) ∈ m := by
  refine ⟨mem_of_get, fun hmem => ?_⟩
  cases hget : m.get key with
  | none => exact absurd (List.mem_map_of_mem hmem) (get_eq_none_iff.mp hget)
  | some other =>
    have hpair := List.inj_on_of_nodup_map h (mem_of_get hget) hmem rfl
    rw [(Prod.mk.inj hpair).2]

/-- Without a key that was there once. -/
theorem keys_remove (h : m.keys.Nodup) (key : K) :
    (m.remove key).keys.Nodup ∧
      ∀ other, other ∈ (m.remove key).keys ↔ other ∈ m.keys ∧ other ≠ key := by
  by_cases hkey : key ∈ m.keys
  · obtain ⟨value, hperm⟩ := perm_remove hkey
    have hkeys : m.keys.Perm (key :: (m.remove key).keys) := hperm.map Prod.fst
    obtain ⟨hout, hnodup⟩ := List.nodup_cons.mp (hkeys.nodup_iff.mp h)
    refine ⟨hnodup, ?_⟩
    intro other
    rw [hkeys.mem_iff, List.mem_cons]
    constructor
    · intro hmem
      refine ⟨.inr hmem, ?_⟩
      rintro rfl
      exact hout hmem
    · rintro ⟨rfl | hmem, hne⟩
      · exact absurd rfl hne
      · exact hmem
  · rw [remove_eq_self hkey]
    refine ⟨h, fun other => ⟨fun hmem => ⟨hmem, ?_⟩, And.left⟩⟩
    rintro rfl
    exact hkey hmem

theorem get_remove_of_ne (h : m.keys.Nodup) {other : K} (hne : other ≠ key) :
    (m.remove key).get other = m.get other := by
  by_cases hkey : key ∈ m.keys
  · obtain ⟨value, hperm⟩ := perm_remove hkey
    ext v
    rw [get_eq_some_iff (keys_remove h key).1, get_eq_some_iff h, hperm.mem_iff, List.mem_cons]
    constructor
    · exact .inr
    · rintro (heq | hmem)
      · exact absurd (Prod.mk.inj heq).1 hne
      · exact hmem
  · rw [remove_eq_self hkey]

end LinearMap

end OrionNetwork.Collections
