import Mathlib.Data.List.Sort
import Mathlib.Data.List.Basic
import Mathlib.Tactic

/-!
# Sorted vectors

A vector whose keys strictly increase is searched by halving the range of
candidates, so a search that fails tells where the key belongs. Two such
vectors with the same members are equal. The second half is about taking a
vector apart from its ends: the smaller end comes first, and this sorts every
vector in which a value between two others is at least the smaller of them.
-/
namespace OrionNetwork.SortedVectors

section Search

variable {α K : Type*} [LinearOrder K] {key : α → K} {xs pre post : List α} {k : K}

/-- The keys strictly increase. -/
def Ascending (key : α → K) (xs : List α) : Prop := xs.Pairwise (key · < key ·)

instance : Decidable (Ascending key xs) := inferInstanceAs (Decidable (xs.Pairwise _))

/-- The candidates are at `left`, ..., `right - 1`. The fuel bounds their number. -/
def bisect (key : α → K) (xs : List α) (k : K) : ℕ → ℕ → ℕ → Except ℕ ℕ
  | 0, left, _ => .error left
  | fuel + 1, left, right =>
    if left < right then
      let mid := left + (right - left) / 2
      match xs[mid]? with
      | none => .error left
      | some x =>
        if key x = k then .ok mid
        else if key x < k then bisect key xs k fuel (mid + 1) right
        else bisect key xs k fuel left mid
    else .error left

/-- The index of an element with the key, or the index to insert one at. -/
def binarySearchByKey (key : α → K) (xs : List α) (k : K) : Except ℕ ℕ :=
  bisect key xs k xs.length 0 xs.length

theorem bisect_ok {fuel left right i : ℕ} (h : bisect key xs k fuel left right = .ok i) :
    ∃ x, xs[i]? = some x ∧ key x = k := by
  induction fuel generalizing left right with
  | zero => cases h
  | succ fuel ih =>
    simp only [bisect] at h
    split_ifs at h
    split at h
    · cases h
    · next x hx =>
      split_ifs at h with hkey hlt
      · cases h
        exact ⟨x, hx, hkey⟩
      · exact ih h
      · exact ih h

/-- Everything left of the candidates is below the key, everything right of
them above. -/
theorem bisect_error (hasc : Ascending key xs) {fuel left right i : ℕ}
    (h : bisect key xs k fuel left right = .error i) (hfuel : right - left ≤ fuel)
    (hle : left ≤ right) (hright : right ≤ xs.length)
    (hlow : ∀ x ∈ xs.take left, key x < k) (hhigh : ∀ x ∈ xs.drop right, k < key x) :
    i ≤ xs.length ∧ (∀ x ∈ xs.take i, key x < k) ∧ ∀ x ∈ xs.drop i, k < key x := by
  induction fuel generalizing left right with
  | zero =>
    obtain rfl : left = i := Except.error.inj h
    obtain rfl : left = right := by omega
    exact ⟨hright, hlow, hhigh⟩
  | succ fuel ih =>
    simp only [bisect] at h
    split_ifs at h with hlt
    · split at h
      · next hnone =>
        have hend := List.getElem?_eq_none_iff.mp hnone
        omega
      · next x hx =>
        obtain ⟨hmid, rfl⟩ := List.getElem?_eq_some_iff.mp hx
        have hsplit := hasc
        rw [Ascending, ← List.take_append_drop (left + (right - left) / 2) xs,
          List.pairwise_append, List.drop_eq_getElem_cons hmid, List.pairwise_cons] at hsplit
        obtain ⟨-, ⟨hafter, -⟩, hbefore⟩ := hsplit
        split_ifs at h with hkey hbelow
        · refine ih h (by omega) (by omega) hright ?_ hhigh
          intro y hy
          rw [List.take_succ_eq_append_getElem hmid, List.mem_append, List.mem_singleton] at hy
          rcases hy with hy | rfl
          · exact (hbefore y hy _ List.mem_cons_self).trans hbelow
          · exact hbelow
        · have habove : k < key xs[left + (right - left) / 2] :=
            lt_of_le_of_ne (not_lt.mp hbelow) (Ne.symm hkey)
          refine ih h (by omega) (by omega) hmid.le hlow ?_
          intro y hy
          rw [List.drop_eq_getElem_cons hmid] at hy
          rcases List.mem_cons.mp hy with rfl | hy
          · exact habove
          · exact habove.trans (hafter y hy)
    · obtain rfl : left = i := Except.error.inj h
      obtain rfl : left = right := by omega
      exact ⟨hright, hlow, hhigh⟩

theorem binarySearchByKey_ok {i : ℕ} (h : binarySearchByKey key xs k = .ok i) :
    ∃ pre x post, xs = pre ++ x :: post ∧ pre.length = i ∧ key x = k := by
  obtain ⟨x, hx, hkey⟩ := bisect_ok h
  obtain ⟨hi, rfl⟩ := List.getElem?_eq_some_iff.mp hx
  refine ⟨xs.take i, xs[i], xs.drop (i + 1), ?_, List.length_take_of_le hi.le, hkey⟩
  rw [← List.drop_eq_getElem_cons hi, List.take_append_drop]

theorem binarySearchByKey_error (hasc : Ascending key xs) {i : ℕ}
    (h : binarySearchByKey key xs k = .error i) :
    ∃ pre post, xs = pre ++ post ∧ pre.length = i ∧ (∀ x ∈ pre, key x < k) ∧
      ∀ x ∈ post, k < key x := by
  obtain ⟨hi, hlow, hhigh⟩ := bisect_error hasc h (by omega) (Nat.zero_le _) le_rfl
    (by simp) (by simp)
  exact ⟨xs.take i, xs.drop i, (List.take_append_drop i xs).symm, List.length_take_of_le hi,
    hlow, hhigh⟩

theorem Ascending.nodup (h : Ascending key xs) : xs.Nodup := by
  refine h.imp ?_
  rintro x _ hlt rfl
  exact lt_irrefl _ hlt

/-- The members determine the vector. -/
theorem Ascending.eq_of_mem_iff {ys : List α} (hxs : Ascending key xs) (hys : Ascending key ys)
    (hmem : ∀ x, x ∈ xs ↔ x ∈ ys) : xs = ys := by
  have hperm : xs.Perm ys := (List.perm_ext_iff_of_nodup hxs.nodup hys.nodup).mpr hmem
  refine hperm.eq_of_pairwise ?_ hxs hys
  intro x y hx hy hlt hgt
  exact absurd hlt hgt.not_gt

theorem ascending_append : Ascending key (pre ++ post) ↔
    Ascending key pre ∧ Ascending key post ∧ ∀ x ∈ pre, ∀ y ∈ post, key x < key y :=
  List.pairwise_append

theorem ascending_cons {x : α} :
    Ascending key (x :: xs) ↔ (∀ y ∈ xs, key x < key y) ∧ Ascending key xs :=
  List.pairwise_cons

/-- A key goes between the smaller and the larger ones. -/
theorem Ascending.append_cons {x : α} (hpre : Ascending key pre) (hpost : Ascending key post)
    (hlow : ∀ y ∈ pre, key y < key x) (hhigh : ∀ y ∈ post, key x < key y) :
    Ascending key (pre ++ x :: post) := by
  refine ascending_append.mpr ⟨hpre, ascending_cons.mpr ⟨hhigh, hpost⟩, ?_⟩
  intro y hy z hz
  rcases List.mem_cons.mp hz with rfl | hz
  · exact hlow y hy
  · exact (hlow y hy).trans (hhigh z hz)

theorem insertIdx_length_append (pre post : List α) (x : α) :
    (pre ++ post).insertIdx pre.length x = pre ++ x :: post := by
  induction pre with
  | nil => rfl
  | cons y pre ih => simp [ih]

theorem set_length_append (pre post : List α) (x y : α) :
    (pre ++ x :: post).set pre.length y = pre ++ y :: post := by
  rw [List.set_append_right _ _ le_rfl, Nat.sub_self, List.set_cons_zero]

theorem eraseIdx_length_append (pre post : List α) (x : α) :
    (pre ++ x :: post).eraseIdx pre.length = pre ++ post := by
  rw [List.eraseIdx_append_of_length_le le_rfl, Nat.sub_self, List.eraseIdx_cons_zero]

/-- What is left without one of the keys. -/
theorem Ascending.mem_append_iff {x y : α} (h : Ascending key (pre ++ x :: post)) :
    y ∈ pre ++ post ↔ y ∈ pre ++ x :: post ∧ key y ≠ key x := by
  rw [ascending_append, ascending_cons] at h
  obtain ⟨-, ⟨hhigh, -⟩, hlow⟩ := h
  simp only [List.mem_append, List.mem_cons]
  constructor
  · rintro (hy | hy)
    · exact ⟨.inl hy, (hlow y hy x List.mem_cons_self).ne⟩
    · exact ⟨.inr (.inr hy), (hhigh y hy).ne'⟩
  · rintro ⟨hy | rfl | hy, hne⟩
    · exact .inl hy
    · exact absurd rfl hne
    · exact .inr hy

end Search

section Drain

variable {α β : Type*} [LinearOrder β] {f : α → β}

/-- The smaller end first; the front if they are equal. -/
def drain (f : α → β) : ℕ → List α → List α
  | 0, _ => []
  | _ + 1, [] => []
  | n + 1, a :: l =>
    match l.getLast? with
    | none => [a]
    | some z => if f z < f a then z :: drain f n (a :: l.dropLast) else a :: drain f n l

/-- A value between two others is not below both of them. -/
def Unimodal (f : α → β) (l : List α) : Prop :=
  ∀ a b c, [a, b, c].Sublist l → f a ≤ f b ∨ f c ≤ f b

theorem Unimodal.of_sublist {l l' : List α} (h : Unimodal f l) (hsub : l'.Sublist l) :
    Unimodal f l' :=
  fun a b c habc => h a b c (habc.trans hsub)

theorem Unimodal.le_of_mem {a z b : α} {l : List α} (h : Unimodal f (a :: (l ++ [z])))
    (hb : b ∈ l) : f a ≤ f b ∨ f z ≤ f b := by
  apply h
  refine .cons_cons a ?_
  have hpair : [b].Sublist l := List.singleton_sublist.mpr hb
  simpa using hpair.append (List.Sublist.refl [z])

theorem drain_perm {n : ℕ} {l : List α} (hn : l.length ≤ n) : (drain f n l).Perm l := by
  induction n generalizing l with
  | zero => rw [List.length_eq_zero_iff.mp (Nat.le_zero.mp hn)]; rfl
  | succ n ih =>
    cases l with
    | nil => rfl
    | cons a l =>
      obtain rfl | ⟨init, z, rfl⟩ := List.eq_nil_or_concat l
      · rfl
      rw [List.concat_eq_append] at hn ⊢
      simp only [List.length_cons, List.length_append, List.length_nil] at hn
      simp only [drain, List.getLast?_append, List.getLast?_singleton, Option.some_or,
        List.dropLast_concat]
      split_ifs
      · have hrest := ih (l := a :: init) (by rw [List.length_cons]; omega)
        calc (z :: drain f n (a :: init)).Perm (z :: a :: init) := hrest.cons z
          _ |>.Perm (a :: (init ++ [z])) := by
            rw [← List.cons_append]
            exact (List.perm_append_singleton z (a :: init)).symm
      · exact (ih (by simp only [List.length_append, List.length_singleton]; omega)).cons a

/-- The smaller end is smallest of all, so the output is sorted. -/
theorem drain_sorted {n : ℕ} {l : List α} (hn : l.length ≤ n) (h : Unimodal f l) :
    (drain f n l).Pairwise (f · ≤ f ·) := by
  induction n generalizing l with
  | zero => exact .nil
  | succ n ih =>
    cases l with
    | nil => exact .nil
    | cons a l =>
      obtain rfl | ⟨init, z, rfl⟩ := List.eq_nil_or_concat l
      · exact List.pairwise_singleton _ a
      rw [List.concat_eq_append] at hn h ⊢
      simp only [List.length_cons, List.length_append, List.length_nil] at hn
      simp only [drain, List.getLast?_append, List.getLast?_singleton, Option.some_or,
        List.dropLast_concat]
      split_ifs with hlt
      · have hlen : (a :: init).length ≤ n := by rw [List.length_cons]; omega
        refine List.pairwise_cons.mpr ⟨?_, ih hlen (h.of_sublist ?_)⟩
        · intro b hb
          rcases List.mem_cons.mp ((drain_perm hlen).mem_iff.mp hb) with rfl | hb
          · exact hlt.le
          · exact (h.le_of_mem hb).elim (hlt.le.trans ·) id
        · exact (List.sublist_append_left init [z]).cons_cons a
      · have hlen : (init ++ [z]).length ≤ n := by
          simp only [List.length_append, List.length_singleton]; omega
        refine List.pairwise_cons.mpr ⟨?_, ih hlen (h.of_sublist (List.sublist_cons_self _ _))⟩
        intro b hb
        rcases List.mem_append.mp ((drain_perm hlen).mem_iff.mp hb) with hb | hb
        · exact (h.le_of_mem hb).elim id ((not_lt.mp hlt).trans ·)
        · rw [List.mem_singleton.mp hb]
          exact not_lt.mp hlt

theorem take_drain {m : ℕ} {l : List α} (hm : l.length ≤ m) (n : ℕ) :
    (drain f m l).take n = drain f n l := by
  induction n generalizing l m with
  | zero => rfl
  | succ n ih =>
    cases l with
    | nil => cases m <;> rfl
    | cons a l =>
      cases m with
      | zero => simp at hm
      | succ m =>
        obtain rfl | ⟨init, z, rfl⟩ := List.eq_nil_or_concat l
        · simp [drain]
        rw [List.concat_eq_append] at hm ⊢
        simp only [List.length_cons, List.length_append, List.length_nil] at hm
        simp only [drain, List.getLast?_append, List.getLast?_singleton, Option.some_or,
          List.dropLast_concat]
        split_ifs
        · rw [List.take_succ_cons, ih (by rw [List.length_cons]; omega)]
        · rw [List.take_succ_cons,
            ih (by simp only [List.length_append, List.length_singleton]; omega)]

end Drain

end OrionNetwork.SortedVectors
