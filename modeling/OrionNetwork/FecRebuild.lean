import OrionNetwork.FecCode

/-!
# Rebuilding data from shares

Every missing data block is given a parity share, which is put in its place, and
the matrix of the shares is inverted. Then the missing blocks are computed one
after the other, each written over the share that stood in for it. A later block
is computed from what was written before and not from the parity, so it comes
out right only if the two agree.
-/
namespace OrionNetwork.Fec
open Galois Loops PivotExchange EvaluationCode

theorem windowGaps_spec {a : ℕ} {l : List ℕ} (h : (a :: l).Pairwise (· ≤ ·)) :
    (windowGaps (a :: l)).Pairwise (· < ·) ∧ ∀ x, x ∈ windowGaps (a :: l) ↔
      a < x ∧ x < (a :: l).getLast (List.cons_ne_nil a l) ∧ x ∉ a :: l := by
  induction l generalizing a with
  | nil =>
    refine ⟨List.Pairwise.nil, fun x => ?_⟩
    simp only [windowGaps, List.not_mem_nil, List.getLast_singleton, false_iff]
    omega
  | cons b l ih =>
    obtain ⟨hsorted, hmem⟩ := ih h.of_cons
    have hab : a ≤ b := List.rel_of_pairwise_cons h List.mem_cons_self
    have hlast : b ≤ (b :: l).getLast (List.cons_ne_nil b l) := by
      rcases List.mem_cons.mp (List.getLast_mem (List.cons_ne_nil b l)) with hb | hl
      · exact hb.ge
      · exact List.rel_of_pairwise_cons h.of_cons hl
    have hrest : ∀ y ∈ l, b ≤ y := fun y hy => List.rel_of_pairwise_cons h.of_cons hy
    rw [windowGaps, List.getLast_cons (List.cons_ne_nil b l)]
    constructor
    · rw [List.pairwise_append]
      refine ⟨List.pairwise_lt_range', hsorted, fun x hx y hy => ?_⟩
      have hx' := List.mem_range'_1.mp hx
      have hy' := ((hmem y).mp hy).1
      omega
    · intro x
      rw [List.mem_append, hmem, List.mem_range'_1]
      simp only [List.mem_cons, not_or]
      constructor
      · rintro (hx | ⟨hbx, hxl, hxb, hx⟩)
        · refine ⟨by omega, by omega, by omega, by omega, fun hmem => ?_⟩
          have := hrest x hmem
          omega
        · exact ⟨by omega, hxl, by omega, hxb, hx⟩
      · rintro ⟨hax, hxl, -, hxb, hx⟩
        by_cases hxb' : x < b
        · exact .inl (by omega)
        · exact .inr ⟨by omega, hxl, hxb, hx⟩

theorem gaps_cons (k a : ℕ) (l : List ℕ) :
    gaps k (a :: l) = windowGaps (a :: l) ++
      List.range' ((a :: l).getLast (List.cons_ne_nil a l) + 1)
        (k - ((a :: l).getLast (List.cons_ne_nil a l) + 1)) ++ List.range a := by
  unfold gaps
  simp only [List.head?_cons, Option.getD_some,
    List.getLast?_eq_some_getLast (List.cons_ne_nil a l), Option.map_some]

theorem head_le {a : ℕ} {l : List ℕ} (h : (a :: l).Pairwise (· ≤ ·)) : ∀ x ∈ a :: l, a ≤ x := by
  intro x hx
  rcases List.mem_cons.mp hx with rfl | hx
  · exact le_rfl
  · exact List.rel_of_pairwise_cons h hx

theorem le_getLast {a : ℕ} {l : List ℕ} (h : (a :: l).Pairwise (· ≤ ·)) :
    ∀ x ∈ a :: l, x ≤ (a :: l).getLast (List.cons_ne_nil a l) := by
  intro x hx
  exact List.Pairwise.rel_getLast h hx

/-- The gaps are the data blocks without a share. -/
theorem mem_gaps {k : ℕ} {l : List ℕ} (hsorted : l.Pairwise (· ≤ ·)) (hlt : ∀ x ∈ l, x < k)
    (x : ℕ) : x ∈ gaps k l ↔ x < k ∧ x ∉ l := by
  cases l with
  | nil => simp [gaps, windowGaps]
  | cons a l =>
    have hge := head_le hsorted
    have hle := le_getLast hsorted
    have hmem := (windowGaps_spec hsorted).2 x
    have hlast_mem := List.getLast_mem (List.cons_ne_nil a l)
    have hlast := hlt _ hlast_mem
    rw [gaps_cons]
    generalize (a :: l).getLast (List.cons_ne_nil a l) = z at hmem hle hlast hlast_mem ⊢
    rw [List.mem_append, List.mem_append, hmem, List.mem_range'_1, List.mem_range]
    constructor
    · rintro ((⟨-, hx, hnot⟩ | hx) | hx)
      · exact ⟨by omega, hnot⟩
      · refine ⟨by omega, fun hx' => ?_⟩
        have := hle x hx'
        omega
      · refine ⟨?_, fun hx' => ?_⟩
        · have := hlt a List.mem_cons_self
          omega
        · have := hge x hx'
          omega
    · rintro ⟨hx, hnot⟩
      have hne : x ≠ z := ne_of_mem_of_not_mem hlast_mem hnot |>.symm
      have hne' : x ≠ a := ne_of_mem_of_not_mem List.mem_cons_self hnot |>.symm
      by_cases hxa : x < a
      · exact .inr hxa
      · by_cases hxz : x < z
        · exact .inl (.inl ⟨by omega, hxz, hnot⟩)
        · exact .inl (.inr (by omega))

theorem nodup_gaps {k : ℕ} {l : List ℕ} (hsorted : l.Pairwise (· ≤ ·)) : (gaps k l).Nodup := by
  cases l with
  | nil => simp [gaps, windowGaps, List.nodup_range']
  | cons a l =>
    obtain ⟨hwindows, hmem⟩ := windowGaps_spec hsorted
    have hza := le_getLast hsorted a List.mem_cons_self
    rw [gaps_cons, List.nodup_append', List.nodup_append']
    refine ⟨⟨hwindows.imp fun h => h.ne, List.nodup_range', ?_⟩, List.nodup_range, ?_⟩
    · intro x hx hx'
      have hx := (hmem x).mp hx
      have hx' := List.mem_range'_1.mp hx'
      omega
    · intro x hx hx'
      rw [List.mem_range] at hx'
      rcases List.mem_append.mp hx with hx | hx
      · have hx := (hmem x).mp hx
        omega
      · have hx := List.mem_range'_1.mp hx
        omega

/-- The data blocks with a share and the gaps make up all data blocks. -/
theorem gaps_perm {k : ℕ} {l : List ℕ} (hsorted : l.Pairwise (· < ·)) (hlt : ∀ x ∈ l, x < k) :
    (l ++ gaps k l).Perm (List.range k) := by
  have hmem := mem_gaps (hsorted.imp fun h => h.le) hlt
  rw [List.perm_ext_iff_of_nodup _ List.nodup_range]
  · intro x
    rw [List.mem_append, hmem, List.mem_range]
    constructor
    · rintro (hx | hx)
      · exact hlt x hx
      · exact hx.1
    · intro hx
      by_cases hshare : x ∈ l
      · exact .inl hshare
      · exact .inr ⟨hx, hshare⟩
  · rw [List.nodup_append']
    refine ⟨hsorted.imp fun h => h.ne, nodup_gaps (hsorted.imp fun h => h.le), fun x hx hx' => ?_⟩
    exact ((hmem x).mp hx').2 hx

/-- The number of the share that stands at each place, for the numbers of the
shares in ascending order. -/
def standIn (required : ℕ) (numbers : List ℕ) (i : ℕ) : ℕ :=
  (((gaps required (numbers.takeWhile fun n => n < required)).zip
    (numbers.dropWhile fun n => n < required)).lookup i).getD i

theorem lookup_of_mem {α : Type*} {l : List (ℕ × α)} (hnodup : (l.map Prod.fst).Nodup) {i : ℕ}
    {a : α} (h : (i, a) ∈ l) : l.lookup i = some a := by
  induction l with
  | nil => cases h
  | cons e l ih =>
    rw [List.map_cons, List.nodup_cons] at hnodup
    rw [List.lookup_cons]
    rcases List.mem_cons.mp h with rfl | h
    · simp
    · have hne : (i == e.1) = false := by
        rw [beq_eq_false_iff_ne]
        rintro rfl
        exact hnodup.1 (List.mem_map.mpr ⟨_, h, rfl⟩)
      rw [hne]
      exact ih hnodup.2 h

theorem lookup_eq_none {α : Type*} {l : List (ℕ × α)} {i : ℕ} (h : i ∉ l.map Prod.fst) :
    l.lookup i = none := by
  induction l with
  | nil => rfl
  | cons e l ih =>
    rw [List.map_cons, List.mem_cons, not_or] at h
    have hne : (i == e.1) = false := beq_eq_false_iff_ne.mpr h.1
    rw [List.lookup_cons, hne]
    exact ih h.2

section Placement

variable {k n : ℕ} {numbers : List ℕ}

/-- Ascending numbers of `k` shares out of `n`. -/
structure Choice (k n : ℕ) (numbers : List ℕ) : Prop where
  sorted : numbers.Pairwise (· < ·)
  length : numbers.length = k
  lt : ∀ x ∈ numbers, x < n

theorem takeWhile_lt {x : ℕ} (h : x ∈ numbers.takeWhile fun n => n < k) : x < k := by
  have hall := List.all_takeWhile (p := fun n => decide (n < k)) (l := numbers)
  simpa using List.all_eq_true.mp hall x h

/-- Numbers ascend, so those of parity come last. -/
theorem le_of_mem_dropWhile (hsorted : numbers.Pairwise (· ≤ ·)) {x : ℕ}
    (h : x ∈ numbers.dropWhile fun n => n < k) : k ≤ x := by
  induction numbers with
  | nil => cases h
  | cons a l ih =>
    by_cases ha : a < k
    · rw [List.dropWhile_cons_of_pos (by simpa using ha)] at h
      exact ih hsorted.of_cons h
    · rw [List.dropWhile_cons_of_neg (by simpa using ha)] at h
      rcases List.mem_cons.mp h with rfl | h
      · omega
      · have := List.rel_of_pairwise_cons hsorted h
        omega

namespace Choice

theorem perm (hc : Choice k n numbers) :
    (numbers.takeWhile (fun n => n < k) ++ gaps k (numbers.takeWhile fun n => n < k)).Perm
      (List.range k) :=
  gaps_perm (hc.sorted.sublist (List.takeWhile_sublist _)) fun _ => takeWhile_lt

theorem nodup_gaps (hc : Choice k n numbers) :
    (gaps k (numbers.takeWhile fun n => n < k)).Nodup :=
  Fec.nodup_gaps ((hc.sorted.imp fun h => h.le).sublist (List.takeWhile_sublist _))

/-- There are as many parity shares as gaps. -/
theorem length_gaps (hc : Choice k n numbers) :
    (gaps k (numbers.takeWhile fun n => n < k)).length =
      (numbers.dropWhile fun n => n < k).length := by
  have hperm := hc.perm.length_eq
  have hsplit := congrArg List.length (List.takeWhile_append_dropWhile (p := fun n => decide (n < k))
    (l := numbers))
  rw [List.length_append, List.length_range] at hperm
  rw [List.length_append, hc.length] at hsplit
  omega

theorem map_fst_zip (hc : Choice k n numbers) :
    ((gaps k (numbers.takeWhile fun n => n < k)).zip (numbers.dropWhile fun n => n < k)).map
      Prod.fst = gaps k (numbers.takeWhile fun n => n < k) :=
  List.map_fst_zip hc.length_gaps.le

theorem standIn_of_mem_zip (hc : Choice k n numbers) {i p : ℕ}
    (h : (i, p) ∈ (gaps k (numbers.takeWhile fun n => n < k)).zip
      (numbers.dropWhile fun n => n < k)) : standIn k numbers i = p := by
  unfold standIn
  rw [lookup_of_mem (by rw [hc.map_fst_zip]; exact hc.nodup_gaps) h]
  rfl

theorem standIn_of_mem (hc : Choice k n numbers) {i : ℕ}
    (h : i ∈ numbers.takeWhile fun n => n < k) : standIn k numbers i = i := by
  unfold standIn
  rw [lookup_eq_none]
  · rfl
  · rw [hc.map_fst_zip]
    intro hgap
    exact (List.nodup_append'.mp (hc.perm.nodup_iff.mpr List.nodup_range)).2.2 h hgap

/-- A place has its own share or one of parity. -/
theorem cases (hc : Choice k n numbers) {i : ℕ} (hi : i < k) :
    i ∈ numbers.takeWhile (fun n => n < k) ∨
      ∃ p, (i, p) ∈ (gaps k (numbers.takeWhile fun n => n < k)).zip
        (numbers.dropWhile fun n => n < k) := by
  have hmem := hc.perm.mem_iff.mpr (List.mem_range.mpr hi)
  rcases List.mem_append.mp hmem with h | h
  · exact .inl h
  · rw [← hc.map_fst_zip] at h
    obtain ⟨⟨i', p⟩, he, rfl⟩ := List.mem_map.mp h
    exact .inr ⟨p, he⟩

theorem selection (hc : Choice k n numbers) (hkn : k ≤ n) : Selection k n (standIn k numbers) := by
  have hparity : ∀ {i p}, (i, p) ∈ (gaps k (numbers.takeWhile fun n => n < k)).zip
      (numbers.dropWhile fun n => n < k) → k ≤ p ∧ p < n := by
    intro i p h
    have hp := List.of_mem_zip h
    exact ⟨le_of_mem_dropWhile (hc.sorted.imp fun h => h.le) hp.2,
      hc.lt p ((List.dropWhile_sublist _).subset hp.2)⟩
  refine ⟨fun r hr => ?_, ?_, fun r hr => ?_⟩
  · rcases hc.cases hr with h | ⟨p, h⟩
    · rw [hc.standIn_of_mem h]
      omega
    · rw [hc.standIn_of_mem_zip h]
      exact (hparity h).2
  · intro i hi j hj hij
    rw [Finset.coe_range, Set.mem_Iio] at hi hj
    rcases hc.cases hi with h | ⟨p, h⟩
    · rcases hc.cases hj with h' | ⟨p', h'⟩
      · rwa [hc.standIn_of_mem h, hc.standIn_of_mem h'] at hij
      · rw [hc.standIn_of_mem h, hc.standIn_of_mem_zip h'] at hij
        have := (hparity h').1
        omega
    · rcases hc.cases hj with h' | ⟨p', h'⟩
      · rw [hc.standIn_of_mem_zip h, hc.standIn_of_mem h'] at hij
        have := (hparity h).1
        omega
      · rw [hc.standIn_of_mem_zip h, hc.standIn_of_mem_zip h'] at hij
        subst hij
        -- numbers are distinct, so the two pairs are at the same index
        obtain ⟨m, hm, he⟩ := List.mem_iff_getElem.mp h
        obtain ⟨m', hm', he'⟩ := List.mem_iff_getElem.mp h'
        rw [List.getElem_zip, Prod.mk.injEq] at he he'
        have hnodup : (numbers.dropWhile fun n => n < k).Nodup :=
          (hc.sorted.sublist (List.dropWhile_sublist _)).imp fun h => h.ne
        have hindex := hnodup.getElem_inj_iff.mp (he.2.trans he'.2.symm)
        subst hindex
        exact he.1.symm.trans he'.1
  · rcases hc.cases hr with h | ⟨p, h⟩
    · exact .inl (hc.standIn_of_mem h)
    · rw [hc.standIn_of_mem_zip h]
      exact .inr (hparity h).1

end Choice

end Placement

/-- Distinct updates of a function are a look-up. -/
theorem foldl_update {α β : Type*} (g : α → β) {l : List (ℕ × α)} (hnodup : (l.map Prod.fst).Nodup)
    (m : ℕ → β) (i : ℕ) :
    l.foldl (fun m e => Function.update m e.1 (g e.2)) m i = ((l.lookup i).map g).getD (m i) := by
  induction l generalizing m with
  | nil => rfl
  | cons e l ih =>
    rw [List.map_cons, List.nodup_cons] at hnodup
    rw [List.foldl_cons, ih hnodup.2, List.lookup_cons]
    by_cases hi : i = e.1
    · subst hi
      rw [lookup_eq_none hnodup.1, beq_self_eq_true, Function.update_self]
      rfl
    · rw [beq_eq_false_iff_ne.mpr hi, Function.update_of_ne hi]

theorem mark_eq {missing : List ℕ} {parity : List Share} (h : missing.length = parity.length) :
    mark missing parity =
      (missing.zip parity).map fun e => { e.2 with number := usizeMax - e.1 } := by
  induction missing generalizing parity with
  | nil =>
    have hnil : parity = [] := List.eq_nil_of_length_eq_zero h.symm
    rw [hnil]
    rfl
  | cons i missing ih =>
    cases parity with
    | nil => cases h
    | cons p parity =>
      have hrest := ih (Nat.succ.inj h)
      rw [mark, hrest]
      rfl

section Placing

variable {required total : ℕ} {f : Fec} {shares : List Share}

theorem takeWhile_number (k : ℕ) (shares : List Share) :
    (shares.takeWhile fun s => s.number < k).map (·.number) =
      (shares.map (·.number)).takeWhile fun n => n < k := by
  rw [List.takeWhile_map]
  rfl

theorem dropWhile_number (k : ℕ) (shares : List Share) :
    (shares.dropWhile fun s => s.number < k).map (·.number) =
      (shares.map (·.number)).dropWhile fun n => n < k := by
  rw [List.dropWhile_map]
  rfl

/-- The gaps of the shares with the shares put there. -/
def placed (k : ℕ) (shares : List Share) : List (ℕ × Share) :=
  (gaps k ((shares.takeWhile fun s => s.number < k).map (·.number))).zip
    (shares.dropWhile fun s => s.number < k)

theorem map_placed (k : ℕ) (shares : List Share) :
    (placed k shares).map (fun e => (e.1, e.2.number)) =
      (gaps k ((shares.map (·.number)).takeWhile fun n => n < k)).zip
        ((shares.map (·.number)).dropWhile fun n => n < k) := by
  rw [← dropWhile_number, ← takeWhile_number, List.zip_map_right]
  rfl

theorem map_fst_placed (hc : Choice required total (shares.map (·.number))) :
    (placed required shares).map Prod.fst =
      gaps required ((shares.map (·.number)).takeWhile fun n => n < required) := by
  rw [← hc.map_fst_zip, ← map_placed, List.map_map]
  rfl

theorem standIn_placed (hc : Choice required total (shares.map (·.number))) {i : ℕ} {s : Share}
    (h : (i, s) ∈ placed required shares) :
    standIn required (shares.map (·.number)) i = s.number := by
  apply hc.standIn_of_mem_zip
  rw [← map_placed]
  exact List.mem_map.mpr ⟨(i, s), h, rfl⟩

/-- The matrix that is inverted has the rows of the shares that stand in. -/
theorem decMatrix_eq (hnew : new required total = some f)
    (hc : Choice required total (shares.map (·.number))) :
    AgreeOn required (f.decMatrix (placed required shares))
      (select f.encMatrix (standIn required (shares.map (·.number)))) := by
  intro r hr j hj
  have hnodup : ((placed required shares).map Prod.fst).Nodup := by
    rw [map_fst_placed hc]
    exact hc.nodup_gaps
  unfold decMatrix select
  rw [foldl_update (fun s : Share => f.encMatrix s.number) hnodup]
  rcases hc.cases hr with hown | ⟨p, hgap⟩
  · have hnot : r ∉ (placed required shares).map Prod.fst := by
      rw [map_fst_placed hc]
      intro hmem
      exact (List.nodup_append'.mp (hc.perm.nodup_iff.mpr List.nodup_range)).2.2 hown hmem
    rw [lookup_eq_none hnot, hc.standIn_of_mem hown, (systematic hnew).identity r hr j hj]
    rfl
  · rw [← map_placed] at hgap
    obtain ⟨⟨i, s⟩, hmem, heq⟩ := List.mem_map.mp hgap
    obtain ⟨rfl, -⟩ := Prod.mk.inj heq
    rw [lookup_of_mem hnodup hmem, standIn_placed hc hmem]
    rfl

theorem sortByKey_perm (key : Share → ℕ) (shares : List Share) :
    (sortByKey key shares).Perm shares :=
  List.perm_insertionSort _ _

theorem pairwise_sortByKey (key : Share → ℕ) (shares : List Share) :
    ((sortByKey key shares).map key).Pairwise (· ≤ ·) := by
  have : Std.Total fun a b : Share => key a ≤ key b := ⟨fun a b => le_total (key a) (key b)⟩
  have : IsTrans Share fun a b => key a ≤ key b := ⟨fun _ _ _ => le_trans⟩
  rw [List.pairwise_map]
  exact List.pairwise_insertionSort _ _

theorem pairwise_sorted (h : (shares.map (·.number)).Nodup) :
    ((sortByKey (·.number) shares).map (·.number)).Pairwise (· < ·) := by
  have hnodup : ((sortByKey (·.number) shares).map (·.number)).Nodup :=
    ((sortByKey_perm _ _).map _).nodup_iff.mpr h
  exact List.Pairwise.imp (fun h => lt_of_le_of_ne h.1 h.2)
    ((pairwise_sortByKey (·.number) shares).and hnodup)

/-- How shares are ordered once those of parity are marked. -/
def placeKey (k : ℕ) (s : Share) : ℕ := if s.number > k then usizeMax - s.number else s.number

/-- All shares in their places. -/
def marked (k : ℕ) (shares : List Share) : List Share :=
  sortByKey (placeKey k) ((shares.takeWhile fun s => s.number < k) ++
    mark (gaps k ((shares.takeWhile fun s => s.number < k).map (·.number)))
      (shares.dropWhile fun s => s.number < k))

theorem placeKey_mark {k i : ℕ} (hk : k ≤ 256) (hi : i < k) (s : Share) :
    placeKey k { s with number := usizeMax - i } = i := by
  unfold placeKey usizeMax
  rw [if_pos (by simp only; omega)]
  simp only
  omega

theorem marked_perm (hc : Choice required total (shares.map (·.number))) :
    (marked required shares).Perm ((shares.takeWhile fun s => s.number < required) ++
      (placed required shares).map fun e => { e.2 with number := usizeMax - e.1 }) := by
  have hlen := hc.length_gaps
  rw [← dropWhile_number, List.length_map, ← takeWhile_number] at hlen
  unfold marked
  rw [mark_eq hlen]
  exact sortByKey_perm _ _

theorem lt_of_mem_placed (hc : Choice required total (shares.map (·.number))) {e : ℕ × Share}
    (h : e ∈ placed required shares) : e.1 < required := by
  have hmem : e.1 ∈ (placed required shares).map Prod.fst := List.mem_map.mpr ⟨e, h, rfl⟩
  rw [map_fst_placed hc] at hmem
  exact List.mem_range.mp (hc.perm.mem_iff.mp (List.mem_append_right _ hmem))

/-- Sorting puts each share where it stands in. -/
theorem map_placeKey_marked (hle : required ≤ 256)
    (hc : Choice required total (shares.map (·.number))) :
    (marked required shares).map (placeKey required) = List.range required := by
  have hdata : ((shares.takeWhile fun s => s.number < required).map (placeKey required)) =
      (shares.map (·.number)).takeWhile fun n => n < required := by
    rw [← takeWhile_number]
    apply List.map_congr_left
    intro s hs
    have hmem : s.number ∈ (shares.map (·.number)).takeWhile fun n => n < required := by
      rw [← takeWhile_number]
      exact List.mem_map.mpr ⟨s, hs, rfl⟩
    have hlt := takeWhile_lt hmem
    unfold placeKey
    rw [if_neg (by omega)]
  have hparity : (((placed required shares).map fun e =>
      ({ e.2 with number := usizeMax - e.1 } : Share)).map (placeKey required)) =
      gaps required ((shares.map (·.number)).takeWhile fun n => n < required) := by
    rw [← map_fst_placed hc, List.map_map]
    apply List.map_congr_left
    intro e he
    exact placeKey_mark hle (lt_of_mem_placed hc he) e.2
  have hperm := (marked_perm hc).map (placeKey required)
  rw [List.map_append, hdata, hparity] at hperm
  exact (hperm.trans hc.perm).eq_of_pairwise' (pairwise_sortByKey _ _) List.pairwise_le_range

/-- What stands at a place. -/
theorem marked_spec (hle : required ≤ 256) (hc : Choice required total (shares.map (·.number)))
    {i : ℕ} (hi : i < required) : ∃ s, (marked required shares)[i]? = some s ∧
      (s.number < required ↔ ¬ required ≤ standIn required (shares.map (·.number)) i) ∧
      ∃ o ∈ shares, o.number = standIn required (shares.map (·.number)) i ∧ s.data = o.data := by
  have hkeys := map_placeKey_marked hle hc
  have hlen : (marked required shares).length = required := by
    simpa using congrArg List.length hkeys
  have hget : i < (marked required shares).length := by omega
  refine ⟨(marked required shares)[i], List.getElem?_eq_getElem hget, ?_⟩
  have hkey : placeKey required (marked required shares)[i] = i := by
    have := List.getElem_of_eq hkeys (i := i) (by simpa using hget)
    simpa using this
  have hmem := (marked_perm hc).mem_iff.mp (List.getElem_mem hget)
  generalize (marked required shares)[i] = s at hkey hmem
  rcases List.mem_append.mp hmem with hdata | hparity
  · have hown : s.number ∈ (shares.map (·.number)).takeWhile fun n => n < required := by
      rw [← takeWhile_number]
      exact List.mem_map.mpr ⟨s, hdata, rfl⟩
    have hlt := takeWhile_lt hown
    unfold placeKey at hkey
    rw [if_neg (by omega)] at hkey
    subst hkey
    rw [hc.standIn_of_mem hown]
    exact ⟨by omega, s, (List.takeWhile_sublist _).subset hdata, rfl, rfl⟩
  · obtain ⟨⟨j, p⟩, hplaced, rfl⟩ := List.mem_map.mp hparity
    have hj : j < required := lt_of_mem_placed hc hplaced
    rw [placeKey_mark hle hj] at hkey
    subst hkey
    have hp : p ∈ shares.dropWhile fun s => s.number < required := (List.of_mem_zip hplaced).2
    have hge : required ≤ p.number := by
      apply le_of_mem_dropWhile (hc.sorted.imp fun h => h.le)
      rw [← dropWhile_number]
      exact List.mem_map.mpr ⟨p, hp, rfl⟩
    rw [standIn_placed hc hplaced]
    refine ⟨?_, p, (List.dropWhile_sublist _).subset hp, rfl, rfl⟩
    unfold usizeMax
    simp only
    omega

end Placing

/-- Blocks of one size are equal if their bytes are. -/
theorem eq_of_byte {size : ℕ} {a b : List Gf} (ha : a.length = size) (hb : b.length = size)
    (h : ∀ t < size, byte a t = byte b t) : a = b := by
  apply List.ext_getElem (by rw [ha, hb])
  intro t hta htb
  have hbyte := h t (by omega)
  unfold byte at hbyte
  rwa [List.getD_eq_getElem _ _ hta, List.getD_eq_getElem _ _ htb] at hbyte

/-- The shares at the `k` places hold blocks of a size with the bytes `v`, position
first, and those that miss theirs have a mark. -/
structure Holding (k size : ℕ) (missing : ℕ → Prop) (v : ℕ → ℕ → Gf) (shares : List Share) :
    Prop where
  length : shares.length = k
  place : ∀ i < k, ∃ s, shares[i]? = some s ∧ (s.number < k ↔ ¬ missing i) ∧
    s.data.length = size ∧ ∀ t < size, byte s.data t = v t i

section Restoring

variable {f : Fec} {size : ℕ} {missing : ℕ → Prop} [DecidablePred missing] {v : ℕ → ℕ → Gf}
  {shares : List Share} {inv : Mat Gf}

theorem restoreRound_spec {i : ℕ} (hi : i < f.required)
    (h : Holding f.required size missing v shares) :
    Holding f.required size missing
      (fun t => if missing i then Function.update (v t) i (apply f.required inv (v t) i) else v t)
      (f.restoreRound inv size i shares) := by
  obtain ⟨s, hs, hnumber, hlen, hbyte⟩ := h.place i hi
  unfold restoreRound
  simp only [hs]
  by_cases hmissing : missing i
  · have hmark : ¬ s.number < f.required := fun hlt => hnumber.mp hlt hmissing
    have hblocks : ∀ j < f.required,
        ((shares[j]?.map (·.data)).getD []).length = size ∧
          ∀ t < size, byte ((shares[j]?.map (·.data)).getD []) t = v t j := by
      intro j hj
      obtain ⟨s', hs', -, hlen', hbyte'⟩ := h.place j hj
      rw [hs']
      exact ⟨hlen', hbyte'⟩
    obtain ⟨hlength, hbytes⟩ := @combine_spec f.required size (inv i) _ fun j hj =>
      (hblocks j hj).1
    simp only [if_neg hmark, if_pos hmissing]
    refine ⟨by rw [List.length_set, h.length], fun j hj => ?_⟩
    by_cases hij : i = j
    · subst hij
      refine ⟨_, List.getElem?_set_self (by rw [h.length]; exact hj), hnumber, hlength, ?_⟩
      intro t ht
      rw [hbytes t ht, Function.update_self]
      apply Finset.sum_congr rfl
      intro j hj
      exact congrArg (inv i j * ·) ((hblocks j (Finset.mem_range.mp hj)).2 t ht)
    · obtain ⟨s', hs', hnumber', hlen', hbyte'⟩ := h.place j hj
      refine ⟨s', by rw [List.getElem?_set_ne hij, hs'], hnumber', hlen', fun t ht => ?_⟩
      rw [Function.update_of_ne (Ne.symm hij), hbyte' t ht]
  · simp only [if_pos (hnumber.mpr hmissing), if_neg hmissing]
    exact h

/-- The rounds repair each byte position on its own. -/
theorem restore_spec (inv : Mat Gf) (h : Holding f.required size missing v shares) :
    Holding f.required size missing
      (fun t => repair f.required inv missing f.required (v t))
      (forTo (f.restoreRound inv size) f.required shares) := by
  apply forTo_invariant (fun n s => Holding f.required size missing
    (fun t => repair f.required inv missing n (v t)) s)
  · exact h
  · intro i hi s hs
    exact restoreRound_spec hi hs

end Restoring

/-- The shares that are used are those with the lowest numbers. -/
def lowest (k : ℕ) (shares : List Share) : List Share := (sortByKey (·.number) shares).take k

/-- Where a later data block is missing too, the share that stands in for a
missing data block has the same content. -/
def StandInsAgree (k : ℕ) (numbers : List ℕ) (block : ℕ → List Gf) : Prop :=
  ∀ i < k, k ≤ standIn k numbers i → (∃ j, i < j ∧ j < k ∧ k ≤ standIn k numbers j) →
    block (standIn k numbers i) = block i

section Rebuilding

variable {required total size parityLen : ℕ} {f : Fec} {data parity : List Gf}
  {shares : List Share}

/-- Shares of a codeword with distinct numbers. -/
structure Shares (f : Fec) (size : ℕ) (data parity : List Gf) (shares : List Share) : Prop where
  nodup : (shares.map (·.number)).Nodup
  lt : ∀ s ∈ shares, s.number < f.total
  content : ∀ s ∈ shares, s.data = f.blockAt size data parity s.number

theorem mem_of_mem_lowest {k : ℕ} {s : Share} (h : s ∈ lowest k shares) : s ∈ shares :=
  (sortByKey_perm _ _).mem_iff.mp (List.mem_of_mem_take h)

theorem Shares.lowest (hshares : Shares f size data parity shares) (k : ℕ) :
    Shares f size data parity (lowest k shares) := by
  refine ⟨?_, fun s hs => hshares.lt s (mem_of_mem_lowest hs), fun s hs =>
    hshares.content s (mem_of_mem_lowest hs)⟩
  have hnodup : ((sortByKey (·.number) shares).map (·.number)).Nodup :=
    ((sortByKey_perm _ _).map _).nodup_iff.mpr hshares.nodup
  exact hnodup.sublist ((List.take_sublist _ _).map _)

theorem choice_lowest (hshares : Shares f size data parity shares) {k : ℕ}
    (hlen : k ≤ shares.length) : Choice k f.total ((lowest k shares).map (·.number)) := by
  refine ⟨?_, ?_, fun x hx => ?_⟩
  · unfold lowest
    rw [List.map_take]
    exact (pairwise_sorted hshares.nodup).sublist (List.take_sublist _ _)
  · unfold lowest
    rw [List.length_map, List.length_take, (sortByKey_perm _ _).length_eq]
    omega
  · obtain ⟨s, hs, rfl⟩ := List.mem_map.mp hx
    exact hshares.lt s (mem_of_mem_lowest hs)

/-- Where the shares are put, they hold the symbols selected from the code. -/
theorem holding_marked (hnew : new f.required f.total = some f)
    (hlen : data.length = f.required * size) (hparity : f.encode data parityLen = .ok parity)
    (hshares : Shares f size data parity shares) {numbers : List ℕ}
    (hnumbers : numbers = shares.map (·.number)) (hc : Choice f.required f.total numbers) :
    Holding f.required size (fun i => f.required ≤ standIn f.required numbers i)
      (fun t => apply f.required (select f.encMatrix (standIn f.required numbers))
        fun j => byte (chunk size data j) t)
      (marked f.required shares) := by
  obtain ⟨⟨hpos, hlt, hle⟩, -⟩ := new_eq hnew
  subst hnumbers
  have hkeys := map_placeKey_marked (by omega) hc
  refine ⟨by simpa using congrArg List.length hkeys, fun i hi => ?_⟩
  obtain ⟨s, hs, hnumber, o, ho, ho', hdata⟩ := marked_spec (by omega) hc hi
  obtain ⟨hlength, hbyte⟩ := blockAt_spec hnew hlen hparity (hshares.lt o ho)
  rw [← hshares.content o ho, ← hdata] at hlength hbyte
  refine ⟨s, hs, hnumber, hlength, fun t ht => ?_⟩
  rw [hbyte t ht, ho']
  rfl

/-- The matrix of the shares is always inverted. -/
theorem invert_decMatrix (hnew : new f.required f.total = some f)
    (hc : Choice f.required f.total (shares.map (·.number))) :
    ∃ inv, invertMatrix (f.decMatrix (placed f.required shares)) f.required = some inv ∧ ∀ w y,
      (∀ r < f.required, w r = apply f.required inv y r) ↔ ∀ r < f.required,
        y r = apply f.required
          (select f.encMatrix (standIn f.required (shares.map (·.number)))) w r := by
  obtain ⟨⟨hpos, hlt, hle⟩, -⟩ := new_eq hnew
  have hsel := hc.selection hlt.le
  have hagree := decMatrix_eq hnew hc
  have hcode := systematic hnew
  have hlead : Leading f.required (f.decMatrix (placed f.required shares)) := by
    intro i hi x hend hrows
    apply hcode.leading hsel i hi x hend
    intro r hr
    rw [← apply_congr hagree (by omega)]
    exact hrows r hr
  obtain ⟨inv, hinv, hspec⟩ := invertMatrix_spec hlead (fun i hi hoff => by
    rw [hagree i hi i hi]
    apply hcode.simple hsel hi
    intro j hj hji
    rw [← hagree i hi j hj, hoff j hj hji])
  refine ⟨inv, hinv, fun w y => ?_⟩
  rw [hspec]
  constructor
  · intro h r hr
    rw [h r hr, apply_congr hagree hr]
  · intro h r hr
    rw [h r hr, apply_congr hagree hr]

/-- What is computed, for shares of one size. -/
theorem rebuild_eq (hpos : 0 < f.required) (henough : f.required ≤ shares.length)
    (hlen : ∀ s ∈ lowest f.required shares, s.data.length = size) {inv : Mat Gf}
    (hinv : invertMatrix (f.decMatrix (placed f.required (lowest f.required shares)))
      f.required = some inv) :
    f.rebuild shares = .ok (forTo (f.restoreRound inv size) f.required
      (marked f.required (lowest f.required shares))) := by
  have hlength : (sortByKey (·.number) shares).length = shares.length :=
    (sortByKey_perm _ _).length_eq
  have hhead : ((lowest f.required shares).head?.map (·.data.length)).getD 0 = size := by
    cases h : lowest f.required shares with
    | nil =>
      have hzero := congrArg List.length h
      unfold lowest at hzero
      rw [List.length_take, List.length_nil] at hzero
      omega
    | cons s l => exact hlen s (h ▸ List.mem_cons_self)
  have hany : ((lowest f.required shares).any fun s => s.data.length ≠ size) = false := by
    rw [List.any_eq_false]
    intro s hs
    simp [hlen s hs]
  unfold lowest at hhead hany hinv ⊢
  unfold placed at hinv
  unfold rebuild
  simp only [hhead, hany, hinv, if_neg (show ¬ (sortByKey (·.number) shares).length < f.required by
    omega)]
  rfl

theorem map_data_iff {k : ℕ} {missing : ℕ → Prop} {v : ℕ → ℕ → Gf} {out : List Share}
    (hhold : Holding k size missing v out) {block : ℕ → List Gf}
    (hblock : ∀ i < k, (block i).length = size) :
    out.map (·.data) = (List.range k).map block ↔
      ∀ t < size, ∀ i < k, v t i = byte (block i) t := by
  constructor
  · intro heq t ht i hi
    obtain ⟨s, hs, -, -, hbyte⟩ := hhold.place i hi
    have hget := congrArg (·[i]?) heq
    simp only [List.getElem?_map, hs, List.getElem?_range hi, Option.map_some,
      Option.some.injEq] at hget
    rw [← hbyte t ht, hget]
  · intro hbytes
    apply List.ext_getElem?
    intro i
    rw [List.getElem?_map, List.getElem?_map]
    by_cases hi : i < k
    · obtain ⟨s, hs, -, hlen, hbyte⟩ := hhold.place i hi
      rw [hs, List.getElem?_range hi, Option.map_some, Option.map_some]
      congr 1
      apply eq_of_byte hlen (hblock i hi)
      intro t ht
      rw [hbyte t ht, hbytes t ht i hi]
    · rw [List.getElem?_eq_none (by rw [hhold.length]; omega),
        List.getElem?_eq_none (by rw [List.length_range]; omega)]
      rfl

/-- The data comes back exactly if the content of the stand-ins that are read
after they were overwritten is that of the blocks written. -/
theorem rebuild_iff (hnew : new required total = some f)
    (hlen : data.length = required * size) (hparity : f.encode data parityLen = .ok parity)
    (hshares : Shares f size data parity shares) (henough : required ≤ shares.length) :
    ∃ out, f.rebuild shares = .ok out ∧
      (out.map (·.data) = (List.range required).map (chunk size data) ↔
        StandInsAgree required ((lowest required shares).map (·.number))
          (f.blockAt size data parity)) := by
  obtain ⟨⟨hpos, hlt, hle⟩, -⟩ := new_eq hnew
  have hrequired := required_of_new hnew
  have htotal := total_of_new hnew
  subst hrequired htotal
  have hc := choice_lowest hshares henough
  have hsub : Shares f size data parity (lowest f.required shares) := hshares.lowest _
  obtain ⟨inv, hinv, hspec⟩ := invert_decMatrix hnew hc
  have hhold := restore_spec inv (holding_marked hnew hlen hparity hsub rfl hc)
  have hsizes : ∀ s ∈ lowest f.required shares, s.data.length = size := by
    intro s hs
    rw [hsub.content s hs]
    exact (blockAt_spec hnew hlen hparity (hsub.lt s hs)).1
  refine ⟨_, rebuild_eq hpos henough hsizes hinv, ?_⟩
  rw [map_data_iff hhold fun i hi => length_chunk (by rw [hlen, Nat.mul_comm]) hi]
  have hlocal := fun d => (systematic hnew).repair_iff (hc.selection hlt.le) (d := d) hspec
  constructor
  · intro hbytes i hi hmissing hlater
    apply eq_of_byte (blockAt_spec hnew hlen hparity (hc.selection hlt.le |>.lt i hi)).1
      (blockAt_spec hnew hlen hparity (by omega)).1
    intro t ht
    rw [(blockAt_spec hnew hlen hparity (hc.selection hlt.le |>.lt i hi)).2 t ht,
      (blockAt_spec hnew hlen hparity (by omega)).2 t ht, (systematic hnew).apply_message hi]
    exact (hlocal _).mp (hbytes t ht) i hi hmissing hlater
  · intro hagree t ht
    apply (hlocal _).mpr
    intro i hi hmissing hlater
    have hblock := congrArg (fun b => byte b t) (hagree i hi hmissing hlater)
    beta_reduce at hblock
    rw [(blockAt_spec hnew hlen hparity (hc.selection hlt.le |>.lt i hi)).2 t ht,
      (blockAt_spec hnew hlen hparity (by omega)).2 t ht, (systematic hnew).apply_message hi]
      at hblock
    exact hblock

/-- From as many shares as there are data blocks. -/
theorem rebuild_roundTrip (hnew : new required total = some f) (_hsize : 0 < size)
    (hlen : data.length = required * size)
    (hparity : f.encode data (size * (total - required)) = .ok parity)
    (hshares : Shares f size data parity shares) (hcount : shares.length = required) :
    ∃ out, f.rebuild shares = .ok out ∧
      (out.map (·.data) = (List.range required).map (chunk size data) ↔
        StandInsAgree required ((sortByKey (·.number) shares).map (·.number))
          (f.blockAt size data parity)) := by
  have hall : lowest required shares = sortByKey (·.number) shares := by
    unfold lowest
    apply List.take_of_length_le
    rw [(sortByKey_perm _ _).length_eq, hcount]
  rw [← hall]
  exact rebuild_iff hnew hlen hparity hshares hcount.ge

end Rebuilding

/-- The shares of a codeword with the given numbers. -/
def sharesOf (f : Fec) (size : ℕ) (data parity : List Gf) (numbers : List ℕ) : List Share :=
  numbers.map fun n => ⟨n, f.blockAt size data parity n⟩

theorem shares_sharesOf {f : Fec} (numbers : List ℕ) (hnodup : numbers.Nodup)
    (hlt : ∀ n ∈ numbers, n < f.total) (size : ℕ) (data parity : List Gf) :
    Shares f size data parity (f.sharesOf size data parity numbers) := by
  unfold sharesOf
  constructor
  · rw [List.map_map]
    simpa [Function.comp_def] using hnodup
  · intro s hs
    obtain ⟨n, hn, rfl⟩ := List.mem_map.mp hs
    exact hlt n hn
  · intro s hs
    obtain ⟨n, hn, rfl⟩ := List.mem_map.mp hs
    rfl

/-- Every codec encodes data of whole blocks. -/
theorem exists_codeword (required total size : ℕ) (data : List Gf) (hpos : 0 < required)
    (hlt : required < total) (hle : total ≤ 256) (hlen : data.length = required * size) :
    ∃ f parity, new required total = some f ∧ f.total = total ∧
      f.encode data (size * (total - required)) = .ok parity := by
  have hnew : new required total =
      some ⟨required, total, newEncMatrix required, newVandMatrix⟩ := by
    unfold new
    rw [if_pos (by omega)]
  have hsize : data.length / required = size := by
    rw [hlen, Nat.mul_div_cancel_left _ hpos]
  have hparity : ∃ parity, encode ⟨required, total, newEncMatrix required, newVandMatrix⟩ data
      (size * (total - required)) = .ok parity := by
    unfold encode
    simp only [hsize]
    rw [if_neg (by rw [hlen, Nat.mul_comm]; exact fun h => h rfl), if_neg fun h => h rfl]
    exact ⟨_, rfl⟩
  obtain ⟨parity, hparity⟩ := hparity
  exact ⟨_, parity, hnew, rfl, hparity⟩

/-- One of two data blocks is lost. -/
theorem rebuild_roundTrip_one_lost : ∃ f parity out, new 2 3 = some f ∧
    f.encode [0, 1] 1 = .ok parity ∧
    f.rebuild (f.sharesOf 1 [0, 1] parity [2, 1]) = .ok out ∧
    out.map (·.data) = [[0], [1]] := by
  obtain ⟨f, parity, hnew, htotal, hparity⟩ := exists_codeword 2 3 1 [0, 1]
    (by decide) (by decide) (by decide) rfl
  obtain ⟨out, hout, hiff⟩ := rebuild_roundTrip hnew (by decide) rfl hparity
    (shares_sharesOf [2, 1] (by decide) (by rw [htotal]; decide) 1 _ _) rfl
  refine ⟨f, parity, out, hnew, hparity, hout, hiff.mpr ?_⟩
  change StandInsAgree 2 [1, 2] _
  rintro i hi hmissing ⟨j, hij, hj, hmissing'⟩
  obtain ⟨rfl, rfl⟩ : i = 0 ∧ j = 1 := by omega
  exact absurd hmissing' (by decide)

/-- Both data blocks are lost: the second comes out wrong. -/
theorem rebuild_both_lost : ¬ ∀ (required total size : ℕ) (f : Fec) (data parity : List Gf)
    (shares : List Share), new required total = some f → 0 < size →
    data.length = required * size →
    f.encode data (size * (total - required)) = .ok parity →
    Shares f size data parity shares → shares.length = required →
    ∃ out, f.rebuild shares = .ok out ∧
      out.map (·.data) = (List.range required).map (chunk size data) := by
  intro hclaim
  obtain ⟨f, parity, hnew, htotal, hparity⟩ := exists_codeword 2 4 1 [0, 1]
    (by decide) (by decide) (by decide) rfl
  have hshares := shares_sharesOf [2, 3] (by decide) (by rw [htotal]; decide) 1
    [0, 1] parity
  obtain ⟨out, hout, hdata⟩ := hclaim 2 4 1 f [0, 1] parity _ hnew (by decide) rfl hparity hshares
    rfl
  obtain ⟨out', hout', hiff⟩ := rebuild_iff hnew rfl hparity hshares le_rfl
  obtain rfl := Except.ok.inj (hout.symm.trans hout')
  have hagree : StandInsAgree 2 [2, 3] (f.blockAt 1 [0, 1] parity) := hiff.mp hdata
  have hblock := hagree 0 (by decide) (by decide) ⟨1, by decide, by decide, by decide⟩
  -- a line through two zeros has no other value
  have hbyte := congrArg (fun b => byte b 0) hblock
  change byte (f.blockAt 1 [0, 1] parity 2) 0 = byte (f.blockAt 1 [0, 1] parity 0) 0 at hbyte
  rw [(blockAt_spec hnew rfl hparity (by decide)).2 0 (by decide),
    (blockAt_spec hnew rfl hparity (by decide)).2 0 (by decide)] at hbyte
  have hcode := systematic hnew
  have hfirst : apply 2 f.encMatrix (fun j => byte (chunk 1 [0, 1] j) 0) 0 = 0 :=
    hcode.apply_message (by decide)
  have hsecond : apply 2 f.encMatrix (fun j => byte (chunk 1 [0, 1] j) 0) 1 = 1 :=
    hcode.apply_message (by decide)
  have hzero := hcode.apply_eq_zero (s := {0, 2}) (by decide) (by decide) (fun r hr => by
    rcases Finset.mem_insert.mp hr with rfl | hr
    · exact hfirst
    · rw [Finset.mem_singleton.mp hr, hbyte, hfirst]) (show 1 < 4 by decide)
  exact one_ne_zero (hsecond.symm.trans hzero)

end OrionNetwork.Fec
