import OrionNetwork.FreeList
import Mathlib.Data.BitVec

/-!
# Two searches for a range

The plain search takes the last range that is long enough. The search with
vectors takes the first one of the last whole group of 64 ranges that has one, and
looks at the ranges behind the groups only when no group has one.
-/
namespace OrionNetwork.FreeList
open BlockHash

variable {w : ℕ}

namespace SortedCompactVec

/-- The index of a range that is long enough. -/
def look (lens : List (BitVec w)) (n : BitVec w) (i : ℕ) : Option ℕ :=
  lens[i]?.bind fun len => if n.toNat ≤ len.toNat then some i else none

/-- The ranges from the end. -/
def findSlow (lens : List (BitVec w)) (n : BitVec w) : Option ℕ :=
  (List.range lens.length).reverse.findSome? (look lens n)

/-- What both do with the index that they find. -/
def popFound (checks : Bool) (data : SortedCompactVec w) (n : BitVec w) :
    Option ℕ → Except Panic (Option (Range w) × SortedCompactVec w)
  | none => .ok (none, data)
  | some i =>
    match data[i]? with
    | none => .error (.expect "called `Option::unwrap()` on a `None` value")
    | some changed =>
      if changed.len = n then
        match Storage.remove data i with
        | none => .ok (none, data)
        | some (r, data) => .ok (some r, data)
      else carve checks data i changed n

def popExactSlow (checks : Bool) (data : SortedCompactVec w) (n : BitVec w) :
    Except Panic (Option (Range w) × SortedCompactVec w) :=
  popFound checks data n (findSlow (data.map (·.len)) n)

theorem popExact_eq (checks : Bool) (data : SortedCompactVec w) (n : BitVec w) :
    popExact checks data n = popFound checks data n (findExact (data.map (·.len)) n) := by
  unfold popExact popFound
  cases findExact (data.map (·.len)) n with
  | none => rfl
  | some i => rfl

end SortedCompactVec

section Searches

variable {lens : List (BitVec w)} {n : BitVec w} {i j : ℕ}

/-- The range at `i` is long enough. -/
def Fits (lens : List (BitVec w)) (n : BitVec w) (i : ℕ) : Prop :=
  ∃ len, lens[i]? = some len ∧ n.toNat ≤ len.toNat

structure LastFit (lens : List (BitVec w)) (n : BitVec w) (i : ℕ) : Prop where
  fits : Fits lens n i
  last : ∀ k, Fits lens n k → k ≤ i

/-- The first that is long enough in the last whole group with one. -/
structure FirstOfGroup (lens : List (BitVec w)) (n : BitVec w) (i : ℕ) : Prop where
  fits : Fits lens n i
  whole : i / 64 < lens.length / 64
  last : ∀ k, Fits lens n k → k / 64 < lens.length / 64 → k / 64 ≤ i / 64
  first : ∀ k, Fits lens n k → k / 64 = i / 64 → i ≤ k

theorem LastFit.unique (hi : LastFit lens n i) (hj : LastFit lens n j) : i = j :=
  le_antisymm (hj.last i hi.fits) (hi.last j hj.fits)

theorem FirstOfGroup.unique (hi : FirstOfGroup lens n i) (hj : FirstOfGroup lens n j) : i = j := by
  have hgroup : i / 64 = j / 64 :=
    le_antisymm (hj.last i hi.fits hi.whole) (hi.last j hj.fits hj.whole)
  exact le_antisymm (hi.first j hj.fits hgroup.symm) (hj.first i hi.fits hgroup)

theorem Fits.lt (h : Fits lens n i) : i < lens.length := by
  obtain ⟨len, hlen, -⟩ := h
  exact (List.getElem?_eq_some_iff.mp hlen).1

/-- A search from the end finds the last one. -/
theorem findSome_reverse_range {β : Type*} {f : ℕ → Option β} {b : β} (m : ℕ) :
    (List.range m).reverse.findSome? f = some b ↔
      ∃ k < m, f k = some b ∧ ∀ l, k < l → l < m → f l = none := by
  induction m with
  | zero => simp
  | succ m ih =>
    rw [List.range_succ, List.reverse_append, List.reverse_singleton, List.singleton_append,
      List.findSome?_cons]
    cases hm : f m with
    | some c =>
      constructor
      · intro h
        exact ⟨m, by omega, by rw [hm]; exact h, fun l hl hl' => by omega⟩
      · rintro ⟨k, hk, hfk, hlast⟩
        by_cases hkm : k = m
        · rw [← hfk, hkm, hm]
        · rw [hlast m (by omega) (by omega)] at hm
          cases hm
    | none =>
      change (List.range m).reverse.findSome? f = some b ↔ _
      rw [ih]
      constructor
      · rintro ⟨k, hk, hfk, hlast⟩
        refine ⟨k, by omega, hfk, fun l hl hl' => ?_⟩
        by_cases hlm : l = m
        · rw [hlm, hm]
        · exact hlast l hl (by omega)
      · rintro ⟨k, hk, hfk, hlast⟩
        have hkm : k ≠ m := by
          intro hkm
          rw [hkm, hm] at hfk
          cases hfk
        exact ⟨k, by omega, hfk, fun l hl hl' => hlast l hl (by omega)⟩

theorem look_eq_some_iff {k : ℕ} :
    SortedCompactVec.look lens n k = some i ↔ Fits lens n k ∧ k = i := by
  unfold SortedCompactVec.look Fits
  cases lens[k]? with
  | none => simp
  | some len =>
    by_cases hle : n.toNat ≤ len.toNat
    · simp [hle]
    · simp [hle]

theorem look_eq_none_iff {k : ℕ} : SortedCompactVec.look lens n k = none ↔ ¬Fits lens n k := by
  rw [← not_iff_not, not_not, ← ne_eq, Option.ne_none_iff_exists']
  constructor
  · rintro ⟨i, hi⟩
    exact (look_eq_some_iff.mp hi).1
  · intro hfits
    exact ⟨k, look_eq_some_iff.mpr ⟨hfits, rfl⟩⟩

theorem findSlow_eq_some_iff : SortedCompactVec.findSlow lens n = some i ↔ LastFit lens n i := by
  unfold SortedCompactVec.findSlow
  rw [findSome_reverse_range]
  constructor
  · rintro ⟨k, hk, hlook, hlast⟩
    obtain ⟨hfits, rfl⟩ := look_eq_some_iff.mp hlook
    refine ⟨hfits, fun l hl => ?_⟩
    by_contra hlt
    exact look_eq_none_iff.mp (hlast l (by omega) hl.lt) hl
  · rintro ⟨hfits, hlast⟩
    refine ⟨i, hfits.lt, look_eq_some_iff.mpr ⟨hfits, rfl⟩, fun l hl _ => ?_⟩
    rw [look_eq_none_iff]
    intro hl'
    have hle := hlast l hl'
    omega

theorem exists_lastFit (h : Fits lens n i) : ∃ j, LastFit lens n j := by
  cases hfind : SortedCompactVec.findSlow lens n with
  | some j => exact ⟨j, findSlow_eq_some_iff.mp hfind⟩
  | none =>
    unfold SortedCompactVec.findSlow at hfind
    rw [List.findSome?_eq_none_iff] at hfind
    have hnone := hfind i (List.mem_reverse.mpr (List.mem_range.mpr h.lt))
    exact absurd h (look_eq_none_iff.mp hnone)

/-- The ranges behind the groups are those of the plain search, from the end. -/
theorem findTail_eq_some_iff : SortedCompactVec.findTail lens n = some i ↔
    LastFit lens n i ∧ lens.length / 64 ≤ i / 64 := by
  have hlook : SortedCompactVec.findTail lens n =
      (List.range (lens.length % 64)).reverse.findSome? fun k =>
        SortedCompactVec.look lens n (k + lens.length / 64 * 64) := by
    unfold SortedCompactVec.findTail SortedCompactVec.look SortedCompactVec.lanes
    congr 1
    funext k
    cases lens[k + lens.length / 64 * 64]? <;> rfl
  rw [hlook, findSome_reverse_range]
  constructor
  · rintro ⟨k, hk, hfound, hlast⟩
    obtain ⟨hfits, rfl⟩ := look_eq_some_iff.mp hfound
    refine ⟨⟨hfits, fun l hl => ?_⟩, by omega⟩
    by_contra hlt
    have hbound := hl.lt
    have hnone := hlast (l - lens.length / 64 * 64) (by omega) (by omega)
    rw [Nat.sub_add_cancel (by omega), look_eq_none_iff] at hnone
    exact hnone hl
  · rintro ⟨⟨hfits, hlast⟩, hle⟩
    have hbound := hfits.lt
    have hback : i - lens.length / 64 * 64 + lens.length / 64 * 64 = i :=
      Nat.sub_add_cancel (by omega)
    refine ⟨i - lens.length / 64 * 64, by omega, ?_, fun l hl hl' => ?_⟩
    · rw [hback]
      exact look_eq_some_iff.mpr ⟨hfits, rfl⟩
    · rw [look_eq_none_iff]
      intro hl''
      have hle := hlast _ hl''
      omega

/-- The first lane of a group that is long enough. -/
theorem findLane_eq_some_iff {group lane : ℕ} :
    ((lens.drop (group * 64)).take 64).findIdx? (fun len => decide (n.toNat ≤ len.toNat)) =
      some lane ↔
      lane < 64 ∧ Fits lens n (group * 64 + lane) ∧
        ∀ k < lane, ¬Fits lens n (group * 64 + k) := by
  have hget : ∀ k < 64, ((lens.drop (group * 64)).take 64)[k]? = lens[group * 64 + k]? := by
    intro k hk
    rw [List.getElem?_take_of_lt hk, List.getElem?_drop]
  rw [List.findIdx?_eq_some_iff_getElem]
  constructor
  · rintro ⟨hlt, hle, hbefore⟩
    have hlane : lane < 64 := by
      rw [List.length_take] at hlt
      omega
    have hvalue := hget lane hlane
    rw [List.getElem?_eq_getElem hlt] at hvalue
    refine ⟨hlane, ⟨_, hvalue.symm, of_decide_eq_true hle⟩, fun k hk => ?_⟩
    rintro ⟨len, hlen, hfit⟩
    rw [← hget k (by omega), List.getElem?_eq_getElem (by omega)] at hlen
    rw [← Option.some.inj hlen] at hfit
    exact hbefore k hk (decide_eq_true hfit)
  · rintro ⟨hlane, ⟨len, hlen, hfit⟩, hbefore⟩
    rw [← hget lane hlane] at hlen
    obtain ⟨hlt, rfl⟩ := List.getElem?_eq_some_iff.mp hlen
    refine ⟨hlt, decide_eq_true hfit, fun k hk hle => ?_⟩
    refine hbefore k hk ⟨_, ?_, of_decide_eq_true hle⟩
    rw [← hget k (by omega), List.getElem?_eq_getElem]

/-- A group without one that is long enough. -/
theorem findLane_eq_none {k : ℕ}
    (h : ((lens.drop (k / 64 * 64)).take 64).findIdx? (fun len => decide (n.toNat ≤ len.toNat)) =
      none) : ¬Fits lens n k := by
  rintro ⟨len, hlen, hfit⟩
  rw [List.findIdx?_eq_none_iff] at h
  have hmem : len ∈ (lens.drop (k / 64 * 64)).take 64 := by
    rw [List.mem_iff_getElem?]
    refine ⟨k % 64, ?_⟩
    rw [List.getElem?_take_of_lt (Nat.mod_lt _ (by decide)), List.getElem?_drop,
      Nat.div_add_mod' k 64, hlen]
  have hsmall := h len hmem
  rw [decide_eq_false_iff_not] at hsmall
  exact hsmall hfit

theorem findLanes_eq_some_iff :
    SortedCompactVec.findLanes lens n = some i ↔ FirstOfGroup lens n i := by
  unfold SortedCompactVec.findLanes SortedCompactVec.lanes
  rw [findSome_reverse_range]
  constructor
  · rintro ⟨group, hgroup, hfound, hlast⟩
    obtain ⟨lane, hlane, rfl⟩ := Option.map_eq_some_iff.mp hfound
    obtain ⟨hlt, hfits, hbefore⟩ := findLane_eq_some_iff.mp hlane
    refine ⟨hfits, by omega, fun k hk hwhole => ?_, fun k hk hsame => ?_⟩
    · by_contra hlt'
      have hnone := hlast (k / 64) (by omega) hwhole
      exact findLane_eq_none (Option.map_eq_none_iff.mp hnone) hk
    · by_contra hlt'
      have hk' : group * 64 + (k - group * 64) = k := by omega
      exact hbefore (k - group * 64) (by omega) (hk'.symm ▸ hk)
  · rintro ⟨hfits, hwhole, hlast, hfirst⟩
    refine ⟨i / 64, hwhole, ?_, fun l hl hl' => ?_⟩
    · rw [Option.map_eq_some_iff]
      refine ⟨i % 64, findLane_eq_some_iff.mpr ⟨Nat.mod_lt _ (by decide), ?_, fun k hk hk' => ?_⟩,
        Nat.div_add_mod' i 64⟩
      · rwa [Nat.div_add_mod' i 64]
      · have hle := hfirst _ hk' (by omega)
        omega
    · rw [Option.map_eq_none_iff]
      by_contra hsome
      obtain ⟨lane, hlane⟩ := Option.ne_none_iff_exists'.mp hsome
      obtain ⟨hlt, hfits', -⟩ := findLane_eq_some_iff.mp hlane
      have hle := hlast _ hfits' (by omega)
      omega

/-- Where the search with vectors and the plain one end up. -/
theorem findExact_cases :
    (∃ i j, FirstOfGroup lens n i ∧ LastFit lens n j ∧
        SortedCompactVec.findExact lens n = some i ∧ SortedCompactVec.findSlow lens n = some j) ∨
      (∀ i, ¬FirstOfGroup lens n i) ∧
        SortedCompactVec.findExact lens n = SortedCompactVec.findSlow lens n := by
  unfold SortedCompactVec.findExact
  cases hlanes : SortedCompactVec.findLanes lens n with
  | some i =>
    have hfirst := findLanes_eq_some_iff.mp hlanes
    obtain ⟨j, hj⟩ := exists_lastFit hfirst.fits
    exact .inl ⟨i, j, hfirst, hj, rfl, findSlow_eq_some_iff.mpr hj⟩
  | none =>
    have hnone : ∀ i, ¬FirstOfGroup lens n i := by
      intro i hi
      rw [findLanes_eq_some_iff.mpr hi] at hlanes
      cases hlanes
    refine .inr ⟨hnone, ?_⟩
    change SortedCompactVec.findTail lens n = _
    -- a range that is long enough in a group would be found there
    have htail : ∀ k, Fits lens n k → lens.length / 64 ≤ k / 64 := by
      intro k hk
      by_contra hlt
      unfold SortedCompactVec.findLanes SortedCompactVec.lanes at hlanes
      rw [List.findSome?_eq_none_iff] at hlanes
      have hgroup := hlanes (k / 64) (by simpa using hlt)
      exact findLane_eq_none (Option.map_eq_none_iff.mp hgroup) hk
    apply Option.ext
    intro i
    rw [findTail_eq_some_iff, findSlow_eq_some_iff]
    exact ⟨fun h => h.1, fun h => ⟨h, htail i h.fits⟩⟩

end Searches

section Outcomes

variable {checks : Bool} {data : SortedCompactVec w} {n : BitVec w} {i j : ℕ} {a b : Entry w}

theorem carve_eq (h : n.toNat ≤ a.len.toNat) :
    SortedCompactVec.carve checks data i a n =
      if checks = true ∧ 2 ^ w ≤ a.start.toNat + a.len.toNat then .error .overflow
      else .ok (some ⟨a.start + (a.len - n), a.start + a.len⟩,
        data.set i { a with len := a.len - n }) := by
  have hlen : (a.len - n).toNat = a.len.toNat - n.toNat := BitVec.toNat_sub_of_le (BitVec.le_def.mpr h)
  have hback : a.start + (a.len - n) + n = a.start + a.len := by
    rw [BitVec.add_assoc, BitVec.sub_add_cancel]
  have hsub : sub checks a.len n = .ok (a.len - n) := sub_of_le h
  unfold SortedCompactVec.carve
  simp only [hsub, bind, Except.bind, pure, Except.pure]
  by_cases hover : checks = true ∧ 2 ^ w ≤ a.start.toNat + a.len.toNat
  · rw [if_pos hover]
    unfold add
    by_cases hfirst : 2 ^ w ≤ a.start.toNat + (a.len - n).toNat
    · rw [if_pos ⟨hover.1, hfirst⟩]
    · rw [if_neg (fun h => hfirst h.2)]
      have hnat : (a.start + (a.len - n)).toNat = a.start.toNat + (a.len - n).toNat :=
        BitVec.toNat_add_of_lt (by omega)
      dsimp only
      rw [if_pos ⟨hover.1, by omega⟩]
  · rw [if_neg hover]
    unfold add
    rw [if_neg (fun hfirst => hover ⟨hfirst.1, by omega⟩)]
    dsimp only
    rw [hback]
    by_cases hchecks : checks = true
    · have hlt : ¬2 ^ w ≤ a.start.toNat + a.len.toNat := fun h => hover ⟨hchecks, h⟩
      have hnat : (a.start + (a.len - n)).toNat = a.start.toNat + (a.len - n).toNat :=
        BitVec.toNat_add_of_lt (by omega)
      rw [if_neg (fun hsecond => hlt (by omega))]
    · rw [if_neg (fun hsecond => hchecks hsecond.1)]

/-- Removing one or the other comes to the same if all between are equal. -/
theorem eraseIdx_eq_iff {α : Type*} {l : List α} {x : α} (hij : i ≤ j) (hi : l[i]? = some x) :
    l.eraseIdx i = l.eraseIdx j ↔ ∀ k, i ≤ k → k ≤ j → l[k]? = some x := by
  constructor
  · intro h k hik hkj
    induction k, hik using Nat.le_induction with
    | base => exact hi
    | succ k hik ih =>
      have hk := congrArg (·[k]?) h
      simp only [List.getElem?_eraseIdx] at hk
      rw [if_neg (by omega), if_pos (by omega)] at hk
      rw [hk, ih (by omega)]
  · intro h
    apply List.ext_getElem?
    intro k
    simp only [List.getElem?_eraseIdx]
    by_cases hki : k < i
    · rw [if_pos hki, if_pos (by omega)]
    · by_cases hkj : k < j
      · rw [if_neg hki, if_pos hkj, h k (by omega) (by omega), h (k + 1) (by omega) (by omega)]
      · rw [if_neg hki, if_neg hkj]

/-- Taking from one range or the other comes to the same: both are used up and equal
to all between them, or nothing is taken and they have the same end. -/
def Alike (checks : Bool) (data : SortedCompactVec w) (n : BitVec w) (i j : ℕ) : Prop :=
  ∃ a b, data[i]? = some a ∧ data[j]? = some b ∧
    (a.len = n ∧ (∀ k, i ≤ k → k ≤ j → data[k]? = some a) ∨
      a.len ≠ n ∧ b.len ≠ n ∧
        (n = 0 ∧ a.stop checks = b.stop checks ∨
          checks = true ∧ 2 ^ w ≤ a.start.toNat + a.len.toNat ∧
            2 ^ w ≤ b.start.toNat + b.len.toNat))

theorem popFound_used (h : data[i]? = some a) (hlen : a.len = n) :
    SortedCompactVec.popFound checks data n (some i) =
      .ok (some ⟨a.start, a.len⟩, data.eraseIdx i) := by
  unfold SortedCompactVec.popFound Storage.remove
  simp only [h, if_pos hlen]

theorem popFound_kept (h : data[i]? = some a) (hlen : a.len ≠ n) (hfit : n.toNat ≤ a.len.toNat) :
    SortedCompactVec.popFound checks data n (some i) =
      if checks = true ∧ 2 ^ w ≤ a.start.toNat + a.len.toNat then .error .overflow
      else .ok (some ⟨a.start + (a.len - n), a.start + a.len⟩,
        data.set i { a with len := a.len - n }) := by
  unfold SortedCompactVec.popFound
  simp only [h, if_neg hlen, carve_eq hfit]

/-- Taking nothing changes no range, and what is taken from one is missing there. -/
theorem set_eq_set_iff (hij : i ≠ j) (hi : data[i]? = some a) (hj : data[j]? = some b) :
    data.set i { a with len := a.len - n } = data.set j { b with len := b.len - n } ↔ n = 0 := by
  obtain ⟨hi', hgeti⟩ := List.getElem?_eq_some_iff.mp hi
  obtain ⟨hj', hgetj⟩ := List.getElem?_eq_some_iff.mp hj
  constructor
  · intro h
    have hentry := congrArg (·[i]?) h
    beta_reduce at hentry
    rw [List.getElem?_set_self hi', List.getElem?_set_ne hij.symm, hi] at hentry
    have hlen : a.len - n = a.len := congrArg Entry.len (Option.some.inj hentry)
    exact sub_eq_self.mp hlen
  · rintro rfl
    rw [sub_zero, sub_zero]
    have hkept : ∀ (k : ℕ) (hk : k < data.length), data.set k data[k] = data :=
      fun k hk => List.set_getElem_self hk
    rw [← hgeti, ← hgetj, hkept i hi', hkept j hj']

theorem popFound_eq_iff (hij : i < j) (hi : data[i]? = some a) (hj : data[j]? = some b)
    (ha : n.toNat ≤ a.len.toNat) (hb : n.toNat ≤ b.len.toNat) :
    SortedCompactVec.popFound checks data n (some i) =
      SortedCompactVec.popFound checks data n (some j) ↔ Alike checks data n i j := by
  have halike : Alike checks data n i j ↔
      a.len = n ∧ (∀ k, i ≤ k → k ≤ j → data[k]? = some a) ∨
      a.len ≠ n ∧ b.len ≠ n ∧
        (n = 0 ∧ a.stop checks = b.stop checks ∨
          checks = true ∧ 2 ^ w ≤ a.start.toNat + a.len.toNat ∧
            2 ^ w ≤ b.start.toNat + b.len.toNat) := by
    unfold Alike
    constructor
    · rintro ⟨a', b', ha', hb', h⟩
      obtain rfl := Option.some.inj (hi.symm.trans ha')
      obtain rfl := Option.some.inj (hj.symm.trans hb')
      exact h
    · intro h
      exact ⟨a, b, hi, hj, h⟩
  have hi' := (List.getElem?_eq_some_iff.mp hi).1
  have hj' := (List.getElem?_eq_some_iff.mp hj).1
  rw [halike]
  by_cases hused : a.len = n
  · rw [popFound_used hi hused]
    by_cases hused' : b.len = n
    · rw [popFound_used hj hused']
      constructor
      · intro h
        have hpair := Prod.ext_iff.mp (Except.ok.inj h)
        exact .inl ⟨hused, (eraseIdx_eq_iff hij.le hi).mp hpair.2⟩
      · rintro (⟨-, hall⟩ | ⟨hne, -⟩)
        · have hab := Option.some.inj (hj.symm.trans (hall j hij.le le_rfl))
          rw [hab, (eraseIdx_eq_iff hij.le hi).mpr hall]
        · exact absurd hused hne
    · rw [popFound_kept hj hused' hb]
      constructor
      · intro h
        exfalso
        split_ifs at h
        have hcount := congrArg List.length (Prod.ext_iff.mp (Except.ok.inj h)).2
        rw [List.length_set, List.length_eraseIdx_of_lt hi'] at hcount
        omega
      · rintro (⟨-, hall⟩ | ⟨hne, -⟩)
        · have hab := Option.some.inj (hj.symm.trans (hall j hij.le le_rfl))
          rw [hab] at hused'
          exact absurd hused hused'
        · exact absurd hused hne
  · rw [popFound_kept hi hused ha]
    by_cases hused' : b.len = n
    · rw [popFound_used hj hused']
      constructor
      · intro h
        exfalso
        split_ifs at h
        have hcount := congrArg List.length (Prod.ext_iff.mp (Except.ok.inj h)).2
        rw [List.length_set, List.length_eraseIdx_of_lt hj'] at hcount
        omega
      · rintro (⟨hused, -⟩ | ⟨-, hne, -⟩)
        · contradiction
        · exact absurd hused' hne
    · rw [popFound_kept hj hused' hb]
      unfold Entry.stop add
      by_cases hover : checks = true ∧ 2 ^ w ≤ a.start.toNat + a.len.toNat
      · by_cases hover' : checks = true ∧ 2 ^ w ≤ b.start.toNat + b.len.toNat
        · simp [hused, hused', hover, hover']
        · have hnot : ¬2 ^ w ≤ b.start.toNat + b.len.toNat := fun h => hover' ⟨hover.1, h⟩
          simp [hused, hused', hover, hnot]
      · by_cases hover' : checks = true ∧ 2 ^ w ≤ b.start.toNat + b.len.toNat
        · have hnot : ¬2 ^ w ≤ a.start.toNat + a.len.toNat := fun h => hover ⟨hover'.1, h⟩
          simp [hused, hused', hover', hnot]
        · rw [if_neg hover, if_neg hover', if_neg hover, if_neg hover']
          constructor
          · intro h
            obtain ⟨hrange, hlist⟩ := Prod.ext_iff.mp (Except.ok.inj h)
            have hzero := (set_eq_set_iff hij.ne hi hj).mp hlist
            have hstop := congrArg Range.stop (Option.some.inj hrange)
            exact .inr ⟨hused, hused', .inl ⟨hzero, congrArg Except.ok hstop⟩⟩
          · rintro (⟨hsame, -⟩ | ⟨-, -, ⟨hzero, hstop⟩ | ⟨hchecks, hbig, -⟩⟩)
            · contradiction
            · have hlist := (set_eq_set_iff hij.ne hi hj).mpr hzero
              have hstop' := Except.ok.inj hstop
              rw [hlist, hzero, sub_zero, sub_zero, hstop']
            · exact absurd ⟨hchecks, hbig⟩ hover

/-- The two searches come to the same exactly if the range that the vectors find is
the last that is long enough, or taking from one or the other makes no difference. -/
theorem popExact_eq_slow_iff (checks : Bool) (data : SortedCompactVec w) (n : BitVec w) :
    SortedCompactVec.popExact checks data n = SortedCompactVec.popExactSlow checks data n ↔
      ∀ i j, FirstOfGroup (data.map (·.len)) n i → LastFit (data.map (·.len)) n j →
        i = j ∨ Alike checks data n i j := by
  have hentry : ∀ i, Fits (data.map (·.len)) n i → ∃ e, data[i]? = some e ∧ n.toNat ≤ e.len.toNat := by
    rintro i ⟨len, hlen, hle⟩
    rw [List.getElem?_map, Option.map_eq_some_iff] at hlen
    obtain ⟨e, he, rfl⟩ := hlen
    exact ⟨e, he, hle⟩
  rw [SortedCompactVec.popExact_eq, SortedCompactVec.popExactSlow]
  rcases @findExact_cases w (data.map (·.len)) n with
    ⟨i, j, hi, hj, hexact, hslow⟩ | ⟨hnone, hsame⟩
  · rw [hexact, hslow]
    have hpair : (∀ i' j', FirstOfGroup (data.map (·.len)) n i' → LastFit (data.map (·.len)) n j' →
        i' = j' ∨ Alike checks data n i' j') ↔ (i = j ∨ Alike checks data n i j) := by
      constructor
      · intro h
        exact h i j hi hj
      · intro h i' j' hi' hj'
        rw [hi'.unique hi, hj'.unique hj]
        exact h
    rw [hpair]
    obtain ⟨a, ha, hfa⟩ := hentry i hi.fits
    obtain ⟨b, hb, hfb⟩ := hentry j hj.fits
    by_cases hij : i = j
    · rw [hij]
      simp
    · have hle := hj.last i hi.fits
      rw [popFound_eq_iff (by omega) ha hb hfa hfb]
      simp [hij]
  · rw [hsame]
    simp only [true_iff]
    intro i j hi
    exact absurd hi (hnone i)

end Outcomes

/-- A group of 64 ranges of two ids with gaps between them. One id is taken from the
first range by one search and from the last range by the other. -/
theorem popExact_first_of_group : ¬ ∀ (w : ℕ) (checks : Bool) (data : SortedCompactVec w)
    (n : BitVec w), SortedCompactVec.popExact checks data n =
      SortedCompactVec.popExactSlow checks data n := by
  intro h
  have hsame := h 16 false ((List.range 64).map fun i => ⟨BitVec.ofNat 16 (4 * i), 2⟩) 1
  have hfast : (SortedCompactVec.popExact false
      ((List.range 64).map fun i => (⟨BitVec.ofNat 16 (4 * i), 2⟩ : Entry 16)) 1).toOption.map
        Prod.fst = some (some ⟨1, 2⟩) := by
    decide +kernel
  have hslow : (SortedCompactVec.popExactSlow false
      ((List.range 64).map fun i => (⟨BitVec.ofNat 16 (4 * i), 2⟩ : Entry 16)) 1).toOption.map
        Prod.fst = some (some ⟨253, 254⟩) := by
    decide +kernel
  rw [hsame, hslow] at hfast
  exact absurd hfast (by decide)

end OrionNetwork.FreeList
