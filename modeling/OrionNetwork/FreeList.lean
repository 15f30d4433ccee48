import OrionNetwork.BlockHash
import OrionNetwork.Runs
import OrionNetwork.SortedVectors
import Mathlib.Order.CompletePartialOrder

/-!
# The list of free ids

Free ids are kept as ranges, sorted by their start, in two vectors: the starts
and the lengths. A range stands for the ids from its start up to and excluding
start plus length. Arithmetic that overflows panics or wraps, as the build
profile says.
-/
namespace OrionNetwork.FreeList
open BlockHash SortedVectors Runs

/-- The types an id may have. -/
inductive Elem where
  | u8 | u16 | u32 | u64 | u128 | usize
  deriving DecidableEq

def Elem.bits : Elem → ℕ
  | .u8 => 8
  | .u16 => 16
  | .u32 => 32
  | .u64 => 64
  | .u128 => 128
  | .usize => 64

variable {w : ℕ}

/-- `start..end` -/
structure Range (w : ℕ) where
  start : BitVec w
  stop : BitVec w
  deriving DecidableEq

structure Entry (w : ℕ) where
  start : BitVec w
  len : BitVec w
  deriving DecidableEq

abbrev SortedCompactVec (w : ℕ) := List (Entry w)

section Arithmetic

variable (checks : Bool)

def add (a b : BitVec w) : Except Panic (BitVec w) :=
  if checks = true ∧ 2 ^ w ≤ a.toNat + b.toNat then .error .overflow else .ok (a + b)

def sub (a b : BitVec w) : Except Panic (BitVec w) :=
  if checks = true ∧ a.toNat < b.toNat then .error .overflow else .ok (a - b)

def Entry.stop (e : Entry w) : Except Panic (BitVec w) := add checks e.start e.len

end Arithmetic

namespace Storage

variable (checks : Bool)

def insert (data : List (Entry w)) (index : ℕ) (elem : Range w) :
    Except Panic (List (Entry w)) := do
  let len ← sub checks elem.stop elem.start
  return data.insertIdx index ⟨elem.start, len⟩

/-- The range that is returned ends at the length, not at the end. -/
def remove (data : List (Entry w)) (index : ℕ) : Option (Range w × List (Entry w)) :=
  match data[index]? with
  | none => none
  | some e => some (⟨e.start, e.len⟩, data.eraseIdx index)

def pop (data : List (Entry w)) : Option (Range w × List (Entry w)) :=
  if data.length = 0 then none else remove data (data.length - 1)

/-- The index and the entry. For an empty vector the index overflows, and no
vector is so long. -/
def lastMut (data : List (Entry w)) : Except Panic (Option (ℕ × Entry w)) :=
  match data.getLast? with
  | none => if checks then .error .overflow else .ok none
  | some e => .ok (some (data.length - 1, e))

end Storage

namespace SortedCompactVec

variable (checks : Bool)

def new (w : ℕ) : SortedCompactVec w := [⟨0, BitVec.allOnes w⟩]

def allocated (w : ℕ) : SortedCompactVec w := []

/-- Whether the range starts one past the end of the entry before it. -/
def incPrev (data : SortedCompactVec w) (i : ℕ) (range : Range w) : Except Panic Bool :=
  match if i = 0 then none else data[i - 1]? with
  | none => .ok false
  | some other => do
    let stop ← other.stop checks
    let next ← add checks stop 1
    return decide (range.start = next)

def decNext (data : SortedCompactVec w) (i : ℕ) (range : Range w) : Except Panic Bool :=
  match data[i]? with
  | none => .ok false
  | some other => do
    let next ← add checks other.start 1
    return decide (range.stop = next)

/-- The entry at `i` gets longer by `stop - start`. -/
def grow (data : SortedCompactVec w) (i : ℕ) (start stop : BitVec w) :
    Except Panic (SortedCompactVec w) :=
  match data[i]? with
  | none => .error (.expect "called `Option::unwrap()` on a `None` value")
  | some e => do
    let by' ← sub checks stop start
    let len ← add checks e.len by'
    return data.set i { e with len := len }

def pushRange (data : SortedCompactVec w) (range : Range w) :
    Except Panic (Bool × SortedCompactVec w) :=
  match binarySearchByKey (fun e : Entry w => e.start.toNat) data range.start.toNat with
  | .ok _ => .ok (false, data)
  | .error i => do
    let inc ← incPrev checks data i range
    let dec ← decNext checks data i range
    match inc, dec with
    | true, true =>
      match Storage.remove data i with
      | none => .error (.expect "called `Option::unwrap()` on a `None` value")
      | some (other, data) => do
        let data ← grow checks data (i - 1) other.start other.stop
        return (true, data)
    | true, false => do
      let data ← grow checks data (i - 1) range.start range.stop
      return (true, data)
    | false, true =>
      match data[i]? with
      | none => .error (.expect "called `Option::unwrap()` on a `None` value")
      | some e => do
        let data ← grow checks (data.set i { e with start := range.start }) i range.start range.stop
        return (true, data)
    | false, false => do
      let data ← Storage.insert checks data i range
      return (true, data)

def push (data : SortedCompactVec w) (value : BitVec w) :
    Except Panic (Bool × SortedCompactVec w) := do
  let stop ← add checks value 1
  pushRange checks data ⟨value, stop⟩

def pop (data : SortedCompactVec w) : Except Panic (Option (BitVec w) × SortedCompactVec w) := do
  match ← Storage.lastMut checks data with
  | none => return (none, data)
  | some (i, last) =>
    if last.len = 0 then
      match Storage.pop data with
      | none => return (none, data)
      | some (r, data) => return (some r.start, data)
    else
      let len ← sub checks last.len 1
      let stop ← add checks last.start len
      let value ← add checks stop 1
      return (some value, data.set i { last with len := len })

/-- The last `n` ids of the entry at `i`. -/
def carve (data : SortedCompactVec w) (i : ℕ) (e : Entry w) (n : BitVec w) :
    Except Panic (Option (Range w) × SortedCompactVec w) := do
  let len ← sub checks e.len n
  let start ← add checks e.start len
  let stop ← add checks start n
  return (some ⟨start, stop⟩, data.set i { e with len := len })

def popN (data : SortedCompactVec w) (n : BitVec w) :
    Except Panic (Option (Range w) × SortedCompactVec w) := do
  match ← Storage.lastMut checks data with
  | none => return (none, data)
  | some (i, last) =>
    if last.len.toNat < n.toNat then
      match Storage.pop data with
      | none => return (none, data)
      | some (r, data) => return (some r, data)
    else carve checks data i last n

def lanes : ℕ := 64

/-- The last vector of lanes that has a long enough range, and its first lane
that does. -/
def findLanes (lens : List (BitVec w)) (n : BitVec w) : Option ℕ :=
  (List.range (lens.length / lanes)).reverse.findSome? fun i =>
    (((lens.drop (i * lanes)).take lanes).findIdx? fun len => decide (n.toNat ≤ len.toNat)).map
      (i * lanes + ·)

/-- The ranges that fill no vector, from the end. -/
def findTail (lens : List (BitVec w)) (n : BitVec w) : Option ℕ :=
  (List.range (lens.length % lanes)).reverse.findSome? fun i =>
    match lens[i + lens.length / lanes * lanes]? with
    | none => none
    | some len => if n.toNat ≤ len.toNat then some (i + lens.length / lanes * lanes) else none

def findExact (lens : List (BitVec w)) (n : BitVec w) : Option ℕ :=
  match findLanes lens n with
  | some i => some i
  | none => findTail lens n

def popExact (data : SortedCompactVec w) (n : BitVec w) :
    Except Panic (Option (Range w) × SortedCompactVec w) :=
  match findExact (data.map (·.len)) n with
  | none => .ok (none, data)
  | some i =>
    match data[i]? with
    | none => .error (.expect "called `Option::unwrap()` on a `None` value")
    | some changed =>
      if changed.len = n then
        match Storage.remove data i with
        | none => .ok (none, data)
        | some (r, data) => .ok (some r, data)
      else carve checks data i changed n

end SortedCompactVec

inductive Op (w : ℕ) where
  | push (value : BitVec w)
  | pushRange (range : Range w)
  | pop
  | popN (n : BitVec w)
  | popExact (n : BitVec w)

/-- What an operation hands out. -/
inductive Given (w : ℕ) where
  | nothing
  | one (value : BitVec w)
  | range (r : Range w)

def apply (checks : Bool) (data : SortedCompactVec w) :
    Op w → Except Panic (Given w × SortedCompactVec w)
  | .push value => (SortedCompactVec.push checks data value).map fun r => (.nothing, r.2)
  | .pushRange range => (SortedCompactVec.pushRange checks data range).map fun r => (.nothing, r.2)
  | .pop => (SortedCompactVec.pop checks data).map fun r => (r.1.elim .nothing .one, r.2)
  | .popN n => (SortedCompactVec.popN checks data n).map fun r => (r.1.elim .nothing .range, r.2)
  | .popExact n =>
    (SortedCompactVec.popExact checks data n).map fun r => (r.1.elim .nothing .range, r.2)

def Entry.Covers (e : Entry w) (x : BitVec w) : Prop :=
  e.start.toNat ≤ x.toNat ∧ x.toNat < e.start.toNat + e.len.toNat

/-- The ids that the list represents. -/
def ids (data : SortedCompactVec w) : Set (BitVec w) := {x | ∃ e ∈ data, e.Covers x}

def Range.ids (r : Range w) : Set (BitVec w) := {x | r.start.toNat ≤ x.toNat ∧ x.toNat < r.stop.toNat}

def Given.ids : Given w → Set (BitVec w)
  | .nothing => ∅
  | .one value => {value}
  | .range r => r.ids

def Op.pushed : Op w → Set (BitVec w)
  | .push value => {value}
  | .pushRange r => r.ids
  | _ => ∅

/-- The list, and the ids that are free by what was pushed and handed out. -/
structure Ledger (w : ℕ) where
  data : SortedCompactVec w
  free : Set (BitVec w)

namespace Ledger

def new (w : ℕ) : Ledger w := ⟨.new w, {x | x ≠ BitVec.allOnes w}⟩

def allocated (w : ℕ) : Ledger w := ⟨.allocated w, ∅⟩

def Step (checks : Bool) (s : Ledger w) (op : Op w) (s' : Ledger w) : Prop :=
  ∃ given data, apply checks s.data op = .ok (given, data) ∧
    s' = ⟨data, (s.free ∪ op.pushed) \ given.ids⟩

/-- Ranges that are pushed are not empty and not free already. -/
def Allowed (s : Ledger w) : Op w → Prop
  | .push value => value.toNat + 1 < 2 ^ w ∧ value ∉ s.free
  | .pushRange r => r.start.toNat < r.stop.toNat ∧ Disjoint s.free r.ids
  | _ => True

/-- What an operation should do. -/
structure Exact (s : Ledger w) (op : Op w) (given : Given w) (data : SortedCompactVec w) :
    Prop where
  free : given.ids ⊆ s.free
  represented : FreeList.ids data = (s.free ∪ op.pushed) \ given.ids
  whole : ∀ n r, op = .popExact n → given = .range r → r.stop.toNat = r.start.toNat + n.toNat
  atMost : ∀ n r, op = .popN n → given = .range r →
    r.start.toNat ≤ r.stop.toNat ∧ r.stop.toNat ≤ r.start.toNat + n.toNat
  none : s.free = ∅ → given = .nothing

/-- Right now and after any further operation of the kind `ok`. -/
structure Sound (checks : Bool) (ok : Ledger w → Op w → Prop) (s : Ledger w) : Prop where
  represented : FreeList.ids s.data = s.free
  exact : ∀ op, s.Allowed op → ok s op →
    ∃ given data, apply checks s.data op = .ok (given, data) ∧ s.Exact op given data

/-- No single id is missing between the free ids and a range that starts at `start`. -/
def NoGap (s : Ledger w) (start : BitVec w) : Prop :=
  ∀ x ∈ s.free, x.toNat + 2 = start.toNat → x + 1 ∈ s.free

/-- What keeps clear of the defects. -/
def Safe (checks : Bool) (s : Ledger w) : Op w → Prop
  | .push value => s.NoGap value
  | .pushRange r => s.NoGap r.start
  | .pop => s.data = [] ∧ checks = false
  | .popN n =>
    match s.data.getLast? with
    | none => checks = false
    | some last => n.toNat < last.len.toNat ∨ last.len.toNat < n.toNat ∧ last.start = 0
  | .popExact n => ∀ i e, SortedCompactVec.findExact (s.data.map (·.len)) n = some i →
    s.data[i]? = some e → n.toNat < e.len.toNat ∨ e.start = 0

end Ledger

section Ranges

variable {data pre post : SortedCompactVec w} {e : Entry w} {checks : Bool}

/-- Sorted ranges without overlap, none of them empty. -/
structure WellFormed (data : SortedCompactVec w) : Prop where
  apart : data.Pairwise fun a b => a.start.toNat + a.len.toNat ≤ b.start.toNat
  pos : ∀ e ∈ data, 0 < e.len.toNat
  bound : ∀ e ∈ data, e.start.toNat + e.len.toNat < 2 ^ w

theorem WellFormed.covers_start (h : WellFormed data) (he : e ∈ data) : e.Covers e.start := by
  have hpos := h.pos e he
  exact ⟨le_rfl, by omega⟩

theorem WellFormed.sublist {data' : SortedCompactVec w} (h : WellFormed data)
    (hsub : data'.Sublist data) : WellFormed data' :=
  ⟨h.apart.sublist hsub, fun e he => h.pos e (hsub.subset he),
    fun e he => h.bound e (hsub.subset he)⟩

theorem WellFormed.ascending (h : WellFormed data) :
    Ascending (fun e : Entry w => e.start.toNat) data := by
  refine h.apart.imp_of_mem ?_
  intro a b ha _ hab
  have := h.pos a ha
  show a.start.toNat < b.start.toNat
  omega

theorem mem_ids_append_cons {x : BitVec w} :
    x ∈ ids (pre ++ e :: post) ↔ x ∈ ids (pre ++ post) ∨ e.Covers x := by
  simp only [ids, Set.mem_ofPred_eq, List.mem_append, List.mem_cons]
  constructor
  · rintro ⟨e', he | rfl | he, hx⟩
    · exact .inl ⟨e', .inl he, hx⟩
    · exact .inr hx
    · exact .inl ⟨e', .inr he, hx⟩
  · rintro (⟨e', he, hx⟩ | hx)
    · exact ⟨e', he.imp_right .inr, hx⟩
    · exact ⟨e, .inr (.inl rfl), hx⟩

/-- An entry shares no id with the others. -/
theorem WellFormed.notMem (h : WellFormed (pre ++ e :: post)) {x : BitVec w} (hx : e.Covers x) :
    x ∉ ids (pre ++ post) := by
  rintro ⟨e', he, hx'⟩
  obtain ⟨-, hpost, hcross⟩ := List.pairwise_append.mp h.apart
  unfold Entry.Covers at hx hx'
  rcases List.mem_append.mp he with he | he
  · have := hcross e' he e List.mem_cons_self
    omega
  · have := (List.pairwise_cons.mp hpost).1 e' he
    omega

theorem WellFormed.insert (h : WellFormed (pre ++ post)) (hpos : 0 < e.len.toNat)
    (hlow : ∀ a ∈ pre, a.start.toNat + a.len.toNat ≤ e.start.toNat)
    (hhigh : ∀ b ∈ post, e.start.toNat + e.len.toNat ≤ b.start.toNat)
    (hbound : e.start.toNat + e.len.toNat < 2 ^ w) : WellFormed (pre ++ e :: post) := by
  obtain ⟨hpre, hpost, hcross⟩ := List.pairwise_append.mp h.apart
  refine ⟨List.pairwise_append.mpr ⟨hpre, List.pairwise_cons.mpr ⟨hhigh, hpost⟩, ?_⟩, ?_, ?_⟩
  · intro a ha b hb
    rcases List.mem_cons.mp hb with rfl | hb
    · exact hlow a ha
    · exact hcross a ha b hb
  · intro a ha
    rcases List.mem_append.mp ha with ha | ha
    · exact h.pos a (List.mem_append_left _ ha)
    · rcases List.mem_cons.mp ha with rfl | ha
      · exact hpos
      · exact h.pos a (List.mem_append_right _ ha)
  · intro a ha
    rcases List.mem_append.mp ha with ha | ha
    · exact h.bound a (List.mem_append_left _ ha)
    · rcases List.mem_cons.mp ha with rfl | ha
      · exact hbound
      · exact h.bound a (List.mem_append_right _ ha)

/-- A shorter entry in place of another. -/
theorem WellFormed.shrink (h : WellFormed (pre ++ e :: post)) {e' : Entry w}
    (hstart : e.start.toNat ≤ e'.start.toNat) (hpos : 0 < e'.len.toNat)
    (hstop : e'.start.toNat + e'.len.toNat ≤ e.start.toNat + e.len.toNat) :
    WellFormed (pre ++ e' :: post) := by
  obtain ⟨-, hpost, hcross⟩ := List.pairwise_append.mp h.apart
  have hbound := h.bound e (by simp)
  have hrest : WellFormed (pre ++ post) :=
    h.sublist ((List.sublist_cons_self e post).append_left pre)
  refine hrest.insert hpos ?_ ?_ (by omega)
  · intro a ha
    have := hcross a ha e List.mem_cons_self
    omega
  · intro b hb
    have := (List.pairwise_cons.mp hpost).1 b hb
    omega

theorem add_of_lt {a b : BitVec w} (h : a.toNat + b.toNat < 2 ^ w) :
    add checks a b = .ok (a + b) := by
  rw [add, if_neg]
  rintro ⟨-, hle⟩
  omega

theorem sub_of_le {a b : BitVec w} (h : b.toNat ≤ a.toNat) : sub checks a b = .ok (a - b) := by
  rw [sub, if_neg]
  rintro ⟨-, hlt⟩
  omega

theorem toNat_add_of_lt {a b : BitVec w} (h : a.toNat + b.toNat < 2 ^ w) :
    (a + b).toNat = a.toNat + b.toNat := by
  rw [BitVec.toNat_add, Nat.mod_eq_of_lt h]

theorem toNat_sub_of_le {a b : BitVec w} (h : b.toNat ≤ a.toNat) :
    (a - b).toNat = a.toNat - b.toNat := BitVec.toNat_sub_of_le (BitVec.le_def.mpr h)

/-- Two ids make a width of at least one bit. -/
theorem toNat_one_of_lt {a : BitVec w} {n : ℕ} (h : a.toNat < n) (hn : n < 2 ^ w) :
    (1 : BitVec w).toNat = 1 := by
  apply BitVec.toNat_one
  by_contra hw
  obtain rfl : w = 0 := by omega
  omega

theorem carve_spec {n : BitVec w} (h : WellFormed (pre ++ e :: post))
    (hn : n.toNat < e.len.toNat) :
    ∃ r data', SortedCompactVec.carve checks (pre ++ e :: post) pre.length e n =
        .ok (some r, data') ∧ WellFormed data' ∧ r.ids ⊆ ids (pre ++ e :: post) ∧
      ids data' = ids (pre ++ e :: post) \ r.ids ∧ r.stop.toNat = r.start.toNat + n.toNat := by
  have hbound := h.bound e (by simp)
  have hlen : (e.len - n).toNat = e.len.toNat - n.toNat := toNat_sub_of_le hn.le
  have hstart : (e.start + (e.len - n)).toNat = e.start.toNat + (e.len.toNat - n.toNat) := by
    rw [toNat_add_of_lt (by omega), hlen]
  have hstop : (e.start + (e.len - n) + n).toNat = e.start.toNat + e.len.toNat := by
    rw [toNat_add_of_lt (by omega), hstart]
    omega
  refine ⟨⟨e.start + (e.len - n), e.start + (e.len - n) + n⟩,
    pre ++ { e with len := e.len - n } :: post, ?_, ?_, ?_, ?_, ?_⟩
  · have hsub : sub checks e.len n = .ok (e.len - n) := sub_of_le hn.le
    have hadd : add checks e.start (e.len - n) = .ok (e.start + (e.len - n)) :=
      add_of_lt (by omega)
    have hadd' : add checks (e.start + (e.len - n)) n = .ok (e.start + (e.len - n) + n) :=
      add_of_lt (by omega)
    simp only [SortedCompactVec.carve, bind, Except.bind, pure, Except.pure, hsub, hadd, hadd',
      set_length_append]
  · refine h.shrink le_rfl ?_ ?_
    · simp only [hlen]
      omega
    · simp only [hlen]
      omega
  · intro x hx
    simp only [Range.ids, Set.mem_ofPred_eq, hstart, hstop] at hx
    refine mem_ids_append_cons.mpr (.inr ?_)
    unfold Entry.Covers
    omega
  · ext x
    rw [Set.mem_sdiff, mem_ids_append_cons, mem_ids_append_cons]
    have hother := h.notMem (x := x)
    simp only [Entry.Covers, Range.ids, Set.mem_ofPred_eq, hlen, hstart, hstop] at hother ⊢
    constructor
    · rintro (hx | hx)
      · refine ⟨.inl hx, ?_⟩
        intro hr
        exact hother (by omega) hx
      · exact ⟨.inr (by omega), by omega⟩
    · rintro ⟨hx | hx, hr⟩
      · exact .inl hx
      · exact .inr (by omega)
  · simp only [hstart, hstop]
    omega

theorem remove_append (pre : SortedCompactVec w) (e : Entry w) (post : SortedCompactVec w) :
    Storage.remove (pre ++ e :: post) pre.length = some (⟨e.start, e.len⟩, pre ++ post) := by
  have hget : (pre ++ e :: post)[pre.length]? = some e := by simp
  rw [Storage.remove, hget, eraseIdx_length_append]

theorem pop_append (pre : SortedCompactVec w) (e : Entry w) :
    Storage.pop (pre ++ [e]) = some (⟨e.start, e.len⟩, pre) := by
  rw [Storage.pop, if_neg (by simp), List.length_append, List.length_singleton,
    Nat.add_sub_cancel, remove_append, List.append_nil]

/-- An entry that starts at zero is handed out as it is. -/
theorem remove_spec (h : WellFormed (pre ++ e :: post)) (hzero : e.start = 0) :
    WellFormed (pre ++ post) ∧ (Range.mk e.start e.len).ids ⊆ ids (pre ++ e :: post) ∧
      ids (pre ++ post) = ids (pre ++ e :: post) \ (Range.mk e.start e.len).ids := by
  have hcovers : ∀ x, x ∈ (Range.mk e.start e.len).ids ↔ e.Covers x := by
    intro x
    simp [Range.ids, Entry.Covers, hzero]
  refine ⟨h.sublist ((List.sublist_cons_self e post).append_left pre), ?_, ?_⟩
  · intro x hx
    exact mem_ids_append_cons.mpr (.inr ((hcovers x).mp hx))
  · ext x
    rw [Set.mem_sdiff, mem_ids_append_cons, hcovers]
    constructor
    · intro hx
      exact ⟨.inl hx, fun hcover => h.notMem hcover hx⟩
    · rintro ⟨hx | hx, hnot⟩
      · exact hx
      · exact absurd hx hnot

/-- Neither neighbour takes the range in. -/
theorem merge_unused {r : Range w} (h : WellFormed (pre ++ post))
    (hrange : r.start.toNat < r.stop.toNat)
    (hlow : ∀ e ∈ pre, e.start.toNat + e.len.toNat ≤ r.start.toNat)
    (hgap : ∀ e, pre.getLast? = some e → e.start.toNat + e.len.toNat + 1 ≠ r.start.toNat)
    (hhigh : ∀ e ∈ post, r.stop.toNat ≤ e.start.toNat) :
    SortedCompactVec.incPrev checks (pre ++ post) pre.length r = .ok false ∧
      SortedCompactVec.decNext checks (pre ++ post) pre.length r = .ok false := by
  have hstop := r.stop.isLt
  constructor
  · obtain rfl | ⟨init, e, rfl⟩ := List.eq_nil_or_concat pre
    · rfl
    · rw [List.concat_eq_append] at h hlow hgap ⊢
      have hend := hlow e (by simp)
      have hone := toNat_one_of_lt hrange r.stop.isLt
      have hprev : (init ++ [e] ++ post)[(init ++ [e]).length - 1]? = some e := by simp
      have hadd : add checks e.start e.len = .ok (e.start + e.len) := add_of_lt (by omega)
      have hnat : (e.start + e.len).toNat = e.start.toNat + e.len.toNat :=
        toNat_add_of_lt (by omega)
      have hadd' : add checks (e.start + e.len) 1 = .ok (e.start + e.len + 1) :=
        add_of_lt (by omega)
      have hne : r.start ≠ e.start + e.len + 1 := by
        intro heq
        apply hgap e (by simp)
        rw [heq, toNat_add_of_lt (by omega), hnat, hone]
      rw [SortedCompactVec.incPrev, if_neg (by simp), hprev]
      simp only [Entry.stop, bind, Except.bind, pure, Except.pure, hadd, hadd', hne, decide_false]
  · cases post with
    | nil => simp [SortedCompactVec.decNext]
    | cons e post =>
      have hmem : e ∈ pre ++ e :: post := by simp
      have hbound := h.bound e hmem
      have hpos := h.pos e hmem
      have hstart := hhigh e List.mem_cons_self
      have hone := toNat_one_of_lt hrange r.stop.isLt
      have hnext : (pre ++ e :: post)[pre.length]? = some e := by simp
      have hadd : add checks e.start 1 = .ok (e.start + 1) := add_of_lt (by omega)
      have hne : r.stop ≠ e.start + 1 := by
        intro heq
        rw [heq, toNat_add_of_lt (by omega), hone] at hstart
        omega
      rw [SortedCompactVec.decNext, hnext]
      simp only [bind, Except.bind, pure, Except.pure, hadd, hne, decide_false]

/-- Where a range that has no id in the list belongs. -/
theorem binarySearch_split {r : Range w} {i : ℕ} (h : WellFormed data)
    (hrange : r.start.toNat < r.stop.toNat) (hdisjoint : Disjoint (ids data) r.ids)
    (hi : binarySearchByKey (·.start.toNat) data r.start.toNat = .error i) :
    ∃ pre post, data = pre ++ post ∧ pre.length = i ∧
      (∀ e ∈ pre, e.start.toNat + e.len.toNat ≤ r.start.toNat) ∧
      ∀ e ∈ post, r.stop.toNat ≤ e.start.toNat := by
  obtain ⟨pre, post, rfl, hi, hlow, hhigh⟩ := binarySearchByKey_error h.ascending hi
  refine ⟨pre, post, rfl, hi, ?_, ?_⟩
  · -- what starts before the range also ends before it
    intro e he
    by_contra hlt
    have hstart := hlow e he
    have hcover : e.Covers r.start := ⟨hstart.le, by omega⟩
    exact Set.disjoint_left.mp hdisjoint ⟨e, List.mem_append_left _ he, hcover⟩ ⟨le_rfl, hrange⟩
  · intro e he
    by_contra hlt
    have hstart := hhigh e he
    have hmem : e ∈ pre ++ post := List.mem_append_right _ he
    exact Set.disjoint_left.mp hdisjoint ⟨e, hmem, h.covers_start hmem⟩ ⟨hstart.le, by omega⟩

/-- The entry before the range does not end one id too early. -/
theorem getLast?_ne_of_noGap {r : Range w} (h : WellFormed (pre ++ post))
    (hrange : r.start.toNat < r.stop.toNat) (habove : ∀ e ∈ post, r.stop.toNat ≤ e.start.toNat)
    (hgap : ∀ x ∈ ids (pre ++ post), x.toNat + 2 = r.start.toNat → x + 1 ∈ ids (pre ++ post))
    (hlast : pre.getLast? = some e) : e.start.toNat + e.len.toNat + 1 ≠ r.start.toNat := by
  intro hone
  obtain ⟨init, rfl⟩ : ∃ init, pre = init ++ [e] := List.getLast?_eq_some_iff.mp hlast
  have hmem : e ∈ init ++ [e] ++ post := by simp
  have hpos := h.pos e hmem
  have hstart := r.start.isLt
  -- the last id of the entry is two below the range, and the one between is missing
  have hx : (BitVec.ofNat w (r.start.toNat - 2)).toNat = r.start.toNat - 2 := by
    rw [BitVec.toNat_ofNat, Nat.mod_eq_of_lt (by omega)]
  have hone' := toNat_one_of_lt hrange r.stop.isLt
  obtain ⟨e', he', hcover⟩ := hgap (BitVec.ofNat w (r.start.toNat - 2))
    ⟨e, hmem, by unfold Entry.Covers; omega⟩ (by omega)
  have hy : (BitVec.ofNat w (r.start.toNat - 2) + 1).toNat = r.start.toNat - 1 := by
    rw [toNat_add_of_lt (by omega), hx, hone']
    omega
  unfold Entry.Covers at hcover
  rcases List.mem_append.mp he' with he' | he'
  · rcases List.mem_append.mp he' with he' | he'
    · have hapart := (List.pairwise_append.mp (List.pairwise_append.mp h.apart).1).2.2
        e' he' e (by simp)
      omega
    · rw [List.mem_singleton.mp he'] at hcover
      omega
  · have := habove e' he'
    omega

/-- A range between two parts of the list. -/
theorem insert_spec {r : Range w} (h : WellFormed (pre ++ post))
    (hrange : r.start.toNat < r.stop.toNat)
    (hbelow : ∀ e ∈ pre, e.start.toNat + e.len.toNat ≤ r.start.toNat)
    (habove : ∀ e ∈ post, r.stop.toNat ≤ e.start.toNat) :
    WellFormed (pre ++ ⟨r.start, r.stop - r.start⟩ :: post) ∧
      ids (pre ++ ⟨r.start, r.stop - r.start⟩ :: post) = ids (pre ++ post) ∪ r.ids := by
  have hlen : (r.stop - r.start).toNat = r.stop.toNat - r.start.toNat := toNat_sub_of_le hrange.le
  have hstop := r.stop.isLt
  constructor
  · refine h.insert ?_ hbelow ?_ ?_
    · simp only [hlen]
      omega
    · intro e he
      have := habove e he
      simp only [hlen]
      omega
    · simp only [hlen]
      omega
  · ext x
    rw [mem_ids_append_cons, Set.mem_union]
    simp only [Entry.Covers, Range.ids, Set.mem_ofPred_eq, hlen]
    constructor
    · rintro (hx | hx)
      · exact .inl hx
      · exact .inr (by omega)
    · rintro (hx | hx)
      · exact .inl hx
      · exact .inr (by omega)

theorem pushRange_spec (checks : Bool) {r : Range w} (h : WellFormed data)
    (hrange : r.start.toNat < r.stop.toNat) (hdisjoint : Disjoint (ids data) r.ids)
    (hgap : ∀ x ∈ ids data, x.toNat + 2 = r.start.toNat → x + 1 ∈ ids data) :
    ∃ data', SortedCompactVec.pushRange checks data r = .ok (true, data') ∧ WellFormed data' ∧
      ids data' = ids data ∪ r.ids := by
  unfold SortedCompactVec.pushRange
  split
  · next i hi =>
    obtain ⟨pre, e, post, rfl, -, hkey⟩ := binarySearchByKey_ok hi
    have he : e ∈ pre ++ e :: post := by simp
    refine absurd ?_ (Set.disjoint_left.mp hdisjoint ⟨e, he, h.covers_start he⟩)
    exact ⟨hkey.ge, by rw [hkey]; exact hrange⟩
  · next i hi =>
    obtain ⟨pre, post, rfl, rfl, hbelow, habove⟩ := binarySearch_split h hrange hdisjoint hi
    obtain ⟨hinc, hdec⟩ : SortedCompactVec.incPrev checks (pre ++ post) pre.length r = .ok false ∧
        SortedCompactVec.decNext checks (pre ++ post) pre.length r = .ok false :=
      merge_unused h hrange hbelow (fun e => getLast?_ne_of_noGap h hrange habove hgap) habove
    have hsub : sub checks r.stop r.start = .ok (r.stop - r.start) := sub_of_le hrange.le
    refine ⟨pre ++ ⟨r.start, r.stop - r.start⟩ :: post, ?_, insert_spec h hrange hbelow habove⟩
    simp only [bind, Except.bind, pure, Except.pure, hinc, hdec, Storage.insert, hsub,
      insertIdx_length_append]

theorem findLanes_some {lens : List (BitVec w)} {n : BitVec w} {i : ℕ}
    (h : SortedCompactVec.findLanes lens n = some i) :
    ∃ len, lens[i]? = some len ∧ n.toNat ≤ len.toNat := by
  obtain ⟨chunk, -, hchunk⟩ := List.exists_of_findSome?_eq_some h
  obtain ⟨lane, hlane, rfl⟩ := Option.map_eq_some_iff.mp hchunk
  obtain ⟨hlt, hle, -⟩ := List.findIdx?_eq_some_iff_getElem.mp hlane
  refine ⟨_, ?_, of_decide_eq_true hle⟩
  rw [List.getElem_take, List.getElem_drop, List.getElem?_eq_getElem]

theorem findTail_some {lens : List (BitVec w)} {n : BitVec w} {i : ℕ}
    (h : SortedCompactVec.findTail lens n = some i) :
    ∃ len, lens[i]? = some len ∧ n.toNat ≤ len.toNat := by
  obtain ⟨j, -, hj⟩ := List.exists_of_findSome?_eq_some h
  split at hj
  · cases hj
  · next len hlen =>
    split_ifs at hj with hle
    cases hj
    exact ⟨len, hlen, hle⟩

/-- An index that the search finds has a range that is long enough. -/
theorem findExact_some {lens : List (BitVec w)} {n : BitVec w} {i : ℕ}
    (h : SortedCompactVec.findExact lens n = some i) :
    ∃ len, lens[i]? = some len ∧ n.toNat ≤ len.toNat := by
  unfold SortedCompactVec.findExact at h
  split at h
  · next hlanes =>
    cases h
    exact findLanes_some hlanes
  · exact findTail_some h

theorem popExact_spec (checks : Bool) {n : BitVec w} (h : WellFormed data)
    (hsafe : ∀ i e, SortedCompactVec.findExact (data.map (·.len)) n = some i →
      data[i]? = some e → n.toNat < e.len.toNat ∨ e.start = 0) :
    SortedCompactVec.popExact checks data n = .ok (none, data) ∨
      ∃ r data', SortedCompactVec.popExact checks data n = .ok (some r, data') ∧
        WellFormed data' ∧ r.ids ⊆ ids data ∧ ids data' = ids data \ r.ids ∧
        r.stop.toNat = r.start.toNat + n.toNat ∧ data ≠ [] := by
  unfold SortedCompactVec.popExact
  cases hfind : SortedCompactVec.findExact (data.map (·.len)) n with
  | none => exact .inl rfl
  | some i =>
    obtain ⟨len, hlen, hle⟩ := findExact_some hfind
    rw [List.getElem?_map, Option.map_eq_some_iff] at hlen
    obtain ⟨e, he, rfl⟩ := hlen
    have hcase := hsafe i e hfind he
    obtain ⟨hi, hget⟩ := List.getElem?_eq_some_iff.mp he
    obtain ⟨pre, post, rfl, rfl⟩ : ∃ pre post, data = pre ++ e :: post ∧ pre.length = i :=
      ⟨data.take i, data.drop (i + 1), by rw [← hget, ← List.drop_eq_getElem_cons hi,
        List.take_append_drop], List.length_take_of_le hi.le⟩
    right
    simp only [he]
    split_ifs with heq
    · have hzero : e.start = 0 := by
        rw [heq] at hcase
        exact hcase.resolve_left (lt_irrefl _)
      obtain ⟨hwf, hsub, hids⟩ := remove_spec h hzero
      rw [remove_append]
      exact ⟨_, _, rfl, hwf, hsub, hids, by simp [hzero, heq], by simp⟩
    · have hlt : n.toNat < e.len.toNat := by
        refine lt_of_le_of_ne hle ?_
        intro hnat
        exact heq (BitVec.eq_of_toNat_eq hnat.symm)
      obtain ⟨r, data', hcarve, hwf, hsub, hids, hlen⟩ := carve_spec h hlt
      exact ⟨r, data', hcarve, hwf, hsub, hids, hlen, by simp⟩

theorem lastMut_append (pre : SortedCompactVec w) (e : Entry w) :
    Storage.lastMut checks (pre ++ [e]) = .ok (some (pre.length, e)) := by
  simp [Storage.lastMut]

theorem popN_spec (checks : Bool) {n : BitVec w} (h : WellFormed (pre ++ [e]))
    (hsafe : n.toNat < e.len.toNat ∨ e.len.toNat < n.toNat ∧ e.start = 0) :
    ∃ r data', SortedCompactVec.popN checks (pre ++ [e]) n = .ok (some r, data') ∧
      WellFormed data' ∧ r.ids ⊆ ids (pre ++ [e]) ∧ ids data' = ids (pre ++ [e]) \ r.ids ∧
      r.start.toNat ≤ r.stop.toNat ∧ r.stop.toNat ≤ r.start.toNat + n.toNat := by
  unfold SortedCompactVec.popN
  simp only [lastMut_append, bind, Except.bind]
  rcases hsafe with hlt | ⟨hlt, hzero⟩
  · rw [if_neg (by omega)]
    obtain ⟨r, data', hcarve, hwf, hsub, hids, hlen⟩ := carve_spec h hlt
    exact ⟨r, data', hcarve, hwf, hsub, hids, by omega, by omega⟩
  · obtain ⟨hwf, hsub, hids⟩ := remove_spec h hzero
    rw [List.append_nil] at hwf hids
    rw [if_pos hlt, pop_append]
    refine ⟨_, _, rfl, hwf, hsub, hids, ?_, ?_⟩
    · simp [hzero]
    · simp [hzero, hlt.le]

end Ranges

namespace Ledger

variable {s s' : Ledger w} {checks : Bool} {op : Op w}

structure Invariant (s : Ledger w) : Prop where
  represented : FreeList.ids s.data = s.free
  wellFormed : WellFormed s.data

theorem Invariant.allocated : (allocated w).Invariant := by
  refine ⟨?_, .nil, by simp [Ledger.allocated, SortedCompactVec.allocated],
    by simp [Ledger.allocated, SortedCompactVec.allocated]⟩
  ext x
  simp [FreeList.ids, Ledger.allocated, SortedCompactVec.allocated]

theorem Invariant.new (hw : 0 < w) : (new w).Invariant := by
  have hpos := Nat.two_pow_pos w
  have htwo : 2 ≤ 2 ^ w := by
    calc 2 = 2 ^ 1 := rfl
      _ ≤ 2 ^ w := Nat.pow_le_pow_right (by decide) hw
  refine ⟨?_, List.pairwise_singleton _ _, ?_, ?_⟩
  · ext x
    have hx := x.isLt
    have hne : x ≠ BitVec.allOnes w ↔ x.toNat ≠ 2 ^ w - 1 := by
      rw [Ne, ← BitVec.toNat_inj, BitVec.toNat_allOnes]
    simp only [FreeList.ids, Ledger.new, SortedCompactVec.new, Set.mem_ofPred_eq,
      List.mem_singleton, exists_eq_left, Entry.Covers, BitVec.toNat_allOnes, hne]
    simp
    omega
  · simp [Ledger.new, SortedCompactVec.new]
    omega
  · simp [Ledger.new, SortedCompactVec.new]

theorem Exact.of_pushed {data : SortedCompactVec w} {given : Given w} (hgiven : given = .nothing)
    (hids : FreeList.ids data = s.free ∪ op.pushed) : s.Exact op given data := by
  subst hgiven
  refine ⟨Set.empty_subset _, ?_, ?_, ?_, fun _ => rfl⟩
  · rw [hids, Given.ids, Set.sdiff_empty]
  · intro n r _ hr
    cases hr
  · intro n r _ hr
    cases hr

theorem Invariant.pushRange (h : s.Invariant) (checks : Bool) {r : Range w}
    (hrange : r.start.toNat < r.stop.toNat) (hdisjoint : Disjoint s.free r.ids)
    (hgap : s.NoGap r.start) :
    ∃ data, SortedCompactVec.pushRange checks s.data r = .ok (true, data) ∧ WellFormed data ∧
      FreeList.ids data = s.free ∪ r.ids := by
  have hspec := pushRange_spec checks h.wellFormed hrange
  rw [h.represented] at hspec
  exact hspec hdisjoint hgap

theorem Invariant.free_ne (h : s.Invariant) (hne : s.data ≠ []) : s.free ≠ ∅ := by
  intro hfree
  obtain ⟨e, rest, hdata⟩ := List.exists_cons_of_ne_nil hne
  have he : e ∈ s.data := by simp [hdata]
  have hpos := h.wellFormed.pos e he
  have hmem : e.start ∈ s.free := by
    rw [← h.represented]
    exact ⟨e, he, le_rfl, by omega⟩
  rw [hfree] at hmem
  exact hmem

/-- Nothing is handed out and the list stays the same. -/
theorem Invariant.exact_nothing (h : s.Invariant) (hop : op.pushed = ∅) :
    s.Exact op .nothing s.data := by
  apply Exact.of_pushed rfl
  rw [hop, Set.union_empty]
  exact h.represented

/-- A range of free ids is handed out. -/
theorem Invariant.exact_range (h : s.Invariant) {r : Range w} {data : SortedCompactVec w}
    (hop : op.pushed = ∅) (hne : s.data ≠ []) (hsub : r.ids ⊆ FreeList.ids s.data)
    (hminus : FreeList.ids data = FreeList.ids s.data \ r.ids)
    (hwhole : ∀ n, op = .popExact n → r.stop.toNat = r.start.toNat + n.toNat)
    (hatMost : ∀ n, op = .popN n →
      r.start.toNat ≤ r.stop.toNat ∧ r.stop.toNat ≤ r.start.toNat + n.toNat) :
    s.Exact op (.range r) data := by
  rw [h.represented] at hsub hminus
  refine ⟨hsub, ?_, ?_, ?_, ?_⟩
  · rw [hop, Set.union_empty]
    exact hminus
  · intro n r' hn hr
    cases hr
    exact hwhole n hn
  · intro n r' hn hr
    cases hr
    exact hatMost n hn
  · intro hfree
    exact absurd hfree (h.free_ne hne)

theorem Invariant.apply_push {value : BitVec w} (h : s.Invariant)
    (hallowed : s.Allowed (.push value)) (hsafe : s.Safe checks (.push value)) :
    ∃ given data, FreeList.apply checks s.data (.push value) = .ok (given, data) ∧
      s.Exact (.push value) given data ∧ WellFormed data := by
  obtain ⟨hlt, hnew⟩ := hallowed
  have hone := toNat_one_of_lt (Nat.lt_succ_self value.toNat) hlt
  have hadd : add checks value 1 = .ok (value + 1) := add_of_lt (by omega)
  have hstop : (value + 1).toNat = value.toNat + 1 := by
    rw [toNat_add_of_lt (by omega), hone]
  have hrange : (Range.mk value (value + 1)).ids = {value} := by
    ext x
    simp only [Range.ids, Set.mem_ofPred_eq, hstop, Set.mem_singleton_iff]
    rw [← BitVec.toNat_inj]
    omega
  have hvalue : value.toNat < (value + 1).toNat := by omega
  have hdisjoint : Disjoint s.free (Range.mk value (value + 1)).ids := by
    rw [hrange]
    exact Set.disjoint_singleton_right.mpr hnew
  obtain ⟨data, hpush, hwf, hdata⟩ := h.pushRange checks hvalue hdisjoint hsafe
  refine ⟨.nothing, data, ?_, .of_pushed rfl (hdata.trans (by rw [hrange]; rfl)), hwf⟩
  simp only [FreeList.apply, SortedCompactVec.push, bind, Except.bind, hadd, hpush, Except.map]

theorem Invariant.apply_popN {n : BitVec w} (h : s.Invariant)
    (hsafe : s.Safe checks (.popN n)) :
    ∃ given data, FreeList.apply checks s.data (.popN n) = .ok (given, data) ∧
      s.Exact (.popN n) given data ∧ WellFormed data := by
  obtain hempty | ⟨pre, e, hdata⟩ := List.eq_nil_or_concat s.data
  · simp only [Safe, hempty, List.getLast?_nil] at hsafe
    subst hsafe
    refine ⟨.nothing, s.data, ?_, h.exact_nothing rfl, h.wellFormed⟩
    rw [hempty]
    rfl
  · rw [List.concat_eq_append] at hdata
    simp only [Safe, hdata, List.getLast?_append, List.getLast?_singleton, Option.some_or] at hsafe
    have hwf := h.wellFormed
    rw [hdata] at hwf
    obtain ⟨r, data, hpop, hwf, hsub, hminus, hle, hatMost⟩ := popN_spec checks hwf hsafe
    rw [← hdata] at hpop hsub hminus
    refine ⟨.range r, data, ?_, ?_, hwf⟩
    · simp only [FreeList.apply, hpop, Except.map, Option.elim]
    · refine h.exact_range rfl (by rw [hdata]; simp) hsub hminus (fun n' hop => by cases hop) ?_
      intro n' hop
      cases hop
      exact ⟨hle, hatMost⟩

theorem Invariant.apply_popExact {n : BitVec w} (h : s.Invariant)
    (hsafe : s.Safe checks (.popExact n)) :
    ∃ given data, FreeList.apply checks s.data (.popExact n) = .ok (given, data) ∧
      s.Exact (.popExact n) given data ∧ WellFormed data := by
  rcases popExact_spec checks h.wellFormed hsafe with
    hnone | ⟨r, data, hpop, hwf, hsub, hminus, hlen, hne⟩
  · refine ⟨.nothing, s.data, ?_, h.exact_nothing rfl, h.wellFormed⟩
    simp only [FreeList.apply, hnone, Except.map, Option.elim]
  · refine ⟨.range r, data, ?_, ?_, hwf⟩
    · simp only [FreeList.apply, hpop, Except.map, Option.elim]
    · refine h.exact_range rfl hne hsub hminus ?_ (fun n' hop => by cases hop)
      intro n' hop
      cases hop
      exact hlen

/-- A safe operation is exact and keeps the list well formed. -/
theorem Invariant.apply (h : s.Invariant) (hallowed : s.Allowed op) (hsafe : s.Safe checks op) :
    ∃ given data, FreeList.apply checks s.data op = .ok (given, data) ∧ s.Exact op given data ∧
      WellFormed data := by
  cases op with
  | push value => exact h.apply_push hallowed hsafe
  | pushRange r =>
    obtain ⟨hrange, hdisjoint⟩ := hallowed
    obtain ⟨data, hpush, hwf, hdata⟩ := h.pushRange checks hrange hdisjoint hsafe
    refine ⟨.nothing, data, ?_, .of_pushed rfl hdata, hwf⟩
    simp only [FreeList.apply, hpush, Except.map]
  | pop =>
    obtain ⟨hempty, rfl⟩ := hsafe
    refine ⟨.nothing, s.data, ?_, h.exact_nothing rfl, h.wellFormed⟩
    rw [hempty]
    rfl
  | popN n => exact h.apply_popN hsafe
  | popExact n => exact h.apply_popExact hsafe

theorem Invariant.step (h : s.Invariant) (hallowed : s.Allowed op) (hsafe : s.Safe checks op)
    (hstep : Step checks s op s') : s'.Invariant := by
  obtain ⟨given, data, happly, hexact, hwf⟩ := h.apply hallowed hsafe
  obtain ⟨given', data', happly', rfl⟩ := hstep
  rw [happly] at happly'
  cases happly'
  exact ⟨hexact.represented, hwf⟩

/-- Along runs of safe operations nothing leaks and nothing is handed out twice. -/
theorem free_list_exact (e : Elem) (checks : Bool) {start s : Ledger e.bits}
    {ops : List (Op e.bits)} (hstart : start = new e.bits ∨ start = allocated e.bits)
    (h : Run (guarded (fun s op => s.Allowed op ∧ s.Safe checks op) (Step checks)) start ops s) :
    s.Sound checks (Safe checks) := by
  have hpos : 0 < e.bits := by
    cases e <;> decide
  have hinvariant : start.Invariant := by
    rcases hstart with rfl | rfl
    · exact .new hpos
    · exact .allocated
  have hs : s.Invariant := h.stateInvariant hinvariant fun t op u ht hstep =>
    ht.step hstep.1.1 hstep.1.2 hstep.2
  refine ⟨hs.represented, ?_⟩
  intro op hallowed hsafe
  obtain ⟨given, data, happly, hexact, -⟩ := hs.apply hallowed hsafe
  exact ⟨given, data, happly, hexact⟩

/-- Three ids are pushed. -/
def three : Ledger Elem.u32.bits :=
  ⟨[⟨5, 3⟩], ((allocated Elem.u32.bits).free ∪ (Op.pushRange ⟨5, 8⟩).pushed) \ Given.ids .nothing⟩

theorem free_list_exact_three : Sound true (Safe true) three := by
  have hallowed : (allocated Elem.u32.bits).Allowed (.pushRange ⟨5, 8⟩) :=
    ⟨by decide, Set.empty_disjoint _⟩
  have hsafe : (allocated Elem.u32.bits).Safe true (.pushRange ⟨5, 8⟩) := by
    intro x hx
    exact absurd hx (Set.notMem_empty x)
  exact free_list_exact .u32 true (.inr rfl)
    (Run.single ⟨⟨hallowed, hsafe⟩, .nothing, [⟨5, 3⟩], by rfl, rfl⟩)

/-- The id after the one that was pushed is handed out. -/
theorem pop_hands_out_unpushed : ¬ ∀ (e : Elem) (checks : Bool) (start s : Ledger e.bits)
    (ops : List (Op e.bits)), start = new e.bits ∨ start = allocated e.bits →
    Run (guarded Allowed (Step checks)) start ops s → s.Sound checks fun _ _ => True := by
  intro h
  have hallowed : (allocated Elem.u32.bits).Allowed (.push 5) := ⟨by decide, Set.notMem_empty _⟩
  have hsound := h .u32 true _ ⟨[⟨5, 1⟩], ((allocated Elem.u32.bits).free ∪
      (Op.push 5).pushed) \ Given.ids .nothing⟩ _ (.inr rfl)
    (Run.single ⟨hallowed, .nothing, [⟨5, 1⟩], by rfl, rfl⟩)
  obtain ⟨given, data, happly, hexact⟩ := hsound.exact .pop trivial trivial
  have hpop : FreeList.apply true [Entry.mk (w := Elem.u32.bits) 5 1] .pop =
      .ok (.one 6, [⟨5, 0⟩]) := by rfl
  cases hpop.symm.trans happly
  have hsix := hexact.free (Set.mem_singleton _)
  have hfive : (6 : BitVec Elem.u32.bits) = 5 := hsix.1.resolve_left (Set.notMem_empty _)
  exact absurd hfive (by decide)

end Ledger

end OrionNetwork.FreeList
