import OrionNetwork.CodecTypes
import OrionNetwork.Collections
import OrionNetwork.FreeList
import OrionNetwork.RawCells

/-!
# Two vectors in one allocation

The starts and the lengths of the ranges share an allocation, the lengths from its middle on.
When it grows the second half is moved. Room is counted in blocks of 64 elements, in the
arithmetic of the machine, whose overflow panics or wraps as the build says. An allocation is
taken to succeed when its size is one that an allocation may have.
-/
namespace OrionNetwork.CompactStorage
open RawCells Collections Codec

/-- A panic, or what the language leaves open. -/
inductive Fault where
  | overflow
  | undefined
  deriving DecidableEq, Repr

/-- What is used of an element type: its size in bytes, and its subtraction, which may panic. -/
structure Element (α : Type) where
  size : ℕ
  pos : 0 < size
  sub : α → α → Option α

/-- `dara`, the capacity in blocks, and the number of ranges. -/
structure SimdStorage (α : Type) where
  dara : List (Option α)
  cap : ℕ
  len : ℕ
  deriving DecidableEq

def LANES : ℕ := 64

/-- The size that a layout may have. -/
def isizeMax : ℕ := 2 ^ 63 - 1

/-- A sum or product of the machine. -/
def usize (checks : Bool) (n : ℕ) : Except Fault ℕ :=
  if n < 2 ^ 64 then .ok n else if checks then .error .overflow else .ok (n % 2 ^ 64)

def usizeSub (checks : Bool) (a b : ℕ) : Except Fault ℕ :=
  if b ≤ a then .ok (a - b) else if checks then .error .overflow else .ok (2 ^ 64 + a - b)

def defined {β : Type} : Option β → Except Fault β
  | none => .error .undefined
  | some b => .ok b

def nextPowerOfTwo (n : ℕ) : ℕ := if n ≤ 1 then 1 else 2 ^ ((n - 1).log2 + 1)

namespace SimdStorage

section Operations

variable {α : Type} (checks : Bool) (t : Element α)

def default : SimdStorage α := ⟨[], 0, 0⟩

def computeLayout (cap : ℕ) : Except Fault ℕ := do
  let half ← usize checks (cap * (LANES * t.size))
  let bytes ← usize checks (half * 2)
  if 0 < bytes ∧ bytes ≤ isizeMax then return bytes else .error .undefined

/-- The elements of the second half are moved to where it begins now. -/
def expand (s : SimdStorage α) (newCap : ℕ) : Except Fault (SimdStorage α) := do
  let bytes ← computeLayout checks t newCap
  if s.cap = 0 then return ⟨allocate α (bytes / t.size), newCap, s.len⟩
  else
    let _ ← computeLayout checks t s.cap
    let cells := reallocate s.dara (bytes / t.size)
    let cells ← defined (copy cells (s.cap * LANES) (newCap * LANES) s.len)
    return ⟨cells, newCap, s.len⟩

def ensureCapacity (s : SimdStorage α) (len : ℕ) : Except Fault (SimdStorage α) := do
  let sum ← usize checks (s.len + len)
  let room ← usize checks (s.cap * LANES)
  if sum > room then
    let raised ← usize checks (sum + LANES)
    let raised ← usizeSub checks raised 1
    expand checks t s (nextPowerOfTwo (raised / LANES))
  else return s

/-- Where the two halves begin. -/
def leftRight (s : SimdStorage α) : Except Fault (ℕ × ℕ) := do
  let right ← usize checks (s.cap * LANES)
  return (0, right)

def insert (s : SimdStorage α) (index : ℕ) (start stop : α) : Except Fault (SimdStorage α) := do
  let s ← ensureCapacity checks t s 1
  let (left, right) ← leftRight checks s
  let count ← usizeSub checks s.len index
  let cells ← defined (copy s.dara (left + index) (left + index + 1) count)
  let cells ← defined (copy cells (right + index) (right + index + 1) count)
  let cells ← defined (write cells (left + index) start)
  let length ← (t.sub stop start).elim (.error .overflow) .ok
  let cells ← defined (write cells (right + index) length)
  let len ← usize checks (s.len + 1)
  return ⟨cells, s.cap, len⟩

def remove (s : SimdStorage α) (index : ℕ) : Except Fault (Option (α × α) × SimdStorage α) := do
  if s.len ≤ index then return (none, s)
  else
    let (left, right) ← leftRight checks s
    let start ← defined (read s.dara (left + index))
    let length ← defined (read s.dara (right + index))
    let cells ← defined (copy s.dara (left + index + 1) (left + index) (s.len - index - 1))
    let cells ← defined (copy cells (right + index + 1) (right + index) (s.len - index - 1))
    return (some (start, length), ⟨cells, s.cap, s.len - 1⟩)

def slices (s : SimdStorage α) : Except Fault (List α × List α) := do
  let (left, right) ← leftRight checks s
  let starts ← defined (readSlice s.dara left s.len)
  let lengths ← defined (readSlice s.dara right s.len)
  return (starts, lengths)

def encode (c : Codec α) (s : SimdStorage α) : Except Fault (List Bytes) := do
  let (left, right) ← slices checks s
  return Codec.usize.encode (UInt64.ofNat s.len) ++ (left ++ right).flatMap c.encode

/-- One of the two loops, with the cell that comes next. -/
def readElements (c : Codec α) : ℕ → ℕ → List (Option α) → Bytes →
    Except Fault (Option (List (Option α) × Bytes))
  | 0, _, cells, buffer => .ok (some (cells, buffer))
  | n + 1, next, cells, buffer =>
    match c.decode buffer with
    | none => .ok none
    | some (x, buffer) =>
      match write cells next x with
      | none => .error .undefined
      | some cells => readElements c n (next + 1) cells buffer

def decode (c : Codec α) (buffer : Bytes) : Except Fault (Option (SimdStorage α × Bytes)) :=
  match Codec.usize.decode buffer with
  | none => .ok none
  | some (len, buffer) => do
    let data ← ensureCapacity checks t default len.toNat
    let (left, right) ← leftRight checks data
    match ← readElements c len.toNat left data.dara buffer with
    | none => return none
    | some (cells, buffer) =>
      match ← readElements c len.toNat right cells buffer with
      | none => return none
      | some (cells, buffer) => return some (⟨cells, data.cap, len.toNat⟩, buffer)

end Operations

/-- The bytes of an allocation. -/
def bytes {α : Type} (t : Element α) (cap : ℕ) : ℕ := cap * (LANES * t.size) * 2

/-- The blocks that are allocated for a number of elements. -/
def blocks (n : ℕ) : ℕ := nextPowerOfTwo ((n + LANES - 1) / LANES)

section Room

variable {α : Type} {checks : Bool} {t : Element α} {n k : ℕ}

theorem exists_of_bind {β γ : Type} {x : Except Fault β} {f : β → Except Fault γ} {c : γ}
    (h : x >>= f = .ok c) : ∃ b, x = .ok b ∧ f b = .ok c := by
  cases x with
  | error why => contradiction
  | ok b => exact ⟨b, rfl, h⟩

theorem usize_eq (h : n < 2 ^ 64) : usize checks n = .ok n := if_pos h

theorem usizeSub_eq (h : k ≤ n) : usizeSub checks n k = .ok (n - k) := if_pos h

theorem le_nextPowerOfTwo (n : ℕ) : n ≤ nextPowerOfTwo n := by
  unfold nextPowerOfTwo
  split_ifs with h
  · exact h
  · have hlt : n - 1 < 2 ^ ((n - 1).log2 + 1) := Nat.lt_log2_self
    omega

theorem nextPowerOfTwo_le (h : n ≤ 2 ^ k) : nextPowerOfTwo n ≤ 2 ^ k := by
  unfold nextPowerOfTwo
  split_ifs with hn
  · exact Nat.one_le_two_pow
  · have hlog : (n - 1).log2 < k := (Nat.log2_lt (by omega)).mpr (by omega)
    exact Nat.pow_le_pow_right (by decide) hlog

theorem exists_nextPowerOfTwo (n : ℕ) : ∃ k, nextPowerOfTwo n = 2 ^ k := by
  unfold nextPowerOfTwo
  split_ifs
  · exact ⟨0, rfl⟩
  · exact ⟨_, rfl⟩

theorem le_blocks (n : ℕ) : n ≤ blocks n * LANES := by
  have hpower := le_nextPowerOfTwo ((n + LANES - 1) / LANES)
  unfold blocks
  unfold LANES at hpower ⊢
  omega

theorem blocks_le (h : n ≤ 2 ^ k * LANES) : blocks n ≤ 2 ^ k := by
  apply nextPowerOfTwo_le
  unfold LANES at h ⊢
  omega

theorem cells_le_bytes (t : Element α) (cap : ℕ) : cap * LANES * 2 ≤ bytes t cap := by
  unfold bytes
  have hsize : LANES ≤ LANES * t.size := Nat.le_mul_of_pos_right _ t.pos
  exact Nat.mul_le_mul_right 2 (Nat.mul_le_mul_left cap hsize)

theorem bytes_div (t : Element α) (cap : ℕ) : bytes t cap / t.size = cap * LANES * 2 := by
  have hcells : bytes t cap = cap * LANES * 2 * t.size := by
    unfold bytes
    ring
  rw [hcells, Nat.mul_div_cancel _ t.pos]

theorem usize_true {m : ℕ} (h : usize true n = .ok m) : n < 2 ^ 64 ∧ m = n := by
  unfold usize at h
  by_cases hlt : n < 2 ^ 64
  · rw [if_pos hlt] at h
    exact ⟨hlt, (Except.ok.inj h).symm⟩
  · rw [if_neg hlt, if_pos rfl] at h
    cases h

theorem usizeSub_true {m : ℕ} (h : usizeSub true n k = .ok m) : k ≤ n := by
  unfold usizeSub at h
  by_cases hle : k ≤ n
  · exact hle
  · rw [if_neg hle, if_pos rfl] at h
    cases h

theorem computeLayout_true {m : ℕ} (h : computeLayout true t n = .ok m) :
    bytes t n ≤ isizeMax := by
  obtain ⟨half, hhalf, h⟩ := exists_of_bind h
  obtain ⟨total, htotal, h⟩ := exists_of_bind h
  obtain ⟨-, rfl⟩ := usize_true hhalf
  obtain ⟨-, rfl⟩ := usize_true htotal
  split_ifs at h with hfits
  exact hfits.2

theorem computeLayout_eq (checks : Bool) (hpos : 0 < n) (h : bytes t n ≤ isizeMax) :
    computeLayout checks t n = .ok (bytes t n) := by
  have hcells := cells_le_bytes t n
  have hhalf : n * (LANES * t.size) < 2 ^ 64 := by
    unfold bytes isizeMax at h
    omega
  have hfits : n * (LANES * t.size) * 2 < 2 ^ 64 := by
    unfold bytes isizeMax at h
    omega
  have hne : 0 < n * (LANES * t.size) * 2 := by
    unfold bytes LANES at *
    omega
  unfold computeLayout
  simp only [bind, Except.bind, usize_eq hhalf, usize_eq hfits]
  exact if_pos ⟨hne, h⟩

end Room

/-- The pairs of the storage, starts in the first and lengths in the second half. -/
structure Holds {α : Type} (t : Element α) (s : SimdStorage α) (l : List (α × α)) : Prop where
  size : s.dara.length = s.cap * LANES * 2
  room : bytes t s.cap ≤ isizeMax
  power : s.cap = 0 ∨ ∃ k, s.cap = 2 ^ k
  len : s.len = l.length
  fits : s.len ≤ s.cap * LANES
  left : Stores s.dara 0 (l.map Prod.fst)
  right : Stores s.dara (s.cap * LANES) (l.map Prod.snd)

/-- The storage has the room, or an allocation may have it. -/
def Fits {α : Type} (t : Element α) (s : SimdStorage α) (extra : ℕ) : Prop :=
  s.len + extra ≤ s.cap * LANES ∨ bytes t (blocks (s.len + extra)) ≤ isizeMax

section Refinement

variable {α : Type} (checks : Bool) {t : Element α} {s : SimdStorage α} {l : List (α × α)}

theorem holds_default (t : Element α) : Holds t default [] where
  size := rfl
  room := by simp [bytes, default]
  power := .inl rfl
  len := rfl
  fits := le_rfl
  left := .nil
  right := .nil

theorem Holds.cells_lt (h : Holds t s l) : s.cap * LANES * 2 < 2 ^ 63 := by
  have hcells := cells_le_bytes t s.cap
  have hroom := h.room
  unfold isizeMax at hroom
  omega

theorem Holds.leftRight (h : Holds t s l) : leftRight checks s = .ok (0, s.cap * LANES) := by
  have hcells := h.cells_lt
  unfold SimdStorage.leftRight
  rw [usize_eq (by omega)]
  rfl

/-- The first allocation. -/
theorem Holds.expand_empty (h : Holds t s l) (hcap : s.cap = 0) {newCap : ℕ}
    (hmore : s.cap < newCap) (hroom : bytes t newCap ≤ isizeMax) (hpower : ∃ k, newCap = 2 ^ k) :
    ∃ s', expand checks t s newCap = .ok s' ∧ Holds t s' l ∧ s'.cap = newCap := by
  have hlayout := computeLayout_eq checks (Nat.zero_lt_of_lt hmore) hroom
  have hfits := h.fits
  have hlanes : s.cap * LANES < newCap * LANES := Nat.mul_lt_mul_of_pos_right hmore (by decide)
  have hempty : l = [] := by
    apply List.eq_nil_of_length_eq_zero
    rw [← h.len]
    rw [hcap] at hfits
    omega
  refine ⟨⟨allocate α (bytes t newCap / t.size), newCap, s.len⟩, ?_, ?_, rfl⟩
  · unfold SimdStorage.expand
    simp only [bind, Except.bind, hlayout, if_pos hcap]
    rfl
  · refine ⟨?_, hroom, .inr hpower, h.len, hfits.trans hlanes.le, ?_, ?_⟩
    · rw [length_allocate, bytes_div]
    · rw [hempty]
      exact .nil
    · rw [hempty]
      exact .nil

/-- The halves stay apart, and the second one is moved up. -/
theorem Holds.expand_moved (h : Holds t s l) (hcap : s.cap ≠ 0) {newCap : ℕ}
    (hmore : s.cap < newCap) (hroom : bytes t newCap ≤ isizeMax) (hpower : ∃ k, newCap = 2 ^ k) :
    ∃ s', expand checks t s newCap = .ok s' ∧ Holds t s' l ∧ s'.cap = newCap := by
  have hlayout := computeLayout_eq checks (Nat.zero_lt_of_lt hmore) hroom
  have hlayout' := computeLayout_eq checks (Nat.pos_of_ne_zero hcap) h.room
  have hfits := h.fits
  have hlanes : s.cap * LANES < newCap * LANES := Nat.mul_lt_mul_of_pos_right hmore (by decide)
  have hcells : (reallocate s.dara (bytes t newCap / t.size)).length = newCap * LANES * 2 := by
    rw [length_reallocate, bytes_div]
  have hlen : (l.map Prod.snd).length = s.len := by rw [List.length_map, h.len]
  have hlen' : (l.map Prod.fst).length = s.len := by rw [List.length_map, h.len]
  have hleft := h.left.reallocate (n := bytes t newCap / t.size)
    (by rw [bytes_div, hlen']; omega)
  have hright := h.right.reallocate (n := bytes t newCap / t.size)
    (by rw [bytes_div, hlen]; omega)
  have hcopy : copy (reallocate s.dara (bytes t newCap / t.size)) (s.cap * LANES)
      (newCap * LANES) s.len = some (moved (reallocate s.dara (bytes t newCap / t.size))
        (s.cap * LANES) (newCap * LANES) s.len) :=
    copy_eq (by rw [hcells]; omega) (by rw [hcells]; omega)
  refine ⟨⟨moved (reallocate s.dara (bytes t newCap / t.size)) (s.cap * LANES) (newCap * LANES)
    s.len, newCap, s.len⟩, ?_, ?_, rfl⟩
  · unfold SimdStorage.expand
    simp only [bind, Except.bind, hlayout, if_neg hcap, hlayout', hcopy]
    rfl
  · refine ⟨?_, hroom, .inr hpower, h.len, hfits.trans hlanes.le, ?_, ?_⟩
    · change (moved _ _ _ _).length = _
      rw [length_moved (by rw [hcells]; omega) (by rw [hcells]; omega), hcells]
    · refine hleft.moved_other (by rw [hcells]; omega) (by rw [hcells]; omega) (.inl ?_)
      rw [hlen']
      omega
    · change Stores (moved _ _ _ s.len) _ _
      rw [← hlen]
      exact hright.moved_same (by rw [hcells, hlen]; omega) (by rw [hcells, hlen]; omega)

theorem Holds.expand (h : Holds t s l) {newCap : ℕ} (hmore : s.cap < newCap)
    (hroom : bytes t newCap ≤ isizeMax) (hpower : ∃ k, newCap = 2 ^ k) :
    ∃ s', expand checks t s newCap = .ok s' ∧ Holds t s' l ∧ s'.cap = newCap := by
  by_cases hcap : s.cap = 0
  · exact h.expand_empty checks hcap hmore hroom hpower
  · exact h.expand_moved checks hcap hmore hroom hpower

/-- Nothing overflows on the way to a room that fits. -/
theorem Holds.ensureCapacity (h : Holds t s l) {extra : ℕ} (hfits : Fits t s extra) :
    ∃ s', ensureCapacity checks t s extra = .ok s' ∧ Holds t s' l ∧
      s.len + extra ≤ s'.cap * LANES := by
  have hcells := h.cells_lt
  by_cases hroom : s.len + extra ≤ s.cap * LANES
  · refine ⟨s, ?_, h, hroom⟩
    unfold SimdStorage.ensureCapacity
    simp only [bind, Except.bind, usize_eq (show s.len + extra < 2 ^ 64 by omega),
      usize_eq (show s.cap * LANES < 2 ^ 64 by omega), if_neg (Nat.not_lt.mpr hroom)]
    rfl
  · have hbytes := hfits.resolve_left hroom
    have hblocks := le_blocks (s.len + extra)
    have hnew := cells_le_bytes t (blocks (s.len + extra))
    unfold isizeMax at hbytes
    have hmore : s.cap < blocks (s.len + extra) := by
      apply Nat.lt_of_mul_lt_mul_right (a := LANES)
      omega
    obtain ⟨s', hexpand, hs', hcap⟩ :=
      h.expand checks hmore hbytes (exists_nextPowerOfTwo _)
    refine ⟨s', ?_, hs', by rw [hcap]; exact hblocks⟩
    have hraised : s.len + extra + LANES < 2 ^ 64 := by
      unfold LANES at *
      omega
    unfold SimdStorage.ensureCapacity
    simp only [bind, Except.bind, usize_eq (show s.len + extra < 2 ^ 64 by omega),
      usize_eq (show s.cap * LANES < 2 ^ 64 by omega), if_pos (Nat.lt_of_not_le hroom),
      usize_eq hraised, usizeSub_eq (show 1 ≤ s.len + extra + LANES by unfold LANES; omega)]
    exact hexpand

/-- Where overflow is checked nothing else is granted. -/
theorem fits_of_ensureCapacity {extra : ℕ} {s' : SimdStorage α}
    (hensure : SimdStorage.ensureCapacity true t s extra = .ok s') : Fits t s extra := by
  by_cases hroom : s.len + extra ≤ s.cap * LANES
  · exact .inl hroom
  obtain ⟨sum, hsum, hensure⟩ := exists_of_bind hensure
  obtain ⟨room, hcap, hensure⟩ := exists_of_bind hensure
  obtain ⟨-, rfl⟩ := usize_true hsum
  obtain ⟨-, rfl⟩ := usize_true hcap
  rw [if_pos (Nat.lt_of_not_le hroom)] at hensure
  obtain ⟨raised, hraised, hensure⟩ := exists_of_bind hensure
  obtain ⟨-, rfl⟩ := usize_true hraised
  rw [usizeSub_eq (show 1 ≤ s.len + extra + LANES by unfold LANES; omega)] at hensure
  obtain ⟨rounded, hrounded, hensure⟩ := exists_of_bind hensure
  cases hrounded
  obtain ⟨layout, hlayout, -⟩ := exists_of_bind hensure
  exact .inr (computeLayout_true hlayout)

theorem Holds.insert (h : Holds t s l) {index : ℕ} (hi : index ≤ l.length) {start stop length : α}
    (hsub : t.sub stop start = some length) (hfits : Fits t s 1) :
    ∃ s', insert checks t s index start stop = .ok s' ∧
      Holds t s' (l.insertIdx index (start, length)) := by
  obtain ⟨u, hensure, hu, hroom⟩ := h.ensureCapacity checks hfits
  have hcells := hu.cells_lt
  have hsize := hu.size
  have hlen := hu.len
  rw [h.len] at hroom
  have hfirst : (l.map Prod.fst).length = l.length := List.length_map _
  have hsecond : (l.map Prod.snd).length = l.length := List.length_map _
  obtain ⟨c₁, c₂, c₃, c₄, hcopy, hcopy', hwrite, hwrite', hlength, hleft, hright⟩ :=
    hu.left.insert_rows hu.right (hfirst.trans hsecond.symm) (hfirst.symm ▸ hi)
      (by rw [hfirst]; omega) (by rw [hsecond]; omega) start length
  rw [hfirst] at hcopy hcopy'
  refine ⟨⟨c₄, u.cap, l.length + 1⟩, ?_, ?_⟩
  · unfold SimdStorage.insert
    simp only [bind, Except.bind, hensure, hu.leftRight checks, hlen, usizeSub_eq hi, hcopy, hcopy',
      hwrite, hwrite', defined, hsub, Option.elim_some,
      usize_eq (show l.length + 1 < 2 ^ 64 by omega)]
    rfl
  · refine ⟨hlength.trans hsize, hu.room, hu.power, ?_, hroom, ?_, ?_⟩
    · exact (List.length_insertIdx_of_le_length hi _).symm
    · rw [List.map_insertIdx]
      exact hleft
    · rw [List.map_insertIdx]
      exact hright

theorem Holds.remove (h : Holds t s l) (index : ℕ) :
    ∃ s', remove checks s index = .ok (l[index]?, s') ∧ Holds t s' (l.eraseIdx index) := by
  by_cases hi : index < l.length
  · have hcells := h.cells_lt
    have hsize := h.size
    have hfits := h.fits
    have hlen := h.len
    have hfirst : (l.map Prod.fst).length = l.length := List.length_map _
    have hsecond : (l.map Prod.snd).length = l.length := List.length_map _
    obtain ⟨c₁, c₂, hcopy, hcopy', hlength, hleft, hright⟩ :=
      h.left.erase_rows h.right (hfirst.trans hsecond.symm) (hfirst.symm ▸ hi)
        (by rw [hfirst]; omega) (by rw [hsecond]; omega)
    rw [hfirst] at hcopy hcopy'
    have hstart := h.left.read (i := index) (by omega)
    have hend := h.right.read (i := index) (by omega)
    rw [List.getElem?_map, List.getElem?_eq_getElem hi, Option.map_some] at hstart hend
    refine ⟨⟨c₂, s.cap, l.length - 1⟩, ?_, ?_⟩
    · unfold SimdStorage.remove
      simp only [bind, Except.bind, hlen, if_neg (Nat.not_le.mpr hi), h.leftRight checks, hstart,
        hend, hcopy, hcopy', defined, List.getElem?_eq_getElem hi]
      rfl
    · refine ⟨hlength.trans hsize, h.room, h.power, ?_, ?_, ?_, ?_⟩
      · exact (List.length_eraseIdx_of_lt hi).symm
      · change l.length - 1 ≤ s.cap * LANES
        omega
      · rw [← List.eraseIdx_map]
        exact hleft
      · rw [← List.eraseIdx_map]
        exact hright
  · refine ⟨s, ?_, ?_⟩
    · unfold SimdStorage.remove
      rw [if_pos (h.len ▸ Nat.not_lt.mp hi), List.getElem?_eq_none (Nat.not_lt.mp hi)]
      rfl
    · rwa [List.eraseIdx_of_length_le (Nat.not_lt.mp hi)]

theorem Holds.slices (h : Holds t s l) :
    slices checks s = .ok (l.map Prod.fst, l.map Prod.snd) := by
  have hsize := h.size
  have hfits := h.fits
  have hfirst : (l.map Prod.fst).length = s.len := by rw [List.length_map, h.len]
  have hsecond : (l.map Prod.snd).length = s.len := by rw [List.length_map, h.len]
  have hleft := h.left.readSlice (by omega)
  have hright := h.right.readSlice (by omega)
  rw [hfirst] at hleft
  rw [hsecond] at hright
  unfold SimdStorage.slices
  simp only [bind, Except.bind, h.leftRight checks, hleft, hright, defined]
  rfl

/-- The elements read fill their cells and no others. -/
theorem readElements_spec {c : Codec α} (hc : Everywhere c) (xs : List α) (rest : Bytes)
    (cells : List (Option α)) (next : ℕ) (hfits : next + xs.length ≤ cells.length) :
    ∃ cells', readElements c xs.length next cells ((xs.flatMap c.encode).flatten ++ rest) =
        .ok (some (cells', rest)) ∧ cells'.length = cells.length ∧ Stores cells' next xs ∧
      ∀ j, j < next ∨ next + xs.length ≤ j → cells'[j]? = cells[j]? := by
  induction xs generalizing cells next with
  | nil => exact ⟨cells, rfl, rfl, .nil, fun _ _ => rfl⟩
  | cons x xs ih =>
    rw [List.length_cons] at hfits
    have hroom : next < cells.length := by omega
    have hwrite : write cells next x = some (cells.set next (some x)) := if_pos hroom
    have hread := hc x ((xs.flatMap c.encode).flatten ++ rest) trivial
    unfold toBytes at hread
    obtain ⟨cells', hrest, hlength, hstores, hframe⟩ :=
      ih (cells.set next (some x)) (next + 1) (by rw [List.length_set]; omega)
    refine ⟨cells', ?_, hlength.trans List.length_set, ?_, fun j hj => ?_⟩
    · rw [List.flatMap_cons, List.flatten_append, List.append_assoc, List.length_cons]
      unfold readElements
      simp only [hread, hwrite, hrest]
    · have hhead : Stores cells' next [x] := by
        refine (Stores.write_same hroom).frame fun j _ hj => ?_
        rw [List.length_singleton] at hj
        exact hframe j (.inl (by omega))
      exact Stores.append_iff.mpr ⟨hhead, hstores⟩
    · rw [List.length_cons] at hj
      rw [hframe j (by omega), List.getElem?_set_ne (by omega)]

/-- What has been stored has a size that an allocation may have, so it fits again. -/
theorem Holds.fits_default (h : Holds t s l) : Fits t default l.length := by
  have hfits := h.fits
  rw [h.len] at hfits
  have hzero : (default : SimdStorage α).len + l.length = l.length := Nat.zero_add _
  unfold Fits
  rw [hzero]
  rcases h.power with hcap | ⟨k, hcap⟩
  · left
    rw [hcap] at hfits
    omega
  · right
    have hblocks : blocks l.length ≤ s.cap := by
      rw [hcap] at hfits ⊢
      exact blocks_le hfits
    refine le_trans ?_ h.room
    exact Nat.mul_le_mul_right 2 (Nat.mul_le_mul_right _ hblocks)

/-- The bytes are read back to the same pairs, and what follows them is left. -/
theorem Holds.decode_encode (h : Holds t s l) {c : Codec α} (hc : Everywhere c) (rest : Bytes) :
    ∃ written s', encode checks c s = .ok written ∧
      decode checks t c (written.flatten ++ rest) = .ok (some (s', rest)) ∧ Holds t s' l := by
  have hfirst : (l.map Prod.fst).length = l.length := List.length_map _
  have hsecond : (l.map Prod.snd).length = l.length := List.length_map _
  have hlt : l.length < 2 ^ 64 := by
    have hcells := h.cells_lt
    have hfits := h.fits
    rw [h.len] at hfits
    omega
  obtain ⟨d, hensure, hd, hroom⟩ :=
    (holds_default t).ensureCapacity checks h.fits_default
  have hroom' : l.length ≤ d.cap * LANES := by
    have hzero : (default : SimdStorage α).len + l.length = l.length := Nat.zero_add _
    rwa [hzero] at hroom
  have hsize := hd.size
  obtain ⟨c₁, hread, hlength, hleft, -⟩ := readElements_spec hc (l.map Prod.fst)
    (((l.map Prod.snd).flatMap c.encode).flatten ++ rest) d.dara 0 (by omega)
  obtain ⟨c₂, hread', hlength', hright, hframe⟩ := readElements_spec hc (l.map Prod.snd) rest
    c₁ (d.cap * LANES) (by omega)
  rw [hfirst] at hread
  rw [hsecond] at hread'
  refine ⟨Codec.usize.encode (UInt64.ofNat s.len) ++
    (l.map Prod.fst ++ l.map Prod.snd).flatMap c.encode, ⟨c₂, d.cap, l.length⟩, ?_, ?_, ?_⟩
  · unfold SimdStorage.encode
    simp only [bind, Except.bind, h.slices checks]
    rfl
  · unfold SimdStorage.decode
    rw [List.flatten_append, List.append_assoc, List.flatMap_append, List.flatten_append,
      List.append_assoc, decode_usize, h.len]
    simp only [toNat_ofNat hlt, bind, Except.bind, hensure, hd.leftRight checks, hread, hread']
    rfl
  · refine ⟨hlength'.trans (hlength.trans hsize), hd.room, hd.power, rfl, hroom', ?_, hright⟩
    exact hleft.frame fun j _ hj => hframe j (.inl (by omega))

end Refinement

inductive Call (α : Type) where
  | insert (index : ℕ) (start stop : α)
  | remove (index : ℕ)
  | ensureCapacity (len : ℕ)

namespace Call

section Runs

variable {α : Type} {checks : Bool} {t : Element α} {s : SimdStorage α} {l : List (α × α)}

def apply (checks : Bool) (t : Element α) (s : SimdStorage α) : Call α →
    Except Fault (SimdStorage α)
  | .insert index start stop => SimdStorage.insert checks t s index start stop
  | .remove index => (SimdStorage.remove checks s index).map Prod.snd
  | .ensureCapacity len => SimdStorage.ensureCapacity checks t s len

/-- The same on a list of starts and lengths. -/
def onList (t : Element α) (l : List (α × α)) : Call α → Option (List (α × α))
  | .insert index start stop =>
    (t.sub stop start).map fun length => l.insertIdx index (start, length)
  | .remove index => some (l.eraseIdx index)
  | .ensureCapacity _ => some l

/-- The index is in or right behind the storage, the range has a length, and an allocation may
have the room that is asked for. -/
def Meets (t : Element α) (s : SimdStorage α) : Call α → Prop
  | .insert index start stop => index ≤ s.len ∧ (t.sub stop start).isSome = true ∧ Fits t s 1
  | .remove _ => True
  | .ensureCapacity len => Fits t s len

/-- Along the run. -/
def AllMeet (checks : Bool) (t : Element α) : List (Call α) → SimdStorage α → Prop
  | [], _ => True
  | call :: calls, s =>
    call.Meets t s ∧ ∀ s', apply checks t s call = .ok s' → AllMeet checks t calls s'

theorem holds_apply (checks : Bool) (h : Holds t s l) {call : Call α} (hmeets : call.Meets t s) :
    ∃ s' l', apply checks t s call = .ok s' ∧ onList t l call = some l' ∧ Holds t s' l' := by
  cases call with
  | insert index start stop =>
    obtain ⟨hi, hlength, hfits⟩ := hmeets
    obtain ⟨length, hsub⟩ := Option.isSome_iff_exists.mp hlength
    obtain ⟨s', hinsert, hs'⟩ := h.insert checks (h.len ▸ hi) hsub hfits
    refine ⟨s', _, hinsert, ?_, hs'⟩
    simp only [onList, hsub, Option.map_some]
  | remove index =>
    obtain ⟨s', hremove, hs'⟩ := h.remove checks index
    refine ⟨s', _, ?_, rfl, hs'⟩
    simp only [apply, hremove]
    rfl
  | ensureCapacity len =>
    obtain ⟨s', hensure, hs', -⟩ := h.ensureCapacity checks hmeets
    exact ⟨s', l, hensure, rfl, hs'⟩

/-- With checks a call that returns met the condition. -/
theorem meets_of_apply (h : Holds t s l) {call : Call α} {s' : SimdStorage α}
    (happly : apply true t s call = .ok s') : call.Meets t s := by
  cases call with
  | insert index start stop =>
    obtain ⟨u, hensure, happly⟩ := exists_of_bind happly
    have hfits := fits_of_ensureCapacity hensure
    obtain ⟨u', hensure', hu, -⟩ := h.ensureCapacity true hfits
    obtain rfl : u = u' := Except.ok.inj (hensure.symm.trans hensure')
    obtain ⟨halves, -, happly⟩ := exists_of_bind happly
    obtain ⟨count, hcount, happly⟩ := exists_of_bind happly
    obtain ⟨c₁, -, happly⟩ := exists_of_bind happly
    obtain ⟨c₂, -, happly⟩ := exists_of_bind happly
    obtain ⟨c₃, -, happly⟩ := exists_of_bind happly
    obtain ⟨length, hlength, -⟩ := exists_of_bind happly
    refine ⟨?_, ?_, hfits⟩
    · rw [h.len, ← hu.len]
      exact usizeSub_true hcount
    · cases hsub : t.sub stop start with
      | none =>
        rw [hsub] at hlength
        cases hlength
      | some d => rfl
  | remove index => trivial
  | ensureCapacity len => exact fits_of_ensureCapacity happly

/-- So along a run that returns all of them did. -/
theorem allMeet_of_loop (calls : List (Call α)) (h : Holds t s l) {s' : SimdStorage α}
    (hloop : loop (apply true t) calls s = .ok s') : AllMeet true t calls s := by
  induction calls generalizing s l with
  | nil => trivial
  | cons call calls ih =>
    unfold loop at hloop
    split at hloop
    · cases hloop
    · next u hu =>
      have hmeets := meets_of_apply h hu
      obtain ⟨u', l', happly, -, hu'⟩ := holds_apply true h hmeets
      obtain rfl : u = u' := Except.ok.inj (hu.symm.trans happly)
      refine ⟨hmeets, fun v hv => ?_⟩
      obtain rfl : u = v := Except.ok.inj (hu.symm.trans hv)
      exact ih hu' hloop

theorem holds_loop (calls : List (Call α)) (h : Holds t s l) (hmeet : AllMeet checks t calls s) :
    ∃ s' l', loop (apply checks t) calls s = .ok s' ∧ calls.foldlM (onList t) l = some l' ∧
      Holds t s' l' := by
  induction calls generalizing s l with
  | nil => exact ⟨s, l, rfl, rfl, h⟩
  | cons call calls ih =>
    obtain ⟨hmeets, hrest⟩ := hmeet
    obtain ⟨u, m, happly, honList, hu⟩ := holds_apply checks h hmeets
    obtain ⟨s', l', hloop, hfold, hs'⟩ := ih hu (hrest u happly)
    refine ⟨s', l', ?_, ?_, hs'⟩
    · unfold loop
      simp only [happly, hloop]
    · rw [List.foldlM_cons, honList]
      exact hfold

/-- The storage and the list after the same calls. -/
theorem slices_refine (checks : Bool) (t : Element α) {c : Codec α} (hc : Everywhere c)
    (calls : List (Call α)) (hmeet : AllMeet checks t calls SimdStorage.default) :
    ∃ s l, loop (apply checks t) calls SimdStorage.default = .ok s ∧
      calls.foldlM (onList t) [] = some l ∧
      s.slices checks = .ok (l.map Prod.fst, l.map Prod.snd) ∧
      ∃ written, s.encode checks c = .ok written ∧ ∀ rest, ∃ s',
        SimdStorage.decode checks t c (written.flatten ++ rest) = .ok (some (s', rest)) ∧
        s'.slices checks = .ok (l.map Prod.fst, l.map Prod.snd) := by
  obtain ⟨s, l, hloop, hfold, hs⟩ := holds_loop calls (holds_default t) hmeet
  obtain ⟨written, -, hencode, -, -⟩ := hs.decode_encode checks hc []
  refine ⟨s, l, hloop, hfold, hs.slices checks, written, hencode, fun rest => ?_⟩
  obtain ⟨written', s', hencode', hdecode, hs'⟩ := hs.decode_encode checks hc rest
  obtain rfl : written = written' := Except.ok.inj (hencode.symm.trans hencode')
  exact ⟨s', hdecode, hs'.slices checks⟩

end Runs

/-- Bytes, whose subtraction the build may check. -/
def u8 (checks : Bool) : Element UInt8 where
  size := 1
  pos := Nat.one_pos
  sub a b := if checks = true ∧ a < b then none else some (a - b)

theorem meet_shifted : AllMeet true (u8 true)
    [.insert 0 5 7, .insert 0 1 4, .remove 1, .ensureCapacity 100] SimdStorage.default := by
  have hok : (loop (apply true (u8 true)) [.insert 0 5 7, .insert 0 1 4, .remove 1,
      .ensureCapacity 100] SimdStorage.default).isOk = true := by decide +kernel
  cases hloop : loop (apply true (u8 true)) [.insert 0 5 7, .insert 0 1 4, .remove 1,
      .ensureCapacity 100] SimdStorage.default with
  | error why =>
    rw [hloop] at hok
    cases hok
  | ok s => exact allMeet_of_loop _ (holds_default _) hloop

/-- What was inserted first has been moved up and removed, and the second half has moved. -/
theorem slices_refine_shifted :
    ∃ s l, loop (apply true (u8 true)) [.insert 0 5 7, .insert 0 1 4, .remove 1,
        .ensureCapacity 100] SimdStorage.default = .ok s ∧
      [.insert 0 5 7, .insert 0 1 4, .remove 1, .ensureCapacity 100].foldlM (onList (u8 true)) [] =
        some l ∧
      s.slices true = .ok (l.map Prod.fst, l.map Prod.snd) ∧
      ∃ written, s.encode true Codec.u8 = .ok written ∧ ∀ rest, ∃ s',
        SimdStorage.decode true (u8 true) Codec.u8 (written.flatten ++ rest) =
          .ok (some (s', rest)) ∧
        s'.slices true = .ok (l.map Prod.fst, l.map Prod.snd) :=
  slices_refine true (u8 true) roundTrips_u8 _ meet_shifted

/-- The size wraps to one block, and the second half is looked for behind it. -/
theorem capacity_wraps :
    loop (apply true (u8 true)) [.ensureCapacity 65, .insert 0 5 7, .ensureCapacity (2 ^ 64 - 40)]
        SimdStorage.default = .error .overflow ∧
      loop (apply false (u8 false))
        [.ensureCapacity 65, .insert 0 5 7, .ensureCapacity (2 ^ 64 - 40)]
        SimdStorage.default = .error .undefined ∧
      [.ensureCapacity 65, .insert 0 5 7, .ensureCapacity (2 ^ 64 - 40)].foldlM (onList (u8 false))
        [] = some [(5, 2)] := by
  decide +kernel

end Call

section FreeIds

open FreeList

variable {checks : Bool} {e : Elem} {s : SimdStorage (BitVec e.bits)} {data : List (Entry e.bits)}

theorem size_pos (e : Elem) : 0 < e.bits / 8 := by
  cases e <;> decide

/-- The types of ids. -/
def element (checks : Bool) (e : Elem) : Element (BitVec e.bits) where
  size := e.bits / 8
  pos := size_pos e
  sub a b := (FreeList.sub checks a b).toOption

def pair (entry : Entry e.bits) : BitVec e.bits × BitVec e.bits := (entry.start, entry.len)

/-- The list that the free ids are kept in is refined by the storage. -/
theorem insert_refines (h : Holds (element checks e) s (data.map pair)) {index : ℕ}
    {range : Range e.bits} {data' : List (Entry e.bits)} (hi : index ≤ data.length)
    (hinsert : Storage.insert checks data index range = .ok data')
    (hfits : Fits (element checks e) s 1) :
    ∃ s', SimdStorage.insert checks (element checks e) s index range.start range.stop = .ok s' ∧
      Holds (element checks e) s' (data'.map pair) := by
  unfold Storage.insert at hinsert
  cases hlen : FreeList.sub checks range.stop range.start with
  | error why =>
    rw [hlen] at hinsert
    cases hinsert
  | ok len =>
    rw [hlen] at hinsert
    obtain rfl : data.insertIdx index ⟨range.start, len⟩ = data' := Except.ok.inj hinsert
    have hsub : (element checks e).sub range.stop range.start = some len := by
      change (FreeList.sub checks range.stop range.start).toOption = some len
      rw [hlen]
      rfl
    obtain ⟨s', hs, hs'⟩ :=
      h.insert checks (hi.trans_eq (List.length_map _).symm) hsub hfits
    refine ⟨s', hs, ?_⟩
    rw [List.map_insertIdx]
    exact hs'

theorem remove_refines (h : Holds (element checks e) s (data.map pair)) (index : ℕ) :
    ∃ s', SimdStorage.remove checks s index =
        .ok ((Storage.remove data index).map fun r => (r.1.start, r.1.stop), s') ∧
      Holds (element checks e) s' (((Storage.remove data index).elim data Prod.snd).map pair) := by
  obtain ⟨s', hs, hs'⟩ := h.remove checks index
  refine ⟨s', ?_, ?_⟩
  · rw [hs]
    unfold Storage.remove
    rw [List.getElem?_map]
    cases data[index]? <;> rfl
  · rw [List.eraseIdx_map] at hs'
    unfold Storage.remove
    cases hentry : data[index]? with
    | none =>
      rwa [List.eraseIdx_of_length_le (List.getElem?_eq_none_iff.mp hentry)] at hs'
    | some entry => exact hs'

end FreeIds

end SimdStorage

end OrionNetwork.CompactStorage
