import OrionNetwork.DiskPush

/-!
# Recognising deleted records

Records of the four types of the pool are looked at as elements of a fixed size.
The function does not compile for two of them, whose elements are aligned in
another way than the records. For the others a deleted record is four zero
elements, and the scan looks for longer runs in some places.
-/
namespace OrionNetwork.DeletedRecords
open BlockHash DeletedScan RecordFiles

inductive RecordType where
  | store
  | block
  | fileMeta
  | blockChunk
  deriving DecidableEq

namespace RecordType

/-- `MAX_PIECES` -/
def maxPieces (debug : Bool) : ℕ := if debug then 4 + 4 else 16 + 16

/-- The bytes of a record, with padding. -/
def recordSize (debug : Bool) : RecordType → ℕ
  | store => 32 + 8 + 4
  | block => 2 + 2 * maxPieces debug
  | fileMeta => 32
  | blockChunk => 16

def recordAlign : RecordType → ℕ
  | store => 4
  | block => 2
  | fileMeta => 8
  | blockChunk => 4

/-- The bytes of an element, which are also its alignment. -/
def elemSize : RecordType → ℕ
  | store => 2
  | block => 4
  | fileMeta => 8
  | blockChunk => 4

end RecordType

variable {debug : Bool} {t : RecordType}

abbrev Record (debug : Bool) (t : RecordType) := Fin (t.recordSize debug) → UInt8

/-- For each element whether it is not zero. -/
def toElements (slice : List (Record debug t)) : List Bool :=
  (List.range (slice.length * t.recordSize debug / t.elemSize)).map fun k =>
    (((asBytes slice).drop (k * t.elemSize)).take t.elemSize).any (· ≠ 0)

/-- What `as_simd` may cut the elements into. -/
structure Split (elements : List Bool) where
  head : List Bool
  vectors : List (List Bool)
  tail : List Bool
  lanes : ∀ chunk ∈ vectors, chunk.length = 64
  whole : head ++ vectors.flatten ++ tail = elements

/-- The cut of elements the first of which is at the `lane` of an aligned vector. -/
def Split.aligned (lane : ℕ) (elements : List Bool) : Split elements :=
  ⟨elements.take (unaligned lane elements), simd lane elements, suffix lane elements,
    fun _ => length_of_mem_simd, aligned_whole lane elements⟩

/-- There is no program when the assertion in `to_elements` fails, since it is
checked by the compiler. -/
def containsDeleted (checks debug : Bool) (t : RecordType) {elements : List Bool}
    (s : Split elements) : Option (Except Panic Bool) :=
  if t.recordAlign = t.elemSize then
    some (scan checks (t.recordSize debug) s.head s.vectors s.tail)
  else none

/-- For the tables that can be read this is the scan of their slices. -/
theorem containsDeleted_aligned (checks : Bool) (lane : ℕ) (slice : List (Record debug .blockChunk)) :
    containsDeleted checks debug .blockChunk (Split.aligned lane (toElements slice)) =
      some (DeletedScan.containsDeleted checks DiskPool.Table.blockLists.recordSize lane
        (DiskPool.toElements (t := .blockLists) slice)) := rfl

/-- Runs of zeros that are looked at have a deleted record among them. -/
theorem exists_deleted {t : DiskPool.Table} {checks : Bool} {slice : List (DiskPool.Record t)}
    (s : Split (DiskPool.toElements slice))
    (h : ∃ run ∈ looked checks t.recordSize s.head s.vectors s.tail, true ∉ run) :
    ∃ r ∈ slice, ∀ i, r i = 0 := by
  have hsize : t.recordSize < 64 := by
    cases t <;> decide
  obtain ⟨run, hrun, hzero⟩ := h
  obtain ⟨hpart, hcount⟩ := mem_looked hsize s.lanes hrun
  rw [s.whole] at hpart
  by_contra hnone
  have hlive : DiskPush.Live slice := by
    intro r hr heq
    exact hnone ⟨r, hr, fun i => congrFun heq i⟩
  exact hzero (hlive.broken run hpart hcount)

theorem scan_table {t : DiskPool.Table} {checks : Bool} {slice : List (DiskPool.Record t)}
    (s : Split (DiskPool.toElements slice)) :
    scan checks t.recordSize s.head s.vectors s.tail =
        .ok (decide (∃ r ∈ slice, ∀ i, r i = 0)) ↔
      (∃ run ∈ looked checks t.recordSize s.head s.vectors s.tail, true ∉ run) ∨
        (∀ r ∈ slice, ∃ i, r i ≠ 0) ∧ (checks = true → s.vectors = []) := by
  have hsize : 0 < t.recordSize ∧ t.recordSize < 64 ∧ t.recordSize ∣ 64 := by
    cases t <;> decide
  have hzero : (looked checks t.recordSize s.head s.vectors s.tail).any
      (fun run => run.all (!·)) = true ↔
      ∃ run ∈ looked checks t.recordSize s.head s.vectors s.tail, true ∉ run := by
    rw [List.any_eq_true]
    apply exists_congr
    intro run
    apply and_congr_right'
    rw [List.all_eq_true]
    constructor
    · intro hall htrue
      cases hall true htrue
    · intro hnone b hb
      cases b with
      | true => exact absurd hb hnone
      | false => rfl
  have hlive : (∀ r ∈ slice, ∃ i, r i ≠ 0) ↔ ¬∃ r ∈ slice, ∀ i, r i = 0 := by
    simp only [not_exists, not_and, not_forall]
  rw [scan_eq hsize.1 hsize.2.1 hsize.2.2 s.lanes, if_congr hzero rfl rfl, hlive]
  by_cases hseen : ∃ run ∈ looked checks t.recordSize s.head s.vectors s.tail, true ∉ run
  · have hdeleted := exists_deleted s hseen
    rw [if_pos hseen, decide_eq_true hdeleted]
    simp [hseen]
  · rw [if_neg hseen]
    by_cases hpanic : checks = true ∧ s.vectors ≠ []
    · rw [if_pos hpanic]
      constructor
      · intro h
        cases h
      · rintro (h | ⟨-, h⟩)
        · exact absurd h hseen
        · exact absurd (h hpanic.1) hpanic.2
    · rw [if_neg hpanic]
      have hquiet : checks = true → s.vectors = [] := by
        intro hchecks
        by_contra hne
        exact hpanic ⟨hchecks, hne⟩
      by_cases hdeleted : ∃ r ∈ slice, ∀ i, r i = 0
      · rw [decide_eq_true hdeleted]
        constructor
        · intro h
          cases h
        · rintro (h | ⟨h, -⟩)
          · exact absurd h hseen
          · exact absurd hdeleted h
      · rw [decide_eq_false hdeleted]
        exact ⟨fun _ => .inr ⟨hdeleted, hquiet⟩, fun _ => rfl⟩

/-- Deleted records are recognised exactly if a run of zeros as many as a record has
bytes is where it is looked for, or there is nothing to recognise and no overflow. -/
theorem containsDeleted_iff (checks debug : Bool) (t : RecordType) (slice : List (Record debug t))
    (s : Split (toElements slice)) :
    containsDeleted checks debug t s = some (.ok (decide (∃ r ∈ slice, ∀ i, r i = 0))) ↔
      t.recordAlign = t.elemSize ∧
        ((∃ run ∈ looked checks (t.recordSize debug) s.head s.vectors s.tail, true ∉ run) ∨
          (∀ r ∈ slice, ∃ i, r i ≠ 0) ∧ (checks = true → s.vectors = [])) := by
  unfold containsDeleted
  cases t with
  | store => simp [RecordType.recordAlign, RecordType.elemSize]
  | block => simp [RecordType.recordAlign, RecordType.elemSize]
  | fileMeta =>
    have halign : RecordType.fileMeta.recordAlign = RecordType.fileMeta.elemSize := rfl
    have hscan := @scan_table .files checks slice s
    rw [if_pos halign, Option.some_inj]
    exact hscan.trans ⟨fun h => ⟨halign, h⟩, fun h => h.2⟩
  | blockChunk =>
    have halign : RecordType.blockChunk.recordAlign = RecordType.blockChunk.elemSize := rfl
    have hscan := @scan_table .blockLists checks slice s
    rw [if_pos halign, Option.some_inj]
    exact hscan.trans ⟨fun h => ⟨halign, h⟩, fun h => h.2⟩

/-- One deleted record is taken for a live one. -/
theorem containsDeleted_misses_one : ¬ ∀ (checks debug : Bool) (t : RecordType)
    (slice : List (Record debug t)) (s : Split (toElements slice)),
    containsDeleted checks debug t s = some (.ok (decide (∃ r ∈ slice, ∀ i, r i = 0))) := by
  intro h
  have hone := h false false .blockChunk [fun _ => 0]
    (Split.aligned 0 (@toElements false .blockChunk [fun _ => 0]))
  have hscan : containsDeleted false false .blockChunk
      (Split.aligned 0 (@toElements false .blockChunk [fun _ => 0])) =
        some (.ok false) := by
    decide +kernel
  rw [hscan, decide_eq_true ⟨_, List.mem_singleton_self _, fun _ => rfl⟩] at hone
  cases hone

end OrionNetwork.DeletedRecords
