import OrionNetwork.DeletedScan
import OrionNetwork.RecordFiles

/-!
# Files of records

The records of a table are spread over 1024 files of equal capacity. An id is
turned into a file and an offset by its distance in bytes from the first record,
which is computed in a machine word. Files hold a byte at every offset, and
reading and writing does not fail. A record that is updated is written back when
the access to it is dropped.
-/
namespace OrionNetwork.DiskPool
open BlockHash FreeList RecordFiles ByteMemory

/-- The tables that can be read. The other two do not compile with that, as the
elements that their records are looked at as are aligned differently. -/
inductive Table where
  | files
  | blockLists
  deriving DecidableEq

namespace Table

def recordSize : Table → ℕ
  | files => 32
  | blockLists => 16

/-- The bytes of an element. -/
def elemSize : Table → ℕ
  | files => 8
  | blockLists => 4

def idBits : Table → ℕ
  | files => 64
  | blockLists => 32

end Table

abbrev Record (t : Table) := Fin t.recordSize → UInt8

abbrev Id (t : Table) := BitVec t.idBits

def fileCount : ℕ := 1024

/-- The records of a file: `1 << (32 - FILE_COUNT.ilog2())`. -/
def perFile : ℕ := 2 ^ 22

def Table.fileCapacity (t : Table) : ℕ := perFile * t.recordSize

/-- The bytes of all files. -/
abbrev Pool := ℕ → ℕ → UInt8

inductive ErrorKind where
  | notFound
  | outOfMemory
  | invalidInput
  deriving DecidableEq

inductive Failure where
  | io (kind : ErrorKind)
  | panic (panic : Panic)
  deriving DecidableEq

/-- Memory to read records into: how many, and the lane of an aligned vector that
the first element is at. -/
structure Buffer where
  lane : ℕ
  len : ℕ

structure Offsets where
  fileIndex : ℕ
  fileOffset : ℕ
  count : ℕ

variable {t : Table}

/-- For each element whether it is not zero. -/
def toElements (slice : List (Record t)) : List Bool :=
  (List.range (slice.length * t.recordSize / t.elemSize)).map fun k =>
    (((asBytes slice).drop (k * t.elemSize)).take t.elemSize).any (· ≠ 0)

section Access

variable (checks : Bool)

/-- A product in `usize`. -/
def mul (a b : ℕ) : Except Failure ℕ :=
  if checks = true ∧ 2 ^ 64 ≤ a * b then .error (.panic .overflow) else .ok (a * b % 2 ^ 64)

/-- The bytes of a slice in memory are always counted without overflow. -/
def idToOffsets (t : Table) (id count : ℕ) : Except Failure Offsets := do
  let pos ← mul checks id t.recordSize
  let fileOffset := pos % t.fileCapacity
  let rwLen := min (count * t.recordSize) (t.fileCapacity - fileOffset)
  return ⟨pos / t.fileCapacity, fileOffset, rwLen / t.recordSize⟩

def containsDeleted (lane : ℕ) (slice : List (Record t)) : Except Failure Bool :=
  (DeletedScan.containsDeleted checks t.recordSize lane (toElements slice)).mapError .panic

/-- What `take_mut` leaves of the buffer. -/
def Buffer.advance (t : Table) (b : Buffer) (count : ℕ) : Buffer :=
  ⟨b.lane + count * (t.recordSize / t.elemSize), b.len - count⟩

/-- The records that were read, and what is left of the buffer. -/
def fetch (pool : Pool) (start : Id t) (buffer : Buffer) :
    Except Failure (List (Record t) × Buffer) := do
  let o ← idToOffsets checks t start.toNat buffer.len
  if fileCount ≤ o.fileIndex then throw (.io .notFound)
  let slice := readAll (pool o.fileIndex) o.fileOffset o.count
  if ← containsDeleted checks buffer.lane slice then throw (.io .notFound)
  return (slice, buffer.advance t o.count)

/-- The file and the records that were read from it. -/
structure WriteAccess (t : Table) where
  file : ℕ
  slice : List (Record t)

def update (pool : Pool) (start : Id t) (space : Buffer) :
    Except Failure (WriteAccess t × Buffer) := do
  let o ← idToOffsets checks t start.toNat space.len
  if fileCount ≤ o.fileIndex then throw (.io .notFound)
  let slice := readAll (pool o.fileIndex) o.fileOffset o.count
  if ← containsDeleted checks space.lane slice then throw (.io .notFound)
  return (⟨o.fileIndex, slice⟩, space.advance t o.count)

/-- The records are written to the start of the file. -/
def WriteAccess.drop (access : WriteAccess t) (pool : Pool) : Pool :=
  Function.update pool access.file (store (pool access.file) 0 (asBytes access.slice))

/-- One record. -/
def fetchOne (pool : Pool) (id : Id t) (lane : ℕ) : Except Failure (List (Record t)) :=
  (fetch checks pool id ⟨lane, 1⟩).map Prod.fst

end Access

section Offsets

variable {checks : Bool}

/-- Ids that are this far apart have the same distance in bytes. -/
def Table.slots : Table → ℕ
  | files => 2 ^ 59
  | blockLists => 2 ^ 60

/-- The records from an id to the end of its file. -/
def room (id : ℕ) : ℕ := perFile - id % perFile

theorem recordSize_pos (t : Table) : 0 < t.recordSize := by
  cases t <;> decide

theorem room_pos (id : ℕ) : 0 < room id := by
  unfold room perFile
  omega

theorem room_le (id : ℕ) : room id ≤ perFile := Nat.sub_le _ _

theorem slots_mul_recordSize (t : Table) : t.slots * t.recordSize = 2 ^ 64 := by
  cases t <;> rfl

theorem perFile_dvd_slots (t : Table) : perFile ∣ t.slots := by
  cases t with
  | files => exact ⟨2 ^ 37, rfl⟩
  | blockLists => exact ⟨2 ^ 38, rfl⟩

/-- Where the records of an id are, counted in records. -/
theorem idToOffsets_eq (t : Table) (id count : ℕ) :
    idToOffsets checks t id count =
      if checks = true ∧ t.slots ≤ id then .error (.panic .overflow)
      else .ok ⟨id % t.slots / perFile, id % perFile * t.recordSize, min count (room id)⟩ := by
  have hsize := recordSize_pos t
  have hover : 2 ^ 64 ≤ id * t.recordSize ↔ t.slots ≤ id := by
    rw [← slots_mul_recordSize t, Nat.mul_le_mul_right_iff hsize]
  have hpos : id * t.recordSize % 2 ^ 64 = id % t.slots * t.recordSize := by
    rw [← slots_mul_recordSize t, Nat.mul_mod_mul_right]
  unfold idToOffsets mul
  by_cases hpanic : checks = true ∧ t.slots ≤ id
  · rw [if_pos ⟨hpanic.1, hover.mpr hpanic.2⟩, if_pos hpanic]
    rfl
  · rw [if_neg (fun h => hpanic ⟨h.1, hover.mp h.2⟩), if_neg hpanic, hpos]
    have hindex : id % t.slots * t.recordSize / t.fileCapacity = id % t.slots / perFile :=
      Nat.mul_div_mul_right _ _ hsize
    have hoffset : id % t.slots * t.recordSize % t.fileCapacity = id % perFile * t.recordSize := by
      rw [Table.fileCapacity, Nat.mul_mod_mul_right, Nat.mod_mod_of_dvd _ (perFile_dvd_slots t)]
    have hcount : min (count * t.recordSize) (t.fileCapacity - id % perFile * t.recordSize) /
        t.recordSize = min count (room id) := by
      rw [Table.fileCapacity, ← Nat.sub_mul, Nat.mul_min_mul_right, Nat.mul_div_cancel _ hsize]
      rfl
    simp only [bind, Except.bind, pure, Except.pure, hindex, hoffset, hcount]

theorem length_toElements (slice : List (Record t)) :
    (toElements slice).length = slice.length * 4 := by
  have hfour : t.recordSize = 4 * t.elemSize := by
    cases t <;> rfl
  have hpos : 0 < t.elemSize := by
    cases t <;> decide
  rw [toElements, List.length_map, List.length_range, hfour, ← Nat.mul_assoc,
    Nat.mul_div_cancel _ hpos]

/-- One record is never taken for a deleted one. -/
theorem containsDeleted_one (lane : ℕ) {slice : List (Record t)} (h : slice.length ≤ 1) :
    containsDeleted checks lane slice = .ok false := by
  have hlen := length_toElements slice
  have hsize : 16 ≤ t.recordSize ∧ t.recordSize < 64 ∧ t.recordSize ∣ 64 := by
    cases t <;> decide
  have hbroken : DeletedScan.Broken t.recordSize (toElements slice) := by
    intro run hrun hrunlen
    have hle := hrun.length_le
    omega
  have hvectors : DeletedScan.simd lane (toElements slice) = [] := by
    have hfew : ((toElements slice).drop (DeletedScan.unaligned lane (toElements slice))).length /
        DeletedScan.lanes = 0 := by
      rw [List.length_drop]
      unfold DeletedScan.lanes
      omega
    rw [DeletedScan.simd, DeletedScan.chunksExact, hfew]
    rfl
  unfold containsDeleted
  rw [DeletedScan.containsDeleted_eq hbroken (by omega) hsize.2.1 hsize.2.2, hvectors,
    if_neg (by simp)]
  rfl

/-- The records that a read of up to `count` records from an id on finds. -/
def stored (pool : Pool) (id : Id t) (count : ℕ) : List (Record t) :=
  readAll (pool (id.toNat % t.slots / perFile)) (id.toNat % perFile * t.recordSize)
    (min count (room id.toNat))

/-- Ids outside of the files, and ids whose distance does not fit into a word. -/
def outside (checks : Bool) (id : Id t) : Option Failure :=
  if checks = true ∧ t.slots ≤ id.toNat then some (.panic .overflow)
  else if fileCount ≤ id.toNat % t.slots / perFile then some (.io .notFound)
  else none

theorem fetch_outside {pool : Pool} {id : Id t} {failure : Failure}
    (h : outside checks id = some failure) (buffer : Buffer) :
    fetch checks pool id buffer = .error failure := by
  unfold outside at h
  unfold fetch
  rw [idToOffsets_eq]
  split_ifs at h ⊢ with hpanic hfile
  · cases h
    rfl
  · cases h
    simp only [bind, Except.bind, if_pos hfile]
    rfl

theorem fetch_inside {pool : Pool} {id : Id t} (h : outside checks id = none) (buffer : Buffer) :
    fetch checks pool id buffer =
      (containsDeleted checks buffer.lane (stored pool id buffer.len)).bind fun deleted =>
        if deleted then .error (.io .notFound)
        else .ok (stored pool id buffer.len, buffer.advance t (min buffer.len (room id.toNat))) := by
  unfold outside at h
  unfold fetch
  rw [idToOffsets_eq]
  split_ifs at h ⊢ with hpanic hfile
  simp only [bind, Except.bind, if_neg hfile]
  cases hdeleted : containsDeleted checks buffer.lane (stored pool id buffer.len) with
  | error e =>
    unfold stored at hdeleted
    rw [hdeleted]
  | ok deleted =>
    unfold stored at hdeleted
    rw [hdeleted]
    cases deleted <;> rfl

/-- Fetching one record reads it, whatever it is. -/
theorem fetchOne_inside {pool : Pool} {id : Id t} (h : outside checks id = none) (lane : ℕ) :
    fetchOne checks pool id lane =
      .ok [readAt (pool (id.toNat % t.slots / perFile)) (id.toNat % perFile * t.recordSize)] := by
  have hroom := room_pos id.toNat
  have hone : min 1 (room id.toNat) = 1 := by omega
  have hread : stored pool id 1 =
      [readAt (pool (id.toNat % t.slots / perFile)) (id.toNat % perFile * t.recordSize)] := by
    unfold stored
    rw [hone]
    simp [readAll]
  have hdeleted : containsDeleted checks lane (stored pool id 1) = .ok false := by
    apply containsDeleted_one
    rw [hread]
    exact le_rfl
  unfold fetchOne
  rw [fetch_inside h, hdeleted, hread]
  rfl

theorem fetchOne_outside {pool : Pool} {id : Id t} {failure : Failure}
    (h : outside checks id = some failure) (lane : ℕ) :
    fetchOne checks pool id lane = .error failure := by
  unfold fetchOne
  rw [fetch_outside h]
  rfl

theorem outside_none_iff {id : Id t} :
    outside checks id = none ↔
      ¬ (checks = true ∧ t.slots ≤ id.toNat) ∧ id.toNat % t.slots / perFile < fileCount := by
  unfold outside
  split_ifs with hpanic hfile
  · simp [hpanic]
  · simp [hfile]
  · simp only [true_iff]
    exact ⟨hpanic, not_le.mp hfile⟩

/-- An access is made from the records that are read, and their file. -/
theorem update_eq_fetch (pool : Pool) (start : Id t) (space : Buffer) :
    update checks pool start space = (fetch checks pool start space).map fun r =>
      (⟨start.toNat % t.slots / perFile, r.1⟩, r.2) := by
  unfold update fetch
  rw [idToOffsets_eq]
  split_ifs with hpanic
  · rfl
  · simp only [bind, Except.bind]
    by_cases hfile : fileCount ≤ start.toNat % t.slots / perFile
    · rw [if_pos hfile, if_pos hfile]
      rfl
    · rw [if_neg hfile, if_neg hfile]
      cases containsDeleted checks space.lane (readAll (pool (start.toNat % t.slots / perFile))
        (start.toNat % perFile * t.recordSize) (min space.len (room start.toNat)) :
          List (Record t)) with
      | error e => rfl
      | ok deleted => cases deleted <;> rfl

theorem fetch_ok {pool : Pool} {id : Id t} {buffer buffer' : Buffer} {slice : List (Record t)}
    (h : fetch checks pool id buffer = .ok (slice, buffer')) :
    outside checks id = none ∧ slice = stored pool id buffer.len ∧
      buffer' = buffer.advance t (min buffer.len (room id.toNat)) := by
  cases hid : outside checks id with
  | some failure =>
    rw [fetch_outside hid] at h
    cases h
  | none =>
    rw [fetch_inside hid] at h
    cases hdeleted : containsDeleted checks buffer.lane (stored pool id buffer.len) with
    | error e =>
      rw [hdeleted] at h
      cases h
    | ok deleted =>
      rw [hdeleted] at h
      cases deleted with
      | true => cases h
      | false =>
        cases h
        exact ⟨rfl, rfl, rfl⟩

/-- An access is to records of one file. -/
theorem update_ok {pool : Pool} {start : Id t} {space space' : Buffer} {access : WriteAccess t}
    (h : update checks pool start space = .ok (access, space')) :
    outside checks start = none ∧ access.file = start.toNat % t.slots / perFile ∧
      access.slice.length = min space.len (room start.toNat) := by
  rw [update_eq_fetch] at h
  cases hfetch : fetch checks pool start space with
  | error e =>
    rw [hfetch] at h
    cases h
  | ok r =>
    rw [hfetch] at h
    cases h
    obtain ⟨hinside, hslice, -⟩ := fetch_ok hfetch
    refine ⟨hinside, rfl, ?_⟩
    simp only [hslice, stored, length_readAll]

end Offsets

section Frame

variable {checks : Bool} {pool pool' : Pool} {start id : Id t} {slice : List (Record t)}

/-- The records from `start` on are those of `slice`, and all others are what they
were before. -/
def Updated (checks : Bool) (pool pool' : Pool) (start : Id t) (slice : List (Record t)) : Prop :=
  ∀ (id : Id t) (lane : ℕ),
    (∀ i r, slice[i]? = some r → id.toNat = start.toNat + i →
      fetchOne checks pool' id lane = .ok [r]) ∧
    ((∀ i < slice.length, id.toNat ≠ start.toNat + i) →
      fetchOne checks pool' id lane = fetchOne checks pool id lane)

/-- Whether two ids of the table can be at the same place. -/
def Aliases (checks : Bool) (t : Table) : Prop := checks = false ∧ t = .files

/-- Without aliases the place of an id in the files tells the id. -/
theorem toNat_lt_slots (h : ¬ Aliases checks t) (hid : outside checks id = none) :
    id.toNat < t.slots := by
  obtain ⟨hpanic, -⟩ := outside_none_iff.mp hid
  cases t with
  | blockLists =>
    have hlt : id.toNat < 2 ^ 32 := id.isLt
    have hslots : Table.slots .blockLists = 2 ^ 60 := rfl
    omega
  | files =>
    cases checks with
    | false => exact absurd ⟨rfl, rfl⟩ h
    | true =>
      by_contra hle
      exact hpanic ⟨rfl, not_lt.mp hle⟩

/-- A record that is somewhere else in the files than what is written. -/
theorem fetchOne_write_of_ne {file : ℕ} (hid : outside checks id = none)
    (h : id.toNat % t.slots / perFile = file → slice.length ≤ id.toNat % perFile) (lane : ℕ) :
    fetchOne checks (Function.update pool file (store (pool file) 0 (asBytes slice))) id lane =
      fetchOne checks pool id lane := by
  rw [fetchOne_inside hid, fetchOne_inside hid]
  by_cases hfile : id.toNat % t.slots / perFile = file
  · rw [hfile, Function.update_self, readAt_store_of_disjoint]
    right
    rw [Nat.zero_add]
    exact Nat.mul_le_mul_right _ (h hfile)
  · rw [Function.update_of_ne hfile]

/-- A record that is written. -/
theorem fetchOne_write_of_eq {file i : ℕ} {r : Record t} (hid : outside checks id = none)
    (hfile : id.toNat % t.slots / perFile = file) (hi : id.toNat % perFile = i)
    (hr : slice[i]? = some r) (lane : ℕ) :
    fetchOne checks (Function.update pool file (store (pool file) 0 (asBytes slice))) id lane =
      .ok [r] := by
  rw [fetchOne_inside hid, hfile, Function.update_self, hi]
  have hread : readAt (store (pool file) 0 (asBytes slice)) (0 + i * t.recordSize) = r :=
    readAt_store hr
  rw [Nat.zero_add] at hread
  rw [hread]

theorem updated_nil (file : ℕ) (h : slice.length = 0) :
    Updated checks pool (Function.update pool file (store (pool file) 0 (asBytes slice))) start
      slice := by
  intro id lane
  constructor
  · intro i r hr
    rw [List.eq_nil_of_length_eq_zero h] at hr
    cases hr
  · intro _
    cases hid : outside checks id with
    | none => exact fetchOne_write_of_ne hid (fun _ => h ▸ Nat.zero_le _) lane
    | some failure => rw [fetchOne_outside hid, fetchOne_outside hid]

/-- The first records of a file are written back to where they were read. -/
theorem updated_of_first (halias : ¬ Aliases checks t) (hstart : outside checks start = none)
    (hfirst : start.toNat % perFile = 0) (hlen : slice.length ≤ perFile) :
    Updated checks pool (Function.update pool (start.toNat % t.slots / perFile)
      (store (pool (start.toNat % t.slots / perFile)) 0 (asBytes slice))) start slice := by
  have hlt := toNat_lt_slots halias hstart
  have hdvd := perFile_dvd_slots t
  have hfile := (outside_none_iff.mp hstart).2
  rw [Nat.mod_eq_of_lt hlt] at hfile ⊢
  intro id lane
  constructor
  · intro i r hr hid
    have hi : i < perFile := (List.getElem?_eq_some_iff.mp hr).1.trans_le hlen
    obtain ⟨k, hk⟩ := hdvd
    obtain ⟨q, hq⟩ := Nat.dvd_of_mod_eq_zero hfirst
    have hq' : q < k := by
      rw [hq, hk] at hlt
      exact Nat.lt_of_mul_lt_mul_left hlt
    have hidlt : id.toNat < t.slots := by
      have hstep : perFile * (q + 1) ≤ perFile * k := Nat.mul_le_mul_left _ hq'
      rw [Nat.mul_add, Nat.mul_one] at hstep
      omega
    have hquot : id.toNat / perFile = start.toNat / perFile := by
      rw [hid, hq, Nat.mul_add_div (by decide), Nat.div_eq_of_lt hi,
        Nat.mul_div_cancel_left _ (by decide), Nat.add_zero]
    have hrem : id.toNat % perFile = i := by
      rw [hid, hq, Nat.mul_add_mod, Nat.mod_eq_of_lt hi]
    have hinside : outside checks id = none := by
      rw [outside_none_iff, Nat.mod_eq_of_lt hidlt, hquot]
      exact ⟨fun h => absurd h.2 (not_le.mpr hidlt), hfile⟩
    exact fetchOne_write_of_eq hinside (by rw [Nat.mod_eq_of_lt hidlt, hquot]) hrem hr lane
  · intro hother
    cases hid : outside checks id with
    | some failure => rw [fetchOne_outside hid, fetchOne_outside hid]
    | none =>
      apply fetchOne_write_of_ne hid
      intro hsame
      rw [Nat.mod_eq_of_lt (toNat_lt_slots halias hid)] at hsame
      by_contra hwritten
      have hid' : id.toNat = start.toNat + id.toNat % perFile := by
        have hdecompose := Nat.div_add_mod id.toNat perFile
        have hdecompose' := Nat.div_add_mod start.toNat perFile
        rw [hsame] at hdecompose
        omega
      exact hother _ (not_le.mp hwritten) hid'

/-- Another id whose record is the first of the file. -/
theorem not_updated (pool : Pool) {n : ℕ} (hn : 0 < n) (hid : outside checks id = none)
    (hfirst : id.toNat % perFile = 0) (hother : ∀ i < n, id.toNat ≠ start.toNat + i) :
    ∃ slice : List (Record t), slice.length = n ∧
      ¬ Updated checks pool (Function.update pool (id.toNat % t.slots / perFile)
        (store (pool (id.toNat % t.slots / perFile)) 0 (asBytes slice))) start slice := by
  let old : Record t := readAt (pool (id.toNat % t.slots / perFile)) 0
  refine ⟨List.replicate n fun j => old j + 1, List.length_replicate, ?_⟩
  intro hupdated
  have hsame := (hupdated id 0).2 (by simpa using hother)
  rw [fetchOne_write_of_eq hid rfl hfirst (List.getElem?_replicate_of_lt hn), fetchOne_inside hid,
    hfirst, Nat.zero_mul] at hsame
  simp only [Except.ok.injEq, List.cons.injEq, and_true] at hsame
  have hbyte : old ⟨0, recordSize_pos t⟩ + 1 = old ⟨0, recordSize_pos t⟩ :=
    congrFun hsame ⟨0, recordSize_pos t⟩
  have hnat := congrArg UInt8.toNat hbyte
  have hone : (1 : UInt8).toNat = 1 := rfl
  have hlt := (old ⟨0, recordSize_pos t⟩).toNat_lt
  rw [UInt8.toNat_add, hone] at hnat
  omega

/-- The first record of a file comes before the others. -/
theorem exists_first {n : ℕ} (hstart : outside checks start = none)
    (hfirst : start.toNat % perFile ≠ 0) :
    ∃ id : Id t, outside checks id = none ∧ id.toNat % perFile = 0 ∧
      id.toNat % t.slots / perFile = start.toNat % t.slots / perFile ∧
      ∀ i < n, id.toNat ≠ start.toNat + i := by
  obtain ⟨hpanic, hfile⟩ := outside_none_iff.mp hstart
  have hid : (BitVec.ofNat t.idBits (start.toNat - start.toNat % perFile)).toNat =
      start.toNat - start.toNat % perFile := by
    have hlt := start.isLt
    rw [BitVec.toNat_ofNat, Nat.mod_eq_of_lt (by omega)]
  have hplace : (start.toNat - start.toNat % perFile) % t.slots / perFile =
      start.toNat % t.slots / perFile := by
    cases t <;> simp only [Table.slots, perFile] <;> omega
  refine ⟨BitVec.ofNat _ (start.toNat - start.toNat % perFile), ?_, ?_, ?_, ?_⟩
  · rw [outside_none_iff, hid, hplace]
    exact ⟨fun h => hpanic ⟨h.1, h.2.trans (Nat.sub_le _ _)⟩, hfile⟩
  · rw [hid]
    simp only [perFile]
    omega
  · rw [hid, hplace]
  · intro i _
    have hle := Nat.mod_le start.toNat perFile
    rw [hid]
    omega

/-- The id that is as far away as there are places. -/
theorem exists_alias {n : ℕ} (halias : checks = false ∧ t = .files)
    (hstart : outside checks start = none) (hfirst : start.toNat % perFile = 0) (hn : n ≤ perFile) :
    ∃ id : Id t, outside checks id = none ∧ id.toNat % perFile = 0 ∧
      id.toNat % t.slots / perFile = start.toNat % t.slots / perFile ∧
      ∀ i < n, id.toNat ≠ start.toNat + i := by
  obtain ⟨rfl, rfl⟩ := halias
  obtain ⟨-, hfile⟩ := outside_none_iff.mp hstart
  have hlt : start.toNat < 2 ^ 64 := start.isLt
  have hid : (BitVec.ofNat (Table.idBits .files) (start.toNat + 2 ^ 59)).toNat =
      (start.toNat + 2 ^ 59) % 2 ^ 64 :=
    BitVec.toNat_ofNat _ _
  have hplace : (start.toNat + 2 ^ 59) % 2 ^ 64 % Table.slots .files =
      start.toNat % Table.slots .files := by
    simp only [Table.slots]
    omega
  simp only [perFile] at hfirst hn
  refine ⟨BitVec.ofNat (Table.idBits .files) (start.toNat + 2 ^ 59), ?_, ?_, ?_, ?_⟩
  · rw [outside_none_iff, hid, hplace]
    exact ⟨by simp, hfile⟩
  · rw [hid]
    simp only [perFile]
    omega
  · rw [hid, hplace]
  · intro i hi
    rw [hid]
    omega

/-- Whatever is written through an access, the records of other ids stay as they
are and its own are the new ones: exactly when there are none, or when they are the
first of their file and no two ids share a place. -/
theorem update_frame_iff {space space' : Buffer} {access : WriteAccess t}
    (h : update checks pool start space = .ok (access, space')) :
    (∀ slice : List (Record t), slice.length = access.slice.length →
      Updated checks pool ({ access with slice := slice }.drop pool) start slice) ↔
      space.len = 0 ∨ (start.toNat % perFile = 0 ∧ ¬ (checks = false ∧ t = .files)) := by
  obtain ⟨hstart, hfile, hlen⟩ := update_ok h
  have hroom := room_pos start.toNat
  have hle := room_le start.toNat
  simp only [WriteAccess.drop, hfile]
  constructor
  · intro hall
    by_contra hnot
    rw [not_or] at hnot
    have hpos : 0 < access.slice.length := by omega
    have hviolated : ∃ id : Id t, outside checks id = none ∧ id.toNat % perFile = 0 ∧
        id.toNat % t.slots / perFile = start.toNat % t.slots / perFile ∧
        ∀ i < access.slice.length, id.toNat ≠ start.toNat + i := by
      by_cases hfirst : start.toNat % perFile = 0
      · have halias : checks = false ∧ t = .files := by
          by_contra hno
          exact hnot.2 ⟨hfirst, hno⟩
        exact exists_alias halias hstart hfirst (by omega)
      · exact exists_first hstart hfirst
    obtain ⟨id, hid, hfirst, hsame, hother⟩ := hviolated
    obtain ⟨slice, hslice, hnotUpdated⟩ := not_updated pool hpos hid hfirst hother
    rw [hsame] at hnotUpdated
    exact hnotUpdated (hall slice hslice)
  · rintro (hnone | ⟨hfirst, halias⟩) slice hslice
    · apply updated_nil
      omega
    · apply updated_of_first halias hstart hfirst
      omega

end Frame

/-- Files that were never written. -/
def samplePool : Pool := fun _ _ => 0

def sampleRecord (byte : UInt8) : Record .blockLists := fun _ => byte

theorem outside_of_lt {id : Id .blockLists} (h : id.toNat < perFile) : outside true id = none := by
  simp only [perFile] at h
  rw [outside_none_iff]
  simp only [Table.slots, perFile, fileCount]
  omega

theorem update_samplePool (id : Id .blockLists) (h : id.toNat < perFile) :
    update true samplePool id ⟨0, 1⟩ = .ok (⟨0, [sampleRecord 0]⟩, ⟨4, 0⟩) := by
  have hroom := room_pos id.toNat
  have hone : min 1 (room id.toNat) = 1 := by omega
  have hfile : id.toNat % Table.slots .blockLists / perFile = 0 := by
    simp only [Table.slots, perFile] at h ⊢
    omega
  have hread : stored samplePool id 1 = [sampleRecord 0] := by
    unfold stored
    rw [hone]
    rfl
  have hdeleted : containsDeleted true 0 (stored samplePool id 1) = .ok false :=
    containsDeleted_one 0 (by rw [hread]; exact le_rfl)
  rw [update_eq_fetch, fetch_inside (outside_of_lt h), hdeleted, hread, hone, hfile]
  rfl

/-- The first record of the table. -/
theorem update_frame_first :
    ∃ access space', update true samplePool (0 : Id .blockLists) ⟨0, 1⟩ = .ok (access, space') ∧
      Updated true samplePool ({ access with slice := [sampleRecord 7] }.drop samplePool)
        (0 : Id .blockLists) [sampleRecord 7] := by
  have hupdate := update_samplePool 0 (by decide)
  exact ⟨_, _, hupdate, (update_frame_iff hupdate).mpr (.inr ⟨rfl, by simp⟩) _ rfl⟩

/-- Changing the second record of the table overwrites the first. -/
theorem update_overwrites_first :
    (∃ access space', update true samplePool (1 : Id .blockLists) ⟨0, 1⟩ = .ok (access, space') ∧
      fetchOne true ({ access with slice := [sampleRecord 7] }.drop samplePool)
        (1 : Id .blockLists) 0 = .ok [sampleRecord 0] ∧
      fetchOne true samplePool (0 : Id .blockLists) 0 = .ok [sampleRecord 0] ∧
      fetchOne true ({ access with slice := [sampleRecord 7] }.drop samplePool)
        (0 : Id .blockLists) 0 = .ok [sampleRecord 7]) ∧
    ¬ ∀ (t : Table) (checks : Bool) (pool : Pool) (start : Id t) (space space' : Buffer)
        (access : WriteAccess t) (slice : List (Record t)),
      update checks pool start space = .ok (access, space') →
      slice.length = access.slice.length →
      Updated checks pool ({ access with slice := slice }.drop pool) start slice := by
  have hupdate := update_samplePool 1 (by decide)
  have hfirst : outside true (0 : Id .blockLists) = none := outside_of_lt (by decide)
  have hsecond : outside true (1 : Id .blockLists) = none := outside_of_lt (by decide)
  have hold : fetchOne true samplePool (0 : Id .blockLists) 0 = .ok [sampleRecord 0] := by
    rw [fetchOne_inside hfirst]
    rfl
  have hnew : fetchOne true (WriteAccess.drop ⟨0, [sampleRecord 7]⟩ samplePool)
      (0 : Id .blockLists) 0 = .ok [sampleRecord 7] :=
    fetchOne_write_of_eq hfirst rfl rfl rfl 0
  have hlost : fetchOne true (WriteAccess.drop ⟨0, [sampleRecord 7]⟩ samplePool)
      (1 : Id .blockLists) 0 = .ok [sampleRecord 0] := by
    unfold WriteAccess.drop
    rw [fetchOne_write_of_ne hsecond (fun _ => by decide), fetchOne_inside hsecond]
    rfl
  refine ⟨⟨_, _, hupdate, hlost, hold, hnew⟩, ?_⟩
  intro hclaim
  have hupdated := hclaim _ true samplePool 1 _ _ _ [sampleRecord 7] hupdate rfl
  have hsame := (hupdated 0 0).2 (by decide)
  rw [hold] at hsame
  have hclash := hnew.symm.trans hsame
  simp only [Except.ok.injEq, List.cons.injEq, and_true] at hclash
  exact absurd (congrFun hclash ⟨0, by decide⟩) (by decide)

end OrionNetwork.DiskPool
