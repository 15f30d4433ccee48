import OrionNetwork.Collections
import OrionNetwork.CountingLoops

/-!
# Rejection sampling of the Kyber matrix

`gen_matrix` fills each polynomial of the matrix with values below `Q` that it
picks out of the output of an extendable hash. It reads three blocks of the output,
and where these do not hold 256 such values, it refills its buffer. The hash is a
parameter that assigns a stream of bytes to every message.
-/
namespace OrionNetwork.Kyber

open Collections Loops

def N : ℕ := 256
def Q : ℕ := 3329
def K : ℕ := 3

/-- The block size of SHAKE128. -/
def xofBlockbytes : ℕ := 168

def genMatrixNblocks : ℕ := (12 * N / 8 * (1 <<< 12) / Q + xofBlockbytes) / xofBlockbytes

abbrev Poly := List ℤ
abbrev Stream := ℕ → UInt8

/-- A byte of the buffer. The code has no `origin`: it is the place in the stream
from which the byte was read, and a zero that was never overwritten has none. -/
structure Cell where
  byte : UInt8
  origin : Option ℕ
  deriving DecidableEq, Repr

def val0 (a b : UInt8) : ℕ := (a.toNat ||| (b.toNat <<< 8)) &&& 0xfff

def val1 (b c : UInt8) : ℕ := ((b.toNat >>> 4) ||| (c.toNat <<< 4)) &&& 0xfff

/-- A candidate below `Q` goes to the next free place, `none` is the `break` where
there is no place. -/
def accept (room val : ℕ) (written : List ℤ) : Option (List ℤ) :=
  if val < Q then
    if written.length < room then some (written ++ [(val : ℤ)]) else none
  else some written

/-- The loop of `rej_uniform` over the chunks of three bytes, with the values that it
wrote so far. It also gives the bytes that it looked at. -/
def rejChunks (room : ℕ) : List ℤ → List Cell → List ℤ × List Cell
  | written, a :: b :: c :: buf =>
    match accept room (val0 a.byte b.byte) written with
    | none => (written, [a, b, c])
    | some written =>
      match accept room (val1 b.byte c.byte) written with
      | none => (written, [a, b, c])
      | some written =>
        let rest := rejChunks room written buf
        (rest.1, a :: b :: c :: rest.2)
  | written, _ => (written, [])

structure Rejected where
  r : List ℤ
  count : ℕ
  used : List Cell

def rejUniform (r : List ℤ) (buf : List Cell) : Rejected :=
  let result := rejChunks r.length [] buf
  let remining := r.length - result.1.length
  ⟨result.1 ++ r.drop result.1.length, r.length - remining, result.2⟩

/-- The next bytes of the stream. -/
def xofRead (stream : Stream) (position count : ℕ) : List Cell :=
  (List.range count).map fun k => ⟨stream (position + k), some (position + k)⟩

/-- The variables of the loop, the bytes that were taken from the stream so far and those
that `rej_uniform` looked at. -/
structure Sampling where
  a : Poly
  ctr : ℕ
  buf : List Cell
  buflen : ℕ
  position : ℕ
  used : List Cell

/-- `buf[start..start + bytes.len()].copy_from_slice(bytes)`. -/
def overwrite (buf : List Cell) (start : ℕ) (bytes : List Cell) : List Cell :=
  buf.take start ++ bytes ++ buf.drop (start + bytes.length)

def startSampling (stream : Stream) : Sampling :=
  let buflen := genMatrixNblocks * xofBlockbytes
  let buf := overwrite (List.replicate (genMatrixNblocks * xofBlockbytes + 2) ⟨0, none⟩) 0
    (xofRead stream 0 buflen)
  let result := rejUniform (List.replicate N 0) (buf.take buflen)
  ⟨result.r, result.count, buf, buflen, buflen, result.used⟩

/-- The body of the `while` loop. The range `off..=off` that is read into is one byte. -/
def refill (stream : Stream) (s : Sampling) : Sampling :=
  let off := s.buflen % 3
  let buf := forTo (fun k buf => buf.set k (buf.getD (s.buflen - off + k) ⟨0, none⟩)) off s.buf
  let buf := overwrite buf off (xofRead stream s.position 1)
  let buflen := off + xofBlockbytes
  let result := rejUniform (s.a.drop s.ctr) (buf.take buflen)
  ⟨s.a.take s.ctr ++ result.r, s.ctr + result.count, buf, buflen, s.position + 1,
    s.used ++ result.used⟩

/-- `while ctr < N`, `none` where the loop still runs after so many rounds. -/
def sampleLoop (stream : Stream) : ℕ → Sampling → Option Sampling
  | 0, s => if s.ctr < N then none else some s
  | rounds + 1, s => if s.ctr < N then sampleLoop stream rounds (refill stream s) else some s

def samplePoly (stream : Stream) (rounds : ℕ) : Option Sampling :=
  sampleLoop stream rounds (startSampling stream)

/-- What `xof_absorb` gives to the hash. -/
def xofAbsorb (seed : List UInt8) (x y : UInt8) : List UInt8 := seed ++ [x, y]

def positionStream (xof : List UInt8 → Stream) (seed : List UInt8) (transposed : Bool)
    (i j : ℕ) : Stream :=
  if transposed then xof (xofAbsorb seed (UInt8.ofNat i) (UInt8.ofNat j))
  else xof (xofAbsorb seed (UInt8.ofNat j) (UInt8.ofNat i))

/-- The run of `gen_matrix` with at most so many refills at each position. -/
def runMatrix (xof : List UInt8 → Stream) (rounds : ℕ) (seed : List UInt8) (transposed : Bool) :
    Option (List (List Sampling)) :=
  (List.range K).mapM fun i => (List.range K).mapM fun j =>
    samplePoly (positionStream xof seed transposed i j) rounds

def genMatrix (xof : List UInt8 → Stream) (rounds : ℕ) (seed : List UInt8) (transposed : Bool) :
    Option (List (List Poly)) :=
  (runMatrix xof rounds seed transposed).map (List.map (List.map Sampling.a))

/-- What one candidate adds to the polynomial. -/
def accepted (val : ℕ) : List ℤ := if val < Q then [(val : ℤ)] else []

/-- What the chunk of three bytes at this place of the stream adds. -/
def chunkCandidates (stream : Stream) (position : ℕ) : List ℤ :=
  accepted (val0 (stream position) (stream (position + 1))) ++
    accepted (val1 (stream (position + 1)) (stream (position + 2)))

/-- The candidates below `Q` among the first chunks of the stream. -/
def candidates (stream : Stream) (chunks : ℕ) : List ℤ :=
  (List.range chunks).flatMap fun k => chunkCandidates stream (3 * k)

/-- The chunks that the first read delivers. -/
def firstChunks : ℕ := genMatrixNblocks * xofBlockbytes / 3

/-- The polynomial holds the first candidates below `Q` of the stream, and the bytes that were
looked at for them are those of the stream, from the first on and each of them once. -/
structure Sampled (stream : Stream) (s : Sampling) : Prop where
  first : ∃ chunks, N ≤ (candidates stream chunks).length ∧ s.a = (candidates stream chunks).take N
  once : s.used.map Cell.origin = (List.range s.used.length).map some

/-- `gen_matrix` returns, with a sample of the right stream at every position. -/
def Expands (xof : List UInt8 → Stream) (seed : List UInt8) (transposed : Bool) : Prop :=
  ∃ rounds run, runMatrix xof rounds seed transposed = some run ∧
    genMatrix xof rounds seed transposed = some (run.map (List.map Sampling.a)) ∧
    ∀ i < K, ∀ j < K, ∃ s, (run.getD i [])[j]? = some s ∧
      Sampled (positionStream xof seed transposed i j) s

theorem accept_eq_none_iff {room val : ℕ} {written : List ℤ} :
    accept room val written = none ↔ val < Q ∧ room ≤ written.length := by
  unfold accept
  split_ifs <;> simp_all

theorem accept_eq_some {room val : ℕ} {written next : List ℤ}
    (h : accept room val written = some next) (hroom : written.length ≤ room) :
    next = written ++ accepted val ∧ next.length ≤ room := by
  unfold accept at h
  unfold accepted
  split_ifs at h with hval hfree
  · cases h
    rw [if_pos hval, List.length_append, List.length_singleton]
    exact ⟨rfl, hfree⟩
  · cases h
    rw [if_neg hval, List.append_nil]
    exact ⟨rfl, hroom⟩

/-- The candidates below `Q` in a buffer. -/
def bufCandidates : List Cell → List ℤ
  | a :: b :: c :: buf =>
    accepted (val0 a.byte b.byte) ++ accepted (val1 b.byte c.byte) ++ bufCandidates buf
  | _ => []

/-- Where a candidate finds no place, the places hold what was written before it. -/
theorem take_of_accept_eq_none {room val : ℕ} {written : List ℤ}
    (h : accept room val written = none) (hroom : written.length ≤ room) (later : List ℤ) :
    (written ++ later).take room = written := by
  obtain ⟨-, hfull⟩ := accept_eq_none_iff.mp h
  exact List.take_left' (le_antisymm hroom hfull)

theorem rejChunks_written {room : ℕ} {written : List ℤ} (buf : List Cell)
    (hroom : written.length ≤ room) :
    (rejChunks room written buf).1 = (written ++ bufCandidates buf).take room := by
  induction written, buf using rejChunks.induct room with
  | case1 written a b c buf h0 =>
    rw [rejChunks, h0, take_of_accept_eq_none h0 hroom]
  | case2 written a b c buf w0 h0 h1 =>
    obtain ⟨rfl, hroom⟩ := accept_eq_some h0 hroom
    rw [rejChunks, h0]
    simp only [h1]
    rw [bufCandidates, List.append_assoc, ← List.append_assoc, take_of_accept_eq_none h1 hroom]
  | case3 written a b c buf w0 h0 w1 h1 ih =>
    obtain ⟨rfl, hroom⟩ := accept_eq_some h0 hroom
    obtain ⟨rfl, hroom⟩ := accept_eq_some h1 hroom
    rw [rejChunks, h0]
    simp only [h1]
    rw [ih hroom, bufCandidates]
    simp only [List.append_assoc]
  | case4 buf written hshort =>
    rw [rejChunks, bufCandidates, List.append_nil, List.take_of_length_le hroom]
    · exact hshort
    · exact hshort

theorem rejChunks_used_isPrefix (room : ℕ) (written : List ℤ) (buf : List Cell) :
    (rejChunks room written buf).2 <+: buf := by
  induction written, buf using rejChunks.induct room with
  | case1 written a b c buf h0 =>
    rw [rejChunks, h0]
    exact ⟨buf, rfl⟩
  | case2 written a b c buf w0 h0 h1 =>
    rw [rejChunks, h0]
    simp only [h1]
    exact ⟨buf, rfl⟩
  | case3 written a b c buf w0 h0 w1 h1 ih =>
    rw [rejChunks, h0]
    simp only [h1]
    obtain ⟨rest, hrest⟩ := ih
    exact ⟨rest, by simp only [List.cons_append, hrest]⟩
  | case4 buf written hshort =>
    rw [rejChunks]
    · exact List.nil_prefix
    · exact hshort

/-- The first chunk is always looked at. -/
theorem rejChunks_first (room : ℕ) (a b c : Cell) (buf : List Cell) :
    [a, b, c] <+: (rejChunks room [] (a :: b :: c :: buf)).2 := by
  rw [rejChunks]
  cases accept room (val0 a.byte b.byte) [] with
  | none => exact List.prefix_rfl
  | some written =>
    cases h1 : accept room (val1 b.byte c.byte) written with
    | none =>
      simp only [h1]
      exact List.prefix_rfl
    | some written =>
      simp only [h1]
      exact ⟨_, rfl⟩

/-- Where there is a place for every candidate, all chunks are looked at. -/
theorem rejChunks_used {room : ℕ} {written : List ℤ} {buf : List Cell}
    (hroom : (written ++ bufCandidates buf).length ≤ room) (hwhole : 3 ∣ buf.length) :
    (rejChunks room written buf).2 = buf := by
  induction written, buf using rejChunks.induct room with
  | case1 written a b c buf h0 =>
    obtain ⟨hval, hfull⟩ := accept_eq_none_iff.mp h0
    simp only [bufCandidates, accepted, if_pos hval, List.length_append, List.length_singleton] at hroom
    omega
  | case2 written a b c buf w0 h0 h1 =>
    simp only [bufCandidates, List.length_append] at hroom
    obtain ⟨rfl, -⟩ := accept_eq_some h0 (by omega)
    obtain ⟨hval, hfull⟩ := accept_eq_none_iff.mp h1
    simp only [accepted, if_pos hval, List.length_append, List.length_singleton] at hroom hfull
    omega
  | case3 written a b c buf w0 h0 w1 h1 ih =>
    have hfit := hroom
    simp only [bufCandidates, List.length_append] at hfit
    obtain ⟨rfl, hw⟩ := accept_eq_some h0 (by omega)
    obtain ⟨rfl, -⟩ := accept_eq_some h1 hw
    rw [rejChunks, h0]
    simp only [h1]
    rw [ih]
    · simpa only [bufCandidates, List.append_assoc] using hroom
    · simpa only [List.length_cons, Nat.add_assoc, Nat.reduceAdd, Nat.dvd_add_self_right]
        using hwhole
  | case4 buf written hshort =>
    rw [rejChunks]
    · rcases buf with _ | ⟨a, _ | ⟨b, _ | ⟨c, buf⟩⟩⟩
      · rfl
      · exact absurd hwhole (by norm_num)
      · exact absurd hwhole (by norm_num)
      · exact absurd rfl (hshort a b c buf)
    · exact hshort

theorem rejUniform_r (r : List ℤ) (buf : List Cell) :
    (rejUniform r buf).r =
      (bufCandidates buf).take r.length ++ r.drop (bufCandidates buf).length := by
  have hwritten := rejChunks_written buf (List.length_nil.trans_le (Nat.zero_le r.length))
  rw [List.nil_append] at hwritten
  unfold rejUniform
  simp only [hwritten, List.length_take]
  rcases Nat.le_total (bufCandidates buf).length r.length with h | h
  · rw [min_eq_right h]
  · rw [min_eq_left h, List.drop_length, List.drop_eq_nil_of_le h]

theorem rejUniform_count (r : List ℤ) (buf : List Cell) :
    (rejUniform r buf).count = min r.length (bufCandidates buf).length := by
  have hwritten := rejChunks_written buf (List.length_nil.trans_le (Nat.zero_le r.length))
  rw [List.nil_append] at hwritten
  unfold rejUniform
  simp only [hwritten, List.length_take]
  omega

theorem rejUniform_used_isPrefix (r : List ℤ) (buf : List Cell) :
    (rejUniform r buf).used <+: buf :=
  rejChunks_used_isPrefix r.length [] buf

theorem rejUniform_used {r : List ℤ} {buf : List Cell}
    (hroom : (bufCandidates buf).length ≤ r.length) (hwhole : 3 ∣ buf.length) :
    (rejUniform r buf).used = buf :=
  rejChunks_used hroom hwhole

@[simp] theorem length_xofRead (stream : Stream) (position count : ℕ) :
    (xofRead stream position count).length = count := by
  simp [xofRead]

theorem xofRead_origin (stream : Stream) (count : ℕ) :
    (xofRead stream 0 count).map Cell.origin = (List.range count).map some := by
  simp [xofRead]

theorem origin_of_isPrefix {stream : Stream} {count : ℕ} {used : List Cell}
    (h : used <+: xofRead stream 0 count) :
    used.map Cell.origin = (List.range used.length).map some := by
  have hle := h.length_le
  rw [length_xofRead] at hle
  conv_lhs => rw [List.prefix_iff_eq_take.mp h]
  rw [List.map_take, xofRead_origin, ← List.map_take, List.take_range, min_eq_left hle]

theorem xofRead_succ (stream : Stream) (position count : ℕ) :
    xofRead stream position (count + 1) =
      ⟨stream position, some position⟩ :: xofRead stream (position + 1) count := by
  simp only [xofRead, List.range_succ_eq_map, List.map_cons, List.map_map, Nat.add_zero]
  congr 1
  apply List.map_congr_left
  intro k _
  simp only [Function.comp_apply, Nat.succ_eq_add_one]
  rw [Nat.add_right_comm, Nat.add_assoc position k 1]

theorem bufCandidates_xofRead (stream : Stream) (position chunks : ℕ) :
    bufCandidates (xofRead stream position (3 * chunks)) =
      (List.range chunks).flatMap fun k => chunkCandidates stream (position + 3 * k) := by
  induction chunks generalizing position with
  | zero => rfl
  | succ chunks ih =>
    have hshift (k : ℕ) : position + 1 + 1 + 1 + 3 * k = position + 3 * (k + 1) := by omega
    rw [show 3 * (chunks + 1) = 3 * chunks + 1 + 1 + 1 from rfl, xofRead_succ, xofRead_succ,
      xofRead_succ, bufCandidates, ih, List.range_succ_eq_map, List.flatMap_cons,
      List.flatMap_map]
    simp only [hshift]
    rfl

theorem bufCandidates_start (stream : Stream) :
    bufCandidates (xofRead stream 0 (genMatrixNblocks * xofBlockbytes)) =
      candidates stream firstChunks := by
  rw [show genMatrixNblocks * xofBlockbytes = 3 * firstChunks from rfl, bufCandidates_xofRead]
  simp only [Nat.zero_add]
  rfl

theorem startSampling_buf (stream : Stream) :
    (startSampling stream).buf = xofRead stream 0 (genMatrixNblocks * xofBlockbytes) ++
      [⟨0, none⟩, ⟨0, none⟩] := by
  unfold startSampling overwrite
  simp only [List.take_zero, List.nil_append, length_xofRead, Nat.zero_add, List.drop_replicate]
  rfl

theorem startSampling_eq (stream : Stream) :
    startSampling stream =
      let result := rejUniform (List.replicate N 0)
        (xofRead stream 0 (genMatrixNblocks * xofBlockbytes))
      ⟨result.r, result.count, xofRead stream 0 (genMatrixNblocks * xofBlockbytes) ++
        [⟨0, none⟩, ⟨0, none⟩], genMatrixNblocks * xofBlockbytes,
        genMatrixNblocks * xofBlockbytes, result.used⟩ := by
  have hbuf := startSampling_buf stream
  unfold startSampling at hbuf ⊢
  simp only at hbuf ⊢
  rw [hbuf, List.take_left' (length_xofRead ..)]

theorem startSampling_ctr (stream : Stream) :
    (startSampling stream).ctr = min N (candidates stream firstChunks).length := by
  rw [startSampling_eq, ← bufCandidates_start]
  simp only [rejUniform_count, List.length_replicate]

/-- With enough candidates in the first read the sample is complete. -/
theorem startSampling_sampled {stream : Stream}
    (h : N ≤ (candidates stream firstChunks).length) : Sampled stream (startSampling stream) := by
  constructor
  · refine ⟨firstChunks, h, ?_⟩
    rw [← bufCandidates_start] at h ⊢
    simp only [startSampling_eq, rejUniform_r, List.length_replicate]
    rw [List.drop_eq_nil_of_le (by rwa [List.length_replicate]), List.append_nil]
  · simp only [startSampling_eq]
    exact origin_of_isPrefix (rejUniform_used_isPrefix _ _)

/-- Without them every byte of the first read was looked at. -/
theorem startSampling_used {stream : Stream}
    (h : (candidates stream firstChunks).length < N) :
    (startSampling stream).used = xofRead stream 0 (genMatrixNblocks * xofBlockbytes) := by
  rw [← bufCandidates_start] at h
  simp only [startSampling_eq]
  apply rejUniform_used
  · rw [List.length_replicate]
    exact h.le
  · rw [length_xofRead]
    decide

theorem mem_accepted {val : ℕ} {x : ℤ} (hx : x ∈ accepted val) : 0 ≤ x ∧ x < Q := by
  unfold accepted at hx
  split_ifs at hx with hval
  · rw [List.mem_singleton] at hx
    omega
  · cases hx

theorem mem_bufCandidates {buf : List Cell} {x : ℤ} (hx : x ∈ bufCandidates buf) :
    0 ≤ x ∧ x < Q := by
  induction buf using bufCandidates.induct with
  | case1 a b c buf ih =>
    rw [bufCandidates, List.mem_append, List.mem_append] at hx
    rcases hx with (hx | hx) | hx
    · exact mem_accepted hx
    · exact mem_accepted hx
    · exact ih hx
  | case2 buf hshort =>
    rw [bufCandidates] at hx
    · cases hx
    · exact hshort

/-- As many coefficients as the matrix has places for, all of them below `Q`. -/
def Filled (room : ℕ) (a : List ℤ) : Prop := a.length = room ∧ ∀ x ∈ a, 0 ≤ x ∧ x < Q

theorem rejUniform_filled {r : List ℤ} (buf : List Cell) {room : ℕ} (hr : Filled room r) :
    Filled room (rejUniform r buf).r := by
  obtain ⟨hlength, hmem⟩ := hr
  rw [rejUniform_r]
  constructor
  · rw [List.length_append, List.length_take, List.length_drop]
    omega
  · intro x hx
    rcases List.mem_append.mp hx with hx | hx
    · exact mem_bufCandidates (List.mem_of_mem_take hx)
    · exact hmem x (List.mem_of_mem_drop hx)

theorem startSampling_filled (stream : Stream) : Filled N (startSampling stream).a := by
  refine rejUniform_filled _ ⟨List.length_replicate, fun x hx => ?_⟩
  rw [List.eq_of_mem_replicate hx]
  decide

theorem refill_filled {stream : Stream} {s : Sampling} (hs : Filled N s.a) :
    Filled N (refill stream s).a := by
  obtain ⟨hlength, hmem⟩ := hs
  have hrest : Filled (N - s.ctr) (s.a.drop s.ctr) :=
    ⟨by rw [List.length_drop, hlength], fun x hx => hmem x (List.mem_of_mem_drop hx)⟩
  unfold refill
  simp only
  generalize hbuf : (overwrite _ _ _).take _ = buf
  obtain ⟨hrlength, hrmem⟩ := rejUniform_filled buf hrest
  constructor
  · rw [List.length_append, List.length_take, hrlength]
    omega
  · intro x hx
    rcases List.mem_append.mp hx with hx | hx
    · exact hmem x (List.mem_of_mem_take hx)
    · exact hrmem x hx

theorem sampleLoop_filled {stream : Stream} {rounds : ℕ} {s s' : Sampling} (hs : Filled N s.a)
    (h : sampleLoop stream rounds s = some s') : Filled N s'.a := by
  induction rounds generalizing s with
  | zero =>
    rw [sampleLoop] at h
    split_ifs at h
    cases h
    exact hs
  | succ rounds ih =>
    rw [sampleLoop] at h
    split_ifs at h
    · exact ih (refill_filled hs) h
    · cases h
      exact hs

theorem sampleLoop_used {stream : Stream} {rounds : ℕ} {s s' : Sampling}
    (h : sampleLoop stream rounds s = some s') : s.used <+: s'.used := by
  induction rounds generalizing s with
  | zero =>
    rw [sampleLoop] at h
    split_ifs at h
    cases h
    exact List.prefix_rfl
  | succ rounds ih =>
    rw [sampleLoop] at h
    split_ifs at h
    · exact (List.prefix_append s.used _).trans (ih h)
    · cases h
      exact List.prefix_rfl

/-- The first refill replaces the first byte of the buffer only, so that its first chunk
has bytes in it that were already looked at. -/
theorem refill_used (stream : Stream) :
    ∃ first last : Cell, (startSampling stream).used ++ [first, ⟨stream 1, some 1⟩, last] <+:
      (refill stream (startSampling stream)).used := by
  have hbuf : (startSampling stream).buf =
      ⟨stream 0, some 0⟩ :: ⟨stream 1, some 1⟩ :: ⟨stream 2, some 2⟩ ::
        (xofRead stream 3 501 ++ [⟨0, none⟩, ⟨0, none⟩]) := by
    rw [startSampling_buf, show genMatrixNblocks * xofBlockbytes = 501 + 1 + 1 + 1 from rfl,
      xofRead_succ, xofRead_succ, xofRead_succ]
    rfl
  refine ⟨⟨stream 504, some 504⟩, ⟨stream 2, some 2⟩, ?_⟩
  have hoff : (startSampling stream).buflen % 3 = 0 := by
    rw [show (startSampling stream).buflen = genMatrixNblocks * xofBlockbytes from rfl]
    decide
  have hread : xofRead stream (startSampling stream).position 1 = [⟨stream 504, some 504⟩] := rfl
  unfold refill
  simp only [hoff, hread, hbuf, forTo, overwrite, List.take_zero, List.nil_append, Nat.zero_add,
    List.length_singleton, List.drop_one, List.tail_cons, List.singleton_append, xofBlockbytes,
    List.take_succ_cons]
  apply (List.prefix_append_right_inj _).mpr
  exact rejChunks_first _ _ _ _ _

theorem samplePoly_used {stream : Stream} {rounds : ℕ} {s : Sampling}
    (h : (candidates stream firstChunks).length < N) (hs : samplePoly stream rounds = some s) :
    s.used.map Cell.origin ≠ (List.range s.used.length).map some := by
  have hctr : (startSampling stream).ctr < N := by
    rw [startSampling_ctr]
    exact min_lt_of_right_lt h
  unfold samplePoly at hs
  cases rounds with
  | zero =>
    rw [sampleLoop, if_pos hctr] at hs
    cases hs
  | succ rounds =>
    rw [sampleLoop, if_pos hctr] at hs
    obtain ⟨first, last, hrefill⟩ := refill_used stream
    obtain ⟨rest, hrest⟩ := hrefill.trans (sampleLoop_used hs)
    -- the byte looked at in the place after the one just read is not the one due there
    intro honce
    have hlen : (startSampling stream).used.length = 504 := by
      rw [startSampling_used h, length_xofRead]
      rfl
    have hat : s.used[505]? = some ⟨stream 1, some 1⟩ := by
      rw [← hrest, List.append_assoc, List.getElem?_append_right (by omega), hlen]
      rfl
    have hdue := congrArg (fun l => l[505]?) honce
    obtain ⟨hlt, -⟩ := List.getElem?_eq_some_iff.mp hat
    simp only [List.getElem?_map, hat, List.getElem?_range hlt, Option.map_some] at hdue
    cases hdue

theorem samplePoly_sampled {stream : Stream} (rounds : ℕ)
    (h : N ≤ (candidates stream firstChunks).length) :
    samplePoly stream rounds = some (startSampling stream) := by
  have hfull : ¬ (startSampling stream).ctr < N := by
    rw [startSampling_ctr, min_eq_left h]
    exact lt_irrefl N
  unfold samplePoly
  cases rounds with
  | zero => rw [sampleLoop, if_neg hfull]
  | succ rounds => rw [sampleLoop, if_neg hfull]

theorem mapM_range_entry {β : Type} {f : ℕ → Option β} {n i : ℕ} {l : List β}
    (h : (List.range n).mapM f = some l) (hi : i < n) : f i = l[i]? ∧ i < l.length := by
  have hentry := congrArg (fun l => l[i]?) (mapM_eq_some_iff.mp h)
  simp only [List.getElem?_map, List.getElem?_range hi, Option.map_some] at hentry
  cases hl : l[i]? with
  | none =>
    rw [hl] at hentry
    cases hentry
  | some b =>
    rw [hl, Option.map_some, Option.some_inj] at hentry
    exact ⟨hentry, (List.getElem?_eq_some_iff.mp hl).1⟩

/-- Whatever the streams are, the matrix has values below `Q`. -/
theorem genMatrix_filled {xof : List UInt8 → Stream} {rounds : ℕ} {seed : List UInt8}
    {transposed : Bool} {matrix : List (List Poly)}
    (h : genMatrix xof rounds seed transposed = some matrix) :
    matrix.length = K ∧ ∀ row ∈ matrix, row.length = K ∧ ∀ a ∈ row, Filled N a := by
  obtain ⟨run, hrun, rfl⟩ := Option.map_eq_some_iff.mp h
  refine ⟨by rw [List.length_map, length_of_mapM hrun, List.length_range], ?_⟩
  intro row hrow
  obtain ⟨samplings, hsamplings, rfl⟩ := List.mem_map.mp hrow
  obtain ⟨i, -, hrowrun⟩ := exists_of_mapM hrun hsamplings
  refine ⟨by rw [List.length_map, length_of_mapM hrowrun, List.length_range], ?_⟩
  intro a ha
  obtain ⟨s, hs, rfl⟩ := List.mem_map.mp ha
  obtain ⟨j, -, hsample⟩ := exists_of_mapM hrowrun hs
  exact sampleLoop_filled (startSampling_filled _) hsample

/-- What the run has at each position. -/
theorem runMatrix_entry {xof : List UInt8 → Stream} {rounds : ℕ} {seed : List UInt8}
    {transposed : Bool} {run : List (List Sampling)}
    (hrun : runMatrix xof rounds seed transposed = some run) {i j : ℕ} (hi : i < K) (hj : j < K) :
    (run.getD i [])[j]? = samplePoly (positionStream xof seed transposed i j) rounds := by
  obtain ⟨hrow, hlt⟩ := mapM_range_entry hrun hi
  rw [List.getD_eq_getElem?_getD, List.getElem?_eq_getElem hlt, Option.getD_some]
  rw [List.getElem?_eq_getElem hlt] at hrow
  exact (mapM_range_entry hrow hj).1.symm

/-- The expansion is right exactly where no position has to refill its buffer. -/
theorem genMatrix_samples_iff (xof : List UInt8 → Stream) (seed : List UInt8)
    (transposed : Bool) :
    Expands xof seed transposed ↔ ∀ i < K, ∀ j < K,
      N ≤ (candidates (positionStream xof seed transposed i j) firstChunks).length := by
  constructor
  · rintro ⟨rounds, run, hrun, -, hsampled⟩ i hi j hj
    by_contra hfew
    obtain ⟨s, hs, hsample⟩ := hsampled i hi j hj
    rw [runMatrix_entry hrun hi hj] at hs
    exact samplePoly_used (Nat.lt_of_not_le hfew) hs hsample.once
  · intro h
    have hrun : runMatrix xof 0 seed transposed = some ((List.range K).map fun i =>
        (List.range K).map fun j => startSampling (positionStream xof seed transposed i j)) := by
      apply mapM_eq_some_iff.mpr
      rw [List.map_map]
      apply List.map_congr_left
      intro i hi
      apply mapM_eq_some_iff.mpr
      rw [List.map_map]
      apply List.map_congr_left
      intro j hj
      exact samplePoly_sampled 0 (h i (List.mem_range.mp hi) j (List.mem_range.mp hj))
    refine ⟨0, _, hrun, by rw [genMatrix, hrun, Option.map_some], ?_⟩
    intro i hi j hj
    refine ⟨_, ?_, startSampling_sampled (h i hi j hj)⟩
    rw [runMatrix_entry hrun hi hj, samplePoly_sampled 0 (h i hi j hj)]

/-- 254 candidates in the first 127 chunks and none in the rest of the first read. -/
def shortStream : Stream := fun n => if n < 381 then 0 else if n < 504 then 255 else 1

/-- What is due in the last two places, and what the refilled buffer puts there. -/
example : (candidates shortStream 169).drop 254 = [257, 16] ∧
    (samplePoly shortStream 1).map (fun s => s.a.drop 254) = some [1, 0] := by
  decide +kernel

/-- The next chunk of the stream has the two candidates that are missing. -/
theorem genMatrix_refills_wrongly :
    ¬ ∀ (xof : List UInt8 → Stream) (seed : List UInt8) (transposed : Bool),
      (∀ i < K, ∀ j < K, ∃ chunks,
        N ≤ (candidates (positionStream xof seed transposed i j) chunks).length) →
      Expands xof seed transposed := by
  intro h
  have henough : N ≤ (candidates shortStream 169).length := by decide +kernel
  obtain ⟨rounds, run, hrun, -, hsampled⟩ :=
    h (fun _ => shortStream) (List.replicate 32 0) false fun i _ j _ => ⟨169, henough⟩
  obtain ⟨s, hs, hsample⟩ := hsampled 0 (by decide) 0 (by decide)
  rw [runMatrix_entry hrun (by decide) (by decide)] at hs
  exact samplePoly_used (show (candidates shortStream firstChunks).length < N by decide +kernel)
    hs hsample.once

end OrionNetwork.Kyber
