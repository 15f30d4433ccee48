import OrionNetwork.Codec
import OrionNetwork.FecCode

/-!
# The vector kernels of the field

With vector instructions a slice is multiplied a vector at a time. A product with a
fixed factor is looked up by the two halves of the other byte in tables of sixteen
entries and added up, which is what a product is, since multiplication distributes over
exclusive or. The part of a slice that does not fill a vector is left to the plain code.
Bytes are words of eight bits here and elements of the field in the proofs.
-/
namespace OrionNetwork.Galois
open Codec Loops

/-- A table of two indices with one entry replaced. -/
def setEntry (table : ℕ → ℕ → ℕ) (a b value : ℕ) : ℕ → ℕ → ℕ :=
  Function.update table a (Function.update (table a) b value)

def genMulTable (logTable expTable : ℕ → ℕ) : ℕ → ℕ → ℕ :=
  forTo (fun a result =>
      forTo (fun b result => setEntry result a b (multiply logTable expTable a b))
        fieldSize result)
    fieldSize fun _ _ => 0

/-- One round of `gen_mul_table_half`. -/
def halfRound (logTable expTable : ℕ → ℕ) (a b : ℕ) (tables : (ℕ → ℕ → ℕ) × (ℕ → ℕ → ℕ)) :
    (ℕ → ℕ → ℕ) × (ℕ → ℕ → ℕ) :=
  let result := if ¬(a = 0 ∨ b = 0) then expTable (logTable a + logTable b) else 0
  let low := if b &&& 0x0F = b then setEntry tables.1 a b result else tables.1
  let high := if b &&& 0xF0 = b then setEntry tables.2 a (b >>> 4) result else tables.2
  (low, high)

/-- The products with a byte whose upper or lower half is empty. -/
def genMulTableHalf (logTable expTable : ℕ → ℕ) : (ℕ → ℕ → ℕ) × (ℕ → ℕ → ℕ) :=
  forTo (fun a tables => forTo (halfRound logTable expTable a) fieldSize tables)
    fieldSize (fun _ _ => 0, fun _ _ => 0)

def mulTable : ℕ → ℕ → ℕ := genMulTable logTable expTable

def mulTableLow : ℕ → ℕ → ℕ := (genMulTableHalf logTable expTable).1

def mulTableHigh : ℕ → ℕ → ℕ := (genMulTableHalf logTable expTable).2

/-- The entries for one factor. -/
def tableRow (table : ℕ → ℕ → ℕ) (size : ℕ) (c : UInt8) : Bytes :=
  (List.range size).map fun b => UInt8.ofNat (table c.toNat b)

inductive TargetFeature where
  | avx2
  | ssse3
  | simd128
  deriving DecidableEq

def TargetFeature.lanes : TargetFeature → ℕ
  | .avx2 => 32
  | .ssse3 | .simd128 => 16

section Kernels

variable (target : TargetFeature)

/-- Indices that are out of bounds select zero. -/
def swizzleDyn (vector indices : Bytes) : Bytes := indices.map fun i => vector.getD i.toNat 0

/-- The table of sixteen entries, as often as it fits. -/
def splatTable (table : ℕ → ℕ → ℕ) (c : UInt8) : Bytes :=
  (List.replicate (target.lanes / 16) (tableRow table 16 c)).flatten

/-- `os ^ low.swizzle_dyn(is & mask) ^ high.swizzle_dyn((is >> 4) & mask)` -/
def kernel (c : UInt8) (is os : Bytes) : Bytes :=
  List.zipWith (· ^^^ ·)
    (List.zipWith (· ^^^ ·) os (swizzleDyn (splatTable target mulTableLow c) (is.map (· &&& 0xf))))
    (swizzleDyn (splatTable target mulTableHigh c) (is.map fun i : UInt8 => (i >>> 4) &&& 0xf))

/-- The vectors of two slices, one after the other, and then what does not fill a vector. -/
def overChunks (body remainder : Bytes → Bytes → Bytes) : ℕ → Bytes → Bytes → Bytes
  | 0, input, out => remainder input out
  | n + 1, input, out =>
    body (input.take target.lanes) (out.take target.lanes) ++
      overChunks body remainder n (input.drop target.lanes) (out.drop target.lanes)

end Kernels

/-- `*o ^= mt[*i as usize]` for all of the two slices. -/
def xorRow (c : UInt8) (input out : Bytes) : Bytes :=
  List.zipWith (fun i o => o ^^^ UInt8.ofNat (mulTable c.toNat i.toNat)) input out

/-- Slices of different lengths panic. -/
def mulSliceXorLow (c : UInt8) (input out : Bytes) : Option Bytes :=
  if input.length ≠ out.length then none else some (xorRow c input out)

def mulSliceInPlaceLow (c : UInt8) (out : Bytes) : Bytes :=
  out.map fun o => UInt8.ofNat (mulTable c.toNat o.toNat)

/-- With vector instructions. The remainders have one length if the slices have. -/
def mulSliceXor (target : TargetFeature) (c : UInt8) (input out : Bytes) : Option Bytes :=
  if input.length ≠ out.length then none
  else some (overChunks target (kernel target c) (xorRow c)
    (out.length / target.lanes) input out)

/-- With vector instructions. What was in the slice is added, as in the other kernel. -/
def mulSliceInPlace (target : TargetFeature) (c : UInt8) (out : Bytes) : Bytes :=
  overChunks target (fun _ os => kernel target c os os) (fun _ out => mulSliceInPlaceLow c out)
    (out.length / target.lanes) out out

section Tables

theorem setEntry_self (table : ℕ → ℕ → ℕ) (a b value : ℕ) :
    setEntry table a b value a b = value := by
  rw [setEntry, Function.update_self, Function.update_self]

theorem setEntry_of_ne {table : ℕ → ℕ → ℕ} {a b value a' b' : ℕ} (h : a' ≠ a ∨ b' ≠ b) :
    setEntry table a b value a' b' = table a' b' := by
  unfold setEntry
  by_cases ha : a' = a
  · subst ha
    rw [Function.update_self, Function.update_of_ne (h.resolve_left (not_not.mpr rfl))]
  · rw [Function.update_of_ne ha]

/-- An entry that one round of a loop over rows and columns writes. -/
theorem forTo_entry {σ : Type*} {f : ℕ → ℕ → σ → σ} {m n a b : ℕ} (ha : a < m) (hb : b < n)
    (get : σ → ℕ) {v : ℕ} (hwrite : ∀ t, get (f a b t) = v)
    (hkeep : ∀ a' b', b' < n → a' ≠ a ∨ b' ≠ b → ∀ t, get (f a' b' t) = get t) (s : σ) :
    get (forTo (fun a t => forTo (f a) n t) m s) = v := by
  refine forTo_write ha get ?_ ?_ s
  · intro t
    exact forTo_write hb get hwrite (fun b' hb' hne => hkeep a b' hb' (.inr hne)) t
  · intro a' _ hne t
    exact forTo_keep get (fun b' hb' => hkeep a' b' hb' (.inl hne)) t

theorem mulTable_eq {a b : ℕ} (ha : a < 256) (hb : b < 256) :
    mulTable a b = multiply logTable expTable a b := by
  refine forTo_entry (m := 256) (n := 256)
    (f := fun a b result => setEntry result a b (multiply logTable expTable a b)) ha hb
    (fun table => table a b) ?_ ?_ _
  · intro t
    exact setEntry_self t a b _
  · intro a' b' _ hne t
    exact setEntry_of_ne (hne.imp Ne.symm Ne.symm)

theorem product_eq (a b : ℕ) :
    (if ¬(a = 0 ∨ b = 0) then expTable (logTable a + logTable b) else 0) =
      multiply logTable expTable a b := by
  rw [multiply, ite_not]

theorem mulTableLow_eq {a b : ℕ} (ha : a < 256) (hb : b < 16) :
    mulTableLow a b = multiply logTable expTable a b := by
  have hlow : b &&& 0x0F = b := by
    revert b
    decide
  refine forTo_entry (m := 256) (n := 256) (f := halfRound logTable expTable) ha
    (show b < 256 by omega) (fun tables => tables.1 a b) ?_ ?_ _
  · intro t
    simp only [halfRound, if_pos hlow, product_eq]
    exact setEntry_self t.1 a b _
  · intro a' b' _ hne t
    simp only [halfRound, product_eq]
    split_ifs
    · exact setEntry_of_ne (hne.imp Ne.symm Ne.symm)
    · rfl

/-- The entries of the upper halves are written in every sixteenth round. -/
theorem mulTableHigh_eq {a b : ℕ} (ha : a < 256) (hb : b < 16) :
    mulTableHigh a b = multiply logTable expTable a (16 * b) := by
  have hhigh : (16 * b) &&& 0xF0 = 16 * b ∧ (16 * b) >>> 4 = b := by
    revert b
    decide
  have hother : ∀ b' < 256, b' &&& 0xF0 = b' → b' >>> 4 = b → b' = 16 * b := by
    clear ha hhigh
    revert b
    decide +kernel
  refine forTo_entry (m := 256) (n := 256) (f := halfRound logTable expTable) ha
    (show 16 * b < 256 by omega) (fun tables => tables.2 a b) ?_ ?_ _
  · intro t
    simp only [halfRound, if_pos hhigh.1, hhigh.2, product_eq]
    exact setEntry_self t.2 a b _
  · intro a' b' hb' hne t
    simp only [halfRound, product_eq]
    split_ifs with hmultiple
    · apply setEntry_of_ne
      rcases hne with hne | hne
      · exact .inl hne.symm
      · exact .inr fun heq => hne (hother b' hb' hmultiple heq.symm)
    · rfl

end Tables

/-- A byte as an element of the field. -/
def Gf.ofByte (b : UInt8) : Gf := b

/-- The entry of the table of products. -/
def mulEntry (c x : UInt8) : UInt8 := UInt8.ofNat (mulTable c.toNat x.toNat)

section Bytes

variable (target : TargetFeature) (c : UInt8)

theorem Gf.ofNat_multiply {n : ℕ} (hn : n < 256) :
    Gf.ofNat (multiply logTable expTable c.toNat n) = Gf.ofByte c * Gf.ofNat n := by
  change _ = Gf.ofNat (multiply logTable expTable (Gf.ofByte c).toNat (Gf.ofNat n).toNat)
  rw [Gf.toNat_ofNat hn]
  rfl

theorem ofByte_mulEntry (x : UInt8) : Gf.ofByte (mulEntry c x) = Gf.ofByte c * Gf.ofByte x := by
  change Gf.ofNat (mulTable c.toNat x.toNat) = _
  rw [mulTable_eq c.toNat_lt x.toNat_lt]
  rfl

theorem halves_xor : ∀ x < 256, (x &&& 15) ^^^ 16 * ((x >>> 4) &&& 15) = x := by
  decide +kernel

/-- A product is the sum of the products with the two halves. -/
theorem mulTable_halves (x : UInt8) :
    UInt8.ofNat (mulTableLow c.toNat (x &&& 0xf).toNat) ^^^
      UInt8.ofNat (mulTableHigh c.toNat ((x >>> 4) &&& 0xf).toNat) = mulEntry c x := by
  have hlow : (x &&& 0xf).toNat = x.toNat &&& 15 := UInt8.toNat_and x 0xf
  have hhigh : ((x >>> 4) &&& 0xf).toNat = (x.toNat >>> 4) &&& 15 := by
    rw [UInt8.toNat_and, UInt8.toNat_shiftRight]
    rfl
  have hlow' : x.toNat &&& 15 < 16 := Nat.and_lt_two_pow (n := 4) _ (by decide)
  have hhigh' : (x.toNat >>> 4) &&& 15 < 16 := Nat.and_lt_two_pow (n := 4) _ (by decide)
  have hsum : Gf.ofNat (x.toNat &&& 15) + Gf.ofNat (16 * ((x.toNat >>> 4) &&& 15)) =
      Gf.ofByte x := by
    apply Gf.ext
    rw [Gf.toNat_add, Gf.toNat_ofNat (by omega), Gf.toNat_ofNat (by omega)]
    exact halves_xor x.toNat x.toNat_lt
  rw [hlow, hhigh, mulTableLow_eq c.toNat_lt hlow', mulTableHigh_eq c.toNat_lt hhigh']
  change Gf.ofNat _ + Gf.ofNat _ = Gf.ofByte (mulEntry c x)
  rw [Gf.ofNat_multiply c (by omega), Gf.ofNat_multiply c (by omega), ← mul_add, hsum,
    ofByte_mulEntry]

theorem getD_tableRow (table : ℕ → ℕ → ℕ) {i : ℕ} (hi : i < 16) (rest : Bytes) :
    (tableRow table 16 c ++ rest).getD i 0 = UInt8.ofNat (table c.toNat i) := by
  have hlength : (tableRow table 16 c).length = 16 := by
    rw [tableRow, List.length_map, List.length_range]
  rw [List.getD_append _ _ _ _ (by rw [hlength]; exact hi), List.getD_eq_getElem _ _ (by omega)]
  simp only [tableRow, List.getElem_map, List.getElem_range]

theorem getD_splatTable (table : ℕ → ℕ → ℕ) {i : ℕ} (hi : i < 16) :
    (splatTable target table c).getD i 0 = UInt8.ofNat (table c.toNat i) := by
  cases target with
  | avx2 => exact getD_tableRow c table hi _
  | ssse3 => exact getD_tableRow c table hi _
  | simd128 => exact getD_tableRow c table hi _

theorem kernel_eq {is os : Bytes} (h : is.length = os.length) :
    kernel target c is os = xorRow c is os := by
  induction is generalizing os with
  | nil =>
    rw [List.length_eq_zero_iff.mp h.symm]
    rfl
  | cons i is ih =>
    cases os with
    | nil => cases h
    | cons o os =>
      have hrest := ih (Nat.succ.inj h)
      have hlow : (i &&& 0xf).toNat < 16 := by
        rw [UInt8.toNat_and]
        exact Nat.and_lt_two_pow (n := 4) _ (by decide)
      have hhigh : ((i >>> 4) &&& 0xf).toNat < 16 := by
        rw [UInt8.toNat_and]
        exact Nat.and_lt_two_pow (n := 4) _ (by decide)
      simp only [kernel, swizzleDyn, xorRow, List.map_cons, List.zipWith_cons_cons] at hrest ⊢
      rw [hrest, getD_splatTable target c _ hlow, getD_splatTable target c _ hhigh, UInt8.xor_assoc,
        mulTable_halves]
      rfl

/-- Vectors that are worked on lane by lane. -/
theorem overChunks_zipWith {f : UInt8 → UInt8 → UInt8} {body : Bytes → Bytes → Bytes}
    (remainder : Bytes → Bytes → Bytes)
    (hbody : ∀ is os : Bytes, is.length = os.length → body is os = List.zipWith f is os) (n : ℕ)
    {input out : Bytes} (h : input.length = out.length) :
    overChunks target body remainder n input out =
      List.zipWith f (input.take (n * target.lanes)) (out.take (n * target.lanes)) ++
        remainder (input.drop (n * target.lanes)) (out.drop (n * target.lanes)) := by
  induction n generalizing input out with
  | zero => simp [overChunks]
  | succ n ih =>
    have hfirst : (input.take target.lanes).length = (out.take target.lanes).length := by
      rw [List.length_take, List.length_take, h]
    have hrest : (input.drop target.lanes).length = (out.drop target.lanes).length := by
      rw [List.length_drop, List.length_drop, h]
    rw [overChunks, hbody _ _ hfirst, ih hrest, Nat.succ_mul, Nat.add_comm, List.take_add,
      List.take_add, List.zipWith_append hfirst, List.append_assoc, List.drop_drop, List.drop_drop]

/-- The kernel that adds multiples computes what the plain one does. -/
theorem mulSliceXor_eq (input out : Bytes) :
    mulSliceXor target c input out = mulSliceXorLow c input out := by
  unfold mulSliceXor mulSliceXorLow
  by_cases h : input.length = out.length
  · rw [if_neg (not_not.mpr h), if_neg (not_not.mpr h),
      overChunks_zipWith target _ (fun is os hlength => kernel_eq target c hlength) _ h]
    have htake : (input.take (out.length / target.lanes * target.lanes)).length =
        (out.take (out.length / target.lanes * target.lanes)).length := by
      rw [List.length_take, List.length_take, h]
    rw [xorRow, ← List.zipWith_append htake, List.take_append_drop, List.take_append_drop]
    rfl
  · rw [if_pos h, if_pos h]

/-- The part of a slice that fills vectors. -/
def filled (slice : Bytes) : Bytes := slice.take (slice.length / target.lanes * target.lanes)

theorem mulSliceInPlace_eq (slice : Bytes) : mulSliceInPlace target c slice =
    (filled target slice).map (fun o => o ^^^ mulEntry c o) ++
      mulSliceInPlaceLow c (slice.drop (slice.length / target.lanes * target.lanes)) := by
  have hbody : ∀ is os : Bytes, is.length = os.length →
      kernel target c os os = List.zipWith (fun _ o => o ^^^ mulEntry c o) is os := by
    intro is os hlength
    rw [kernel_eq target c rfl, xorRow, List.zipWith_self]
    apply List.ext_getElem
    · simp [hlength]
    · intro i _ _
      simp [mulEntry]
  rw [mulSliceInPlace, overChunks_zipWith target _ hbody _ rfl, List.zipWith_self]
  rfl

theorem xor_mulEntry_iff (o : UInt8) : o ^^^ mulEntry c o = mulEntry c o ↔ o = 0 := by
  change Gf.ofByte o + Gf.ofByte (mulEntry c o) = Gf.ofByte (mulEntry c o) ↔ Gf.ofByte o = 0
  exact add_eq_right

end Bytes

/-- The kernels compute the same with vector instructions as without, exactly if the part of
the slice that is multiplied in place in vectors holds nothing but zeros. -/
theorem kernels_agree_iff (target : TargetFeature) (c : UInt8) (input out slice : Bytes) :
    (mulSliceXor target c input out = mulSliceXorLow c input out ∧
        mulSliceInPlace target c slice = mulSliceInPlaceLow c slice) ↔
      ∀ b ∈ slice.take (slice.length / target.lanes * target.lanes), b = 0 := by
  have hplain : mulSliceInPlaceLow c slice = (filled target slice).map (mulEntry c) ++
      mulSliceInPlaceLow c (slice.drop (slice.length / target.lanes * target.lanes)) := by
    have hslice := List.take_append_drop (slice.length / target.lanes * target.lanes) slice
    nth_rewrite 1 [← hslice]
    exact List.map_append
  rw [mulSliceInPlace_eq, hplain, List.append_left_inj, List.map_inj_left]
  constructor
  · rintro ⟨-, hsame⟩ b hb
    exact (xor_mulEntry_iff c b).mp (hsame b hb)
  · intro hzero
    refine ⟨mulSliceXor_eq target c input out, ?_⟩
    intro b hb
    exact (xor_mulEntry_iff c b).mpr (hzero b hb)

/-- Ones times one are zeros in a vector. -/
theorem mulSliceInPlace_ones :
    mulSliceInPlace .ssse3 1 (List.replicate 16 1) = List.replicate 16 0 ∧
      mulSliceInPlaceLow 1 (List.replicate 16 1) = List.replicate 16 1 := by
  have hone : mulEntry 1 1 = 1 := by
    change Gf.ofByte (mulEntry 1 1) = 1
    rw [ofByte_mulEntry]
    exact one_mul 1
  constructor
  · rw [mulSliceInPlace_eq]
    change List.replicate 16 (1 ^^^ mulEntry 1 1) ++ [] = _
    rw [hone]
    rfl
  · change List.replicate 16 (mulEntry 1 1) = _
    rw [hone]

/-- The erasure code adds multiples of slices with this kernel. -/
theorem map_xorRow (c : UInt8) (input out : Bytes) :
    (xorRow c input out).map Gf.ofByte =
      Fec.mulSliceXor (Gf.ofByte c) (input.map Gf.ofByte) (out.map Gf.ofByte) := by
  rw [xorRow, Fec.mulSliceXor, List.map_zipWith, List.zipWith_map]
  congr
  funext i o
  rw [← ofByte_mulEntry]
  rfl

end OrionNetwork.Galois
