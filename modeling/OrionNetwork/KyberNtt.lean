import OrionNetwork.KyberReduction
import OrionNetwork.PolynomialHalves

/-!
# Multiplication of Kyber polynomials

The transform splits a polynomial modulo `X ^ 256 + 1` into residues modulo quadratic
polynomials, layer by layer, with the roots of a table in the order in which the layers
need them. Products are taken there, and the inverse transform puts the residues
together again with the table read backwards.
-/
namespace OrionNetwork.Kyber

open CheckedIntegers Polynomial PolynomialHalves

def zetas : List ℤ :=
  [-1044, -758, -359, -1517, 1493, 1422, 287, 202, -171, 622, 1577, 182, 962, -1202, -1474, 1468,
    573, -1325, 264, 383, -829, 1458, -1602, -130, -681, 1017, 732, 608, -1542, 411, -205, -1571,
    1223, 652, -552, 1015, -1293, 1491, -282, -1544, 516, -8, -320, -666, -1618, -1162, 126,
    1469, -853, -90, -271, 830, 107, -1421, -247, -951, -398, 961, -1508, -725, 448, -1065, 677,
    -1275, -1103, 430, 555, 843, -1251, 871, 1550, 105, 422, 587, 177, -235, -291, -460, 1574,
    1653, -246, 778, 1159, -147, -777, 1483, -602, 1119, -1590, 644, -872, 349, 418, 329, -156,
    -75, 817, 1097, 603, 610, 1322, -1285, -1465, 384, -1215, -136, 1218, -1335, -874, 220,
    -1187, -1659, -1185, -1530, -1278, 794, -1510, -854, -870, 478, -108, -308, 996, 991, 958,
    -1460, 1522, 1628]

/-- `zetas.next().unwrap()`. -/
def next : List ℤ → Except Trap (ℤ × List ℤ)
  | [] => .error .exhausted
  | zeta :: zetas => .ok (zeta, zetas)

def chunksFrom (size : ℕ) : ℕ → List ℤ → List (List ℤ)
  | 0, _ => []
  | count + 1, l => l.take size :: chunksFrom size count (l.drop size)

def chunksExact (size : ℕ) (l : List ℤ) : List (List ℤ) := chunksFrom size (l.length / size) l

/-- `chunk.split_at_mut(len)` and a step on each pair from the two halves. -/
def overHalves (pair : ℤ → ℤ → Except Trap (ℤ × ℤ)) (len : ℕ) (chunk : List ℤ) :
    Except Trap (List ℤ) := do
  let pairs ← ((chunk.take len).zip (chunk.drop len)).mapM fun p => pair p.1 p.2
  return pairs.map Prod.fst ++ pairs.map Prod.snd

/-- A step on each chunk, with the next root of the table. -/
def overChunks (step : ℤ → List ℤ → Except Trap (List ℤ)) :
    List (List ℤ) → List ℤ → Except Trap (List ℤ × List ℤ)
  | [], zetas => return ([], zetas)
  | chunk :: chunks, zetas => do
    let (zeta, zetas) ← next zetas
    let chunk ← step zeta chunk
    let (rest, zetas) ← overChunks step chunks zetas
    return (chunk ++ rest, zetas)

/-- The body of the loop over `len`. -/
def layer (pair : ℤ → ℤ → ℤ → Except Trap (ℤ × ℤ)) (s : Poly × List ℤ) (len : ℕ) :
    Except Trap (Poly × List ℤ) :=
  overChunks (fun zeta => overHalves (pair zeta) len) (chunksExact (len * 2) s.1) s.2

def nttPair (zeta l r : ℤ) : Except Trap (ℤ × ℤ) := do
  let t ← fqmul zeta r
  let r ← i16.sub l t
  let l ← i16.add l t
  return (l, r)

def ntt (inout : Poly) : Except Trap Poly := do
  let s ← ((List.range 7).reverse.map (2 <<< ·)).foldlM (layer nttPair) (inout, zetas.drop 1)
  return s.1

def invnttPair (zeta l r : ℤ) : Except Trap (ℤ × ℤ) := do
  let t := l
  let sum ← i16.add t r
  let l ← Barrett.reduce sum
  let r ← i16.sub r t
  let r ← fqmul zeta r
  return (l, r)

def invntt (inout : Poly) : Except Trap Poly := do
  let s ← ((List.range 7).map (2 <<< ·)).foldlM (layer invnttPair) (inout, zetas.reverse)
  s.1.mapM fun r => fqmul r 1441

def basemul (a0 a1 b0 b1 zeta : ℤ) : Except Trap (List ℤ) := do
  let r0 ← fqmul a1 b1
  let r0 ← fqmul r0 zeta
  let product ← fqmul a0 b0
  let r0 ← i16.add r0 product
  let r1 ← fqmul a0 b1
  let product ← fqmul a1 b0
  let r1 ← i16.add r1 product
  return [r0, r1]

namespace Poly

/-- The functions of `poly.rs`. -/
def reduce (inout : Poly) : Except Trap Poly := inout.mapM Barrett.reduce

def ntt (inout : Poly) : Except Trap Poly := do
  let inout ← Kyber.ntt inout
  reduce inout

def invnttTomont (inout : Poly) : Except Trap Poly := Kyber.invntt inout

/-- The loop of `basemul_montgomery` over the second half of the table. -/
def basemulLoop : List ℤ → Poly → Poly → Except Trap Poly
  | zeta :: zetas, a0 :: a1 :: a2 :: a3 :: a, b0 :: b1 :: b2 :: b3 :: b => do
    let ra ← basemul a0 a1 b0 b1 zeta
    let zetaNeg ← i16.neg zeta
    let rb ← basemul a2 a3 b2 b3 zetaNeg
    let rest ← basemulLoop zetas a b
    return ra ++ rb ++ rest
  | _, _, _ => return []

def basemulMontgomery (a b : Poly) : Except Trap Poly := basemulLoop (zetas.drop 64) a b

end Poly

/-- The residues modulo `Q`. -/
abbrev Zq := ZMod 3329

/-- What multiplication with a value of the table comes to. -/
def root (zeta : ℤ) : Zq := zeta * 169

/-- The roots for the chunks of one layer. -/
def layerZetas (i : ℕ) : List ℤ := (zetas.drop (2 ^ i)).take (2 ^ i)

/-- The constants of the moduli `X ^ m - γ` after so many layers. -/
def moduli : ℕ → List Zq
  | 0 => [-1]
  | i + 1 => halve ((layerZetas i).map root)

theorem moduli_square : ∀ i < 7, moduli i = (layerZetas i).map fun z => root z * root z := by
  decide +kernel

/-- Backwards, the table has the negated inverses of the roots. -/
theorem zetas_reverse : ∀ i < 7, List.Forall₂ (fun zeta z => -root zeta * root z = 1)
    (layerZetas i).reverse (layerZetas i) := by
  decide +kernel

/-- The root iterators deliver the roots of one layer after those of the layer before. -/
theorem zetas_drop : ∀ i < 7, zetas.drop (2 ^ i) = layerZetas i ++ zetas.drop (2 ^ (i + 1)) := by
  decide +kernel

theorem zetas_reverse_drop : ∀ i < 7, zetas.reverse.drop (128 - 2 ^ (7 - i)) =
    (layerZetas (6 - i)).reverse ++ zetas.reverse.drop (128 - 2 ^ (6 - i)) := by
  decide +kernel

theorem zetas_within : ∀ zeta ∈ zetas, Within 1664 zeta := by
  unfold Within
  decide +kernel

/-- The residue of a product that went through the Montgomery reduction. -/
theorem fqmul_cast {bound a b : ℤ} (hbound : bound ≤ 109084671) (hab : Within bound (a * b)) :
    Yields (fqmul a b) fun r => Within 3328 r ∧ (r : Zq) = a * b * 169 := by
  refine (fqmul_yields hbound hab).mono fun r hr => ⟨hr.1, ?_⟩
  have hcast := (ZMod.intCast_zmod_eq_zero_iff_dvd (r * 65536 - a * b) 3329).mpr hr.2
  push_cast at hcast
  have hone : (65536 : Zq) * 169 = 1 := by decide
  linear_combination 169 * hcast - (r : Zq) * hone

theorem barrett_cast {a : ℤ} (ha : Within 31625 a) :
    Yields (Barrett.reduce a) fun r => Within 1664 r ∧ (r : Zq) = a := by
  refine (barrett_yields ha).mono fun r hr => ⟨hr.1, ?_⟩
  have hcast := (ZMod.intCast_zmod_eq_zero_iff_dvd (r - a) 3329).mpr hr.2
  push_cast at hcast
  linear_combination hcast

/-- The chunk stands for the polynomial modulo `X ^ m - γ`, with values up to the bound. -/
structure Chunk (bound : ℤ) (m : ℕ) (f : Zq[X]) (γ : Zq) (chunk : List ℤ) : Prop where
  residue : Residue m γ f (chunk.map Int.cast)
  within : ∀ x ∈ chunk, Within bound x

theorem Chunk.length {bound : ℤ} {m : ℕ} {f : Zq[X]} {γ : Zq} {chunk : List ℤ}
    (h : Chunk bound m f γ chunk) : chunk.length = m := by
  rw [← h.residue.length, List.length_map]

/-- What a step makes of one value of each half. -/
def Combines (bound : ℤ) (s t s' t' : Zq) (l r : ℤ) (out : ℤ × ℤ) : Prop :=
  (Within bound out.1 ∧ (out.1 : Zq) = s * l + t * r) ∧
    Within bound out.2 ∧ (out.2 : Zq) = s' * l + t' * r

theorem combines_fst {bound : ℤ} {s t s' t' : Zq} {left right : List ℤ} {pairs : List (ℤ × ℤ)}
    (hlen : left.length = right.length)
    (h : List.Forall₂ (fun p => Combines bound s t s' t' p.1 p.2) (left.zip right) pairs) :
    (∀ x ∈ pairs.map Prod.fst, Within bound x) ∧
      (pairs.map Prod.fst).map Int.cast = List.zipWith (fun a b => s * a + t * b)
        (left.map Int.cast) (right.map Int.cast) := by
  induction left generalizing right pairs with
  | nil =>
    cases h
    simp
  | cons a left ih =>
    cases right with
    | nil => cases hlen
    | cons b right =>
      cases h with
      | cons hp hpairs =>
        obtain ⟨hwithin, hcast⟩ := ih (Nat.succ_injective hlen) hpairs
        constructor
        · exact List.forall_mem_cons.mpr ⟨hp.1.1, hwithin⟩
        · simp only [List.map_cons, List.zipWith_cons_cons, hcast, hp.1.2]

theorem Combines.swap {bound : ℤ} {s t s' t' : Zq} {l r : ℤ} {out : ℤ × ℤ}
    (h : Combines bound s t s' t' l r out) : Combines bound s' t' s t l r out.swap :=
  And.symm h

theorem combines_snd {bound : ℤ} {s t s' t' : Zq} {left right : List ℤ} {pairs : List (ℤ × ℤ)}
    (hlen : left.length = right.length)
    (h : List.Forall₂ (fun p => Combines bound s t s' t' p.1 p.2) (left.zip right) pairs) :
    (∀ x ∈ pairs.map Prod.snd, Within bound x) ∧
      (pairs.map Prod.snd).map Int.cast = List.zipWith (fun a b => s' * a + t' * b)
        (left.map Int.cast) (right.map Int.cast) := by
  have hswap : List.Forall₂ (fun p => Combines bound s' t' s t p.1 p.2) (left.zip right)
      (pairs.map Prod.swap) :=
    List.forall₂_map_right_iff.mpr (h.imp fun _ _ hp => hp.swap)
  have hfst := combines_fst hlen hswap
  rwa [List.map_map, show Prod.fst ∘ Prod.swap = @Prod.snd ℤ ℤ from rfl] at hfst

theorem overHalves_yields {pair : ℤ → ℤ → Except Trap (ℤ × ℤ)} {bound bound' : ℤ}
    {s t s' t' : Zq} (hpair : ∀ l r, Within bound l → Within bound r →
      Yields (pair l r) (Combines bound' s t s' t' l r))
    {m : ℕ} {chunk : List ℤ} (hlen : chunk.length = 2 * m) (hbound : ∀ x ∈ chunk, Within bound x) :
    Yields (overHalves pair m chunk) fun out => ∃ l r : List ℤ, out = l ++ r ∧
      (∀ x ∈ l, Within bound' x) ∧ (∀ x ∈ r, Within bound' x) ∧
      l.map Int.cast = List.zipWith (fun a b => s * a + t * b) ((chunk.take m).map Int.cast)
        ((chunk.drop m).map Int.cast) ∧
      r.map Int.cast = List.zipWith (fun a b => s' * a + t' * b) ((chunk.take m).map Int.cast)
        ((chunk.drop m).map Int.cast) := by
  have hmap : Yields (((chunk.take m).zip (chunk.drop m)).mapM fun p => pair p.1 p.2)
      (List.Forall₂ (fun p => Combines bound' s t s' t' p.1 p.2)
        ((chunk.take m).zip (chunk.drop m))) := by
    apply yields_mapM
    intro p hp
    obtain ⟨hl, hr⟩ := List.of_mem_zip hp
    exact hpair p.1 p.2 (hbound _ (List.mem_of_mem_take hl)) (hbound _ (List.mem_of_mem_drop hr))
  have heven : (chunk.take m).length = (chunk.drop m).length := by
    rw [List.length_take, List.length_drop]
    omega
  refine hmap.bind fun pairs hpairs => ?_
  obtain ⟨hlwithin, hl⟩ := combines_fst heven hpairs
  obtain ⟨hrwithin, hr⟩ := combines_snd heven hpairs
  exact yields_pure ⟨_, _, rfl, hlwithin, hrwithin, hl, hr⟩

theorem chunksFrom_flatten {size : ℕ} {chunks : List (List ℤ)}
    (h : ∀ chunk ∈ chunks, chunk.length = size) :
    chunksFrom size chunks.length chunks.flatten = chunks := by
  induction chunks with
  | nil => rfl
  | cons chunk chunks ih =>
    obtain ⟨hchunk, hchunks⟩ := List.forall_mem_cons.mp h
    rw [List.length_cons, chunksFrom, List.flatten_cons, List.take_left' hchunk,
      List.drop_left' hchunk, ih hchunks]

theorem chunksExact_flatten {size : ℕ} (hsize : 0 < size) {chunks : List (List ℤ)}
    (h : ∀ chunk ∈ chunks, chunk.length = size) :
    chunksExact size chunks.flatten = chunks := by
  have hlength : chunks.flatten.length = chunks.length * size := by
    rw [List.length_flatten, List.map_congr_left h, List.map_const', List.sum_replicate,
      smul_eq_mul]
  unfold chunksExact
  rw [hlength, Nat.mul_div_cancel _ hsize, chunksFrom_flatten h]

/-- A step that is good for each chunk with its root is good for the loop, which takes as many
roots from the table as there are chunks. -/
theorem overChunks_yields {ζ : Type} (zetaOf : ζ → ℤ) {step : ℤ → List ℤ → Except Trap (List ℤ)}
    {P S : ζ → List ℤ → Prop} {ids : List ζ} {chunks : List (List ℤ)}
    (h : List.Forall₂ P ids chunks)
    (hstep : ∀ z ∈ ids, ∀ chunk, P z chunk → Yields (step (zetaOf z) chunk) (S z))
    (rest : List ℤ) :
    Yields (overChunks step chunks (ids.map zetaOf ++ rest)) fun out =>
      Split S ids out.1 ∧ out.2 = rest := by
  induction h with
  | nil => exact yields_pure ⟨⟨[], rfl, List.Forall₂.nil⟩, rfl⟩
  | @cons z chunk ids chunks hchunk _ ih =>
    obtain ⟨hfirst, hothers⟩ := List.forall_mem_cons.mp hstep
    show Yields (step (zetaOf z) chunk >>= fun chunk =>
      overChunks step chunks (ids.map zetaOf ++ rest) >>= fun s => pure (chunk ++ s.1, s.2)) _
    refine (hfirst chunk hchunk).bind fun chunk' hchunk' => ?_
    refine (ih hothers).bind fun s hs => yields_pure ?_
    obtain ⟨⟨chunks', hflat, hall⟩, hrest⟩ := hs
    exact ⟨⟨chunk' :: chunks', by rw [List.flatten_cons, hflat], List.Forall₂.cons hchunk' hall⟩,
      hrest⟩

theorem layer_yields {ζ : Type} (zetaOf : ζ → ℤ) {pair : ℤ → ℤ → ℤ → Except Trap (ℤ × ℤ)}
    {P S : ζ → List ℤ → Prop} {ids : List ζ} {len : ℕ} (hlen : 0 < len) {v : Poly}
    (hv : Split P ids v) (hsize : ∀ z chunk, P z chunk → chunk.length = 2 * len)
    (hstep : ∀ z ∈ ids, ∀ chunk, P z chunk →
      Yields (overHalves (pair (zetaOf z)) len chunk) (S z)) (rest : List ℤ) :
    Yields (layer pair (v, ids.map zetaOf ++ rest) len) fun out =>
      Split S ids out.1 ∧ out.2 = rest := by
  obtain ⟨chunks, rfl, hall⟩ := hv
  have hsizes : ∀ chunk ∈ chunks, chunk.length = len * 2 := by
    clear hstep
    induction hall with
    | nil => simp
    | cons h _ ih => exact List.forall_mem_cons.mpr ⟨(hsize _ _ h).trans (Nat.mul_comm 2 len), ih⟩
  unfold layer
  rw [chunksExact_flatten (by omega) hsizes]
  exact overChunks_yields zetaOf hall hstep rest

theorem nttPair_yields {zeta bound : ℤ} (hzeta : Within 1664 zeta) (hbound : bound ≤ 29439)
    (l r : ℤ) (hl : Within bound l) (hr : Within bound r) :
    Yields (nttPair zeta l r) (Combines (bound + 3328) 1 (root zeta) 1 (-root zeta) l r) := by
  refine (fqmul_cast (by norm_num) (hzeta.mul (hr.mono hbound))).bind
    fun t ht => ?_
  obtain ⟨htwithin, hcast⟩ := ht
  have hdifference := hl.sub htwithin
  have hsum := hl.add htwithin
  refine (i16_yields (hdifference.mono (by omega))).bind fun r' hr' => ?_
  refine (i16_yields (hsum.mono (by omega))).bind fun l' hl' => ?_
  subst hr' hl'
  refine yields_pure ⟨⟨hsum, ?_⟩, hdifference, ?_⟩
  · simp only [Int.cast_add, hcast, root]
    ring
  · simp only [Int.cast_sub, hcast, root]
    ring

theorem invnttPair_yields {zeta : ℤ} (hzeta : Within 1664 zeta) (l r : ℤ)
    (hl : Within 6656 l) (hr : Within 6656 r) :
    Yields (invnttPair zeta l r) (Combines 6656 1 1 (-root zeta) (- -root zeta) l r) := by
  have hsum := hl.add hr
  have hdifference := hr.sub hl
  refine (i16_yields (hsum.mono (by norm_num))).bind fun sum hs => ?_
  subst hs
  refine (barrett_cast (hsum.mono (by norm_num))).bind fun l' hl' => ?_
  refine (i16_yields (hdifference.mono (by norm_num))).bind fun difference hd => ?_
  subst hd
  refine (fqmul_cast (by norm_num) (hzeta.mul hdifference)).bind fun r' hr' => ?_
  refine yields_pure ⟨⟨hl'.1.mono (by norm_num), ?_⟩, hr'.1.mono (by norm_num), ?_⟩
  · rw [hl'.2, Int.cast_add]
    ring
  · rw [hr'.2, Int.cast_sub, root]
    ring

theorem map_take_append_drop (chunk : List ℤ) (m : ℕ) :
    chunk.map (Int.cast : ℤ → Zq) = (chunk.take m).map Int.cast ++ (chunk.drop m).map Int.cast := by
  rw [← List.map_append, List.take_append_drop]

/-- A layer of the transform splits each modulus. -/
theorem nttLayer_yields {bound : ℤ} (hbound : bound ≤ 29439) {m : ℕ} (hm : 0 < m) {f : Zq[X]}
    {roots : List ℤ} (hroots : ∀ zeta ∈ roots, Within 1664 zeta) {v : Poly}
    (hv : Split (Chunk bound (2 * m) f) (roots.map fun z => root z * root z) v) (rest : List ℤ) :
    Yields (layer nttPair (v, roots ++ rest) m) fun out =>
      Split (Chunk (bound + 3328) m f) (halve (roots.map root)) out.1 ∧ out.2 = rest := by
  rw [split_map] at hv
  have hstep : ∀ zeta ∈ roots, ∀ chunk, Chunk bound (2 * m) f (root zeta * root zeta) chunk →
      Yields (overHalves (nttPair zeta) m chunk)
        (Halves (Chunk (bound + 3328) m f) (root zeta)) := by
    intro zeta hzeta chunk hchunk
    have hlength := hchunk.length
    refine (overHalves_yields (nttPair_yields (hroots zeta hzeta) hbound) hlength
      hchunk.within).mono fun out hout => ?_
    obtain ⟨l, r, rfl, hlwithin, hrwithin, hl, hr⟩ := hout
    have hresidue := hchunk.residue
    rw [map_take_append_drop chunk m] at hresidue
    have hleft : ((chunk.take m).map (Int.cast : ℤ → Zq)).length = m := by
      rw [List.length_map, List.length_take]
      omega
    have hright : ((chunk.drop m).map (Int.cast : ℤ → Zq)).length = m := by
      rw [List.length_map, List.length_drop]
      omega
    refine ⟨l, r, rfl, ⟨?_, hlwithin⟩, ⟨?_, hrwithin⟩⟩
    · rw [hl]
      exact hresidue.split_add hleft hright
    · rw [hr]
      exact hresidue.split_sub hleft hright
  have hlayer := layer_yields id hm hv (fun _ _ h => h.length) hstep rest
  rw [List.map_id] at hlayer
  exact hlayer.mono fun out hout => ⟨(split_map.mpr hout.1).halves, hout.2⟩

/-- A layer of the inverse transform joins them to twice the polynomial. -/
theorem invnttLayer_yields {m : ℕ} (hm : 0 < m) {f : Zq[X]} {roots zs : List ℤ}
    (hroots : ∀ zeta ∈ roots, Within 1664 zeta)
    (hinverse : List.Forall₂ (fun zeta z => -root zeta * root z = 1) roots zs) {v : Poly}
    (hv : Split (Chunk 6656 m f) (halve (zs.map root)) v) (rest : List ℤ) :
    Yields (layer invnttPair (v, roots ++ rest) m) fun out =>
      Split (Chunk 6656 (2 * m) (2 * f)) (zs.map fun z => root z * root z) out.1 ∧
        out.2 = rest := by
  obtain ⟨hlength, hzip⟩ := List.forall₂_iff_zip.mp hinverse
  have hfst : (roots.zip zs).map Prod.fst = roots := List.map_fst_zip hlength.le
  have hsnd : (roots.zip zs).map Prod.snd = zs := List.map_snd_zip hlength.ge
  have hpairs : Split (fun p : ℤ × ℤ => Halves (Chunk 6656 m f) (root p.2)) (roots.zip zs) v := by
    have h := hv.of_halve
    rwa [← hsnd, List.map_map, split_map] at h
  have hstep : ∀ p ∈ roots.zip zs, ∀ chunk, Halves (Chunk 6656 m f) (root p.2) chunk →
      Yields (overHalves (invnttPair p.1) m chunk)
        (Chunk 6656 (2 * m) (2 * f) (root p.2 * root p.2)) := by
    rintro ⟨zeta, z⟩ hp chunk ⟨left, right, rfl, hleft, hright⟩
    have hlen : (left ++ right).length = 2 * m := by
      rw [List.length_append, hleft.length, hright.length]
      omega
    have hwithin : ∀ x ∈ left ++ right, Within 6656 x := fun x hx =>
      (List.mem_append.mp hx).elim (hleft.within x) (hright.within x)
    refine (overHalves_yields (invnttPair_yields (hroots zeta (List.of_mem_zip hp).1)) hlen
      hwithin).mono fun out hout => ?_
    obtain ⟨l, r, rfl, hlwithin, hrwithin, hl, hr⟩ := hout
    rw [List.take_left' hleft.length, List.drop_left' hleft.length] at hl hr
    constructor
    · rw [List.map_append, hl, hr]
      exact hleft.residue.join (hzip hp) hright.residue
    · intro x hx
      exact (List.mem_append.mp hx).elim (hlwithin x) (hrwithin x)
  have hsize : ∀ (p : ℤ × ℤ) (chunk : List ℤ), Halves (Chunk 6656 m f) (root p.2) chunk →
      chunk.length = 2 * m := by
    rintro p chunk ⟨left, right, rfl, hleft, hright⟩
    rw [List.length_append, hleft.length, hright.length]
    omega
  have hlayer := layer_yields Prod.fst hm hpairs hsize hstep rest
  rw [hfst] at hlayer
  refine hlayer.mono fun out hout => ⟨?_, hout.2⟩
  have hout' := hout.1
  rw [← split_map (g := fun p : ℤ × ℤ => root p.2 * root p.2)] at hout'
  rwa [← hsnd, List.map_map]

theorem layerZetas_within {i : ℕ} {zeta : ℤ} (h : zeta ∈ layerZetas i) : Within 1664 zeta :=
  zetas_within zeta (List.mem_of_mem_drop (List.mem_of_mem_take h))

/-- What each layer keeps holds after the seven layers. -/
theorem nttLoop_yields {P : ℕ → Poly → Prop} {v : Poly} (h0 : P 0 v)
    (hlayer : ∀ i < 7, ∀ v, P i v → ∀ rest,
      Yields (layer nttPair (v, layerZetas i ++ rest) (128 / 2 ^ i)) fun out =>
        P (i + 1) out.1 ∧ out.2 = rest) :
    Yields (((List.range 7).reverse.map (2 <<< ·)).foldlM (layer nttPair) (v, zetas.drop 1))
      fun s => P 7 s.1 := by
  have hloop := yields_foldlM (f := layer nttPair) (l := (List.range 7).reverse.map (2 <<< ·))
    (s := (v, zetas.drop 1)) (P := fun i s => P i s.1 ∧ s.2 = zetas.drop (2 ^ i)) ⟨h0, rfl⟩ ?_
  · exact hloop.mono fun s hs => hs.1
  · rintro i hi ⟨v, roots⟩ ⟨hP, hroots⟩
    change i < 7 at hi
    have hlen : ((List.range 7).reverse.map (2 <<< ·))[i] = 128 / 2 ^ i := by
      interval_cases i <;> rfl
    simp only at hP hroots
    rw [hlen, hroots, zetas_drop i hi]
    exact hlayer i hi v hP _

theorem invnttLoop_yields {P : ℕ → Poly → Prop} {v : Poly} (h0 : P 0 v)
    (hlayer : ∀ i < 7, ∀ v, P i v → ∀ rest,
      Yields (layer invnttPair (v, (layerZetas (6 - i)).reverse ++ rest) (2 ^ (i + 1))) fun out =>
        P (i + 1) out.1 ∧ out.2 = rest) :
    Yields (((List.range 7).map (2 <<< ·)).foldlM (layer invnttPair) (v, zetas.reverse))
      fun s => P 7 s.1 := by
  have hloop := yields_foldlM (f := layer invnttPair) (l := (List.range 7).map (2 <<< ·))
    (s := (v, zetas.reverse))
    (P := fun i s => P i s.1 ∧ s.2 = zetas.reverse.drop (128 - 2 ^ (7 - i))) ⟨h0, rfl⟩ ?_
  · exact hloop.mono fun s hs => hs.1
  · rintro i hi ⟨v, roots⟩ ⟨hP, hroots⟩
    change i < 7 at hi
    have hlen : ((List.range 7).map (2 <<< ·))[i] = 2 ^ (i + 1) := by
      interval_cases i <;> rfl
    have hnext : 7 - (i + 1) = 6 - i := by omega
    simp only at hP hroots
    rw [hlen, hroots, zetas_reverse_drop i hi, hnext]
    exact hlayer i hi v hP _

theorem mem_of_split {bound : ℤ} {m : ℕ} {f : Zq[X]} {γs : List Zq} {v : Poly}
    (h : Split (Chunk bound m f) γs v) : ∀ x ∈ v, Within bound x := by
  obtain ⟨chunks, rfl, hall⟩ := h
  induction hall with
  | nil => simp
  | cons hchunk _ ih =>
    intro x hx
    rw [List.flatten_cons] at hx
    exact (List.mem_append.mp hx).elim (hchunk.within x) (ih x)

theorem ntt_yields {a : Poly} (hlength : a.length = N) (hwithin : ∀ x ∈ a, Within 3328 x) :
    Yields (ntt a) (Split (Chunk 26624 2 (ofCoeffs (a.map Int.cast))) (moduli 7)) := by
  refine (nttLoop_yields (P := fun i v => Split (Chunk (3328 * (i + 1)) (256 / 2 ^ i)
    (ofCoeffs (a.map Int.cast))) (moduli i) v) ?_ ?_).bind fun s hs => yields_pure ?_
  · refine ⟨[a], (List.append_nil a).symm, List.Forall₂.cons ⟨?_, hwithin⟩ List.Forall₂.nil⟩
    have h := Residue.refl (a.map (Int.cast : ℤ → Zq)) (-1)
    rwa [List.length_map, hlength] at h
  · intro i hi v hv rest
    have hsize : 256 / 2 ^ i = 2 * (128 / 2 ^ i) ∧ 256 / 2 ^ (i + 1) = 128 / 2 ^ i ∧
        0 < 128 / 2 ^ i := by
      interval_cases i <;> decide
    simp only [moduli_square i hi, hsize.1] at hv
    have hlayer := nttLayer_yields (by omega) hsize.2.2 (fun _ => layerZetas_within) hv rest
    have hgrowth : 3328 * ((i : ℤ) + 1) + 3328 = 3328 * (((i + 1 : ℕ) : ℤ) + 1) := by
      push_cast
      ring
    rw [hgrowth] at hlayer
    simp only [hsize.2.1]
    exact hlayer
  · norm_num at hs
    exact hs

/-- The residues alone, without the bound. -/
theorem split_chunk_iff {bound : ℤ} {m : ℕ} {f : Zq[X]} {γs : List Zq} {v : Poly} :
    Split (Chunk bound m f) γs v ↔
      Split (fun γ => Residue m γ f) γs (v.map Int.cast) ∧ ∀ x ∈ v, Within bound x := by
  constructor
  · intro h
    refine ⟨?_, mem_of_split h⟩
    obtain ⟨chunks, rfl, hall⟩ := h
    refine ⟨chunks.map (List.map Int.cast), List.map_flatten, ?_⟩
    exact List.forall₂_map_right_iff.mpr (hall.imp fun _ _ hchunk => hchunk.residue)
  · rintro ⟨⟨chunks, hv, hall⟩, hwithin⟩
    induction hall generalizing v with
    | nil =>
      rw [List.flatten_nil, List.map_eq_nil_iff] at hv
      exact ⟨[], hv, List.Forall₂.nil⟩
    | cons hchunk _ ih =>
      rw [List.flatten_cons] at hv
      obtain ⟨l, r, rfl, rfl, hr⟩ := List.map_eq_append_iff.mp hv
      obtain ⟨rest, hrest, hall⟩ := ih (fun x hx => hwithin x (List.mem_append_right l hx)) hr
      refine ⟨l :: rest, by rw [List.flatten_cons, hrest], List.Forall₂.cons ⟨hchunk, ?_⟩ hall⟩
      exact fun x hx => hwithin x (List.mem_append_left r hx)

/-- What a reduction of every value does. -/
theorem mapM_yields {f : ℤ → Except Trap ℤ} {bound bound' : ℤ} {s : Zq} {v : Poly}
    (hf : ∀ x, Within bound x → Yields (f x) fun r => Within bound' r ∧ (r : Zq) = s * x)
    (hv : ∀ x ∈ v, Within bound x) :
    Yields (v.mapM f) fun out => out.map (Int.cast : ℤ → Zq) = (v.map Int.cast).map (s * ·) ∧
      ∀ x ∈ out, Within bound' x := by
  refine (yields_mapM fun x hx => hf x (hv x hx)).mono fun out hout => ?_
  clear hv
  induction hout with
  | nil => simp
  | cons hx _ ih =>
    obtain ⟨hcast, hwithin⟩ := ih
    exact ⟨by simp only [List.map_cons, hcast, hx.2], List.forall_mem_cons.mpr ⟨hx.1, hwithin⟩⟩

theorem reduce_yields {v : Poly} (hv : ∀ x ∈ v, Within 31625 x) :
    Yields (Poly.reduce v) fun out => out.map (Int.cast : ℤ → Zq) = v.map Int.cast ∧
      ∀ x ∈ out, Within 1664 x := by
  have hvalue : ∀ x, Within 31625 x →
      Yields (Barrett.reduce x) fun r => Within 1664 r ∧ (r : Zq) = 1 * x := by
    intro x hx
    rw [one_mul]
    exact barrett_cast hx
  refine (mapM_yields hvalue hv).mono fun out hout => ?_
  simpa only [one_mul, List.map_id'] using hout

/-- After the reduction the transform has small values. -/
theorem polyNtt_yields {a : Poly} (hlength : a.length = N) (hwithin : ∀ x ∈ a, Within 3328 x) :
    Yields (Poly.ntt a) (Split (Chunk 1664 2 (ofCoeffs (a.map Int.cast))) (moduli 7)) := by
  refine (ntt_yields hlength hwithin).bind fun v hv => ?_
  obtain ⟨hsplit, hbound⟩ := split_chunk_iff.mp hv
  refine (reduce_yields fun x hx => (hbound x hx).mono (by norm_num)).mono fun out hout => ?_
  rw [← hout.1] at hsplit
  exact split_chunk_iff.mpr ⟨hsplit, hout.2⟩

/-- The inverse transform divides by the Montgomery factor less than it multiplies. -/
theorem invntt_yields {f : Zq[X]} {v : Poly} (hv : Split (Chunk 6656 2 f) (moduli 7) v) :
    Yields (invntt v) fun out =>
      Residue N (-1) (C (1441 * 169 * 2 ^ 7) * f) (out.map Int.cast) ∧
        ∀ x ∈ out, Within 3328 x := by
  refine (invnttLoop_yields (P := fun i v => Split (Chunk 6656 (2 ^ (i + 1)) (2 ^ i * f))
    (moduli (7 - i)) v) ?_ ?_).bind fun s hs => ?_
  · simpa using hv
  · intro i hi v hv rest
    have hprev : 7 - i = (6 - i) + 1 := by omega
    have hlevel : 7 - (i + 1) = 6 - i := by omega
    have hpow : (2 : Zq[X]) ^ (i + 1) * f = 2 * (2 ^ i * f) := by ring
    rw [hprev] at hv
    have hlayer := invnttLayer_yields (by positivity)
      (fun zeta hzeta => layerZetas_within (List.mem_reverse.mp hzeta))
      (zetas_reverse (6 - i) (by omega)) hv rest
    rw [← moduli_square (6 - i) (by omega)] at hlayer
    rw [hlevel, hpow, pow_succ' 2 (i + 1)]
    exact hlayer
  · obtain ⟨chunks, hflat, hall⟩ := hs
    cases hall with
    | cons hchunk hnil =>
      cases hnil
      rw [List.flatten_cons, List.flatten_nil, List.append_nil] at hflat
      rw [hflat]
      have hvalue : ∀ x, Within 6656 x →
          Yields (fqmul x 1441) fun r => Within 3328 r ∧ (r : Zq) = 1441 * 169 * x := by
        intro x hx
        have hconst : Within 1441 1441 := ⟨by norm_num, le_refl 1441⟩
        refine (fqmul_cast (by norm_num) (hx.mul hconst)).mono fun r hr => ⟨hr.1, ?_⟩
        rw [hr.2]
        push_cast
        ring
      refine (mapM_yields hvalue hchunk.within).mono fun out hout => ⟨?_, hout.2⟩
      have hscale := hchunk.residue.scale (1441 * 169)
      rw [← hout.1] at hscale
      have hfactor : C (1441 * 169 * 2 ^ 7 : Zq) * f = C (1441 * 169) * (2 ^ 7 * f) := by
        rw [C_mul, C_pow, mul_assoc]
        rfl
      rw [hfactor]
      exact hscale

theorem basemul_yields {A B a0 a1 b0 b1 zeta : ℤ} (hAB : A * B ≤ 109084671) (ha0 : Within A a0)
    (ha1 : Within A a1) (hb0 : Within B b0) (hb1 : Within B b1) (hzeta : Within 1664 zeta) :
    Yields (basemul a0 a1 b0 b1 zeta) fun r => (∀ x ∈ r, Within 6656 x) ∧
      r.map (Int.cast : ℤ → Zq) =
        [169 * (a0 * b0 + root zeta * (a1 * b1)), 169 * (a0 * b1 + a1 * b0)] := by
  refine (fqmul_cast hAB (ha1.mul hb1)).bind fun high hhigh => ?_
  refine (fqmul_cast (by norm_num) (hhigh.1.mul hzeta)).bind fun folded hfolded => ?_
  refine (fqmul_cast hAB (ha0.mul hb0)).bind fun low hlow => ?_
  have heven := hfolded.1.add hlow.1
  refine (i16_yields (heven.mono (by norm_num))).bind fun r0 hr0 => ?_
  refine (fqmul_cast hAB (ha0.mul hb1)).bind fun first hfirst => ?_
  refine (fqmul_cast hAB (ha1.mul hb0)).bind fun second hsecond => ?_
  have hodd := hfirst.1.add hsecond.1
  refine (i16_yields (hodd.mono (by norm_num))).bind fun r1 hr1 => yields_pure ⟨?_, ?_⟩
  · subst hr0 hr1
    simp only [List.forall_mem_cons, List.not_mem_nil, false_imp_iff, implies_true, and_true]
    exact ⟨heven, hodd⟩
  · subst hr0 hr1
    simp only [List.map_cons, List.map_nil, Int.cast_add, hfolded.2, hhigh.2, hlow.2, hfirst.2,
      hsecond.2, root]
    congr 1
    · ring
    · congr 1
      ring

/-- The products of the residues, with the factor that the reduction leaves. -/
def products : List Zq → List Zq → List Zq → List Zq
  | γ :: γs, a0 :: a1 :: a, b0 :: b1 :: b =>
    169 * (a0 * b0 + γ * (a1 * b1)) :: 169 * (a0 * b1 + a1 * b0) :: products γs a b
  | _, _, _ => []

theorem exists_four {α : Type} {l : List α} {n : ℕ} (h : l.length = 4 * (n + 1)) :
    ∃ x0 x1 x2 x3 rest, l = x0 :: x1 :: x2 :: x3 :: rest ∧ rest.length = 4 * n := by
  obtain ⟨x0, l, rfl⟩ := List.exists_cons_of_length_pos (show 0 < l.length by omega)
  rw [List.length_cons] at h
  obtain ⟨x1, l, rfl⟩ := List.exists_cons_of_length_pos (show 0 < l.length by omega)
  rw [List.length_cons] at h
  obtain ⟨x2, l, rfl⟩ := List.exists_cons_of_length_pos (show 0 < l.length by omega)
  rw [List.length_cons] at h
  obtain ⟨x3, l, rfl⟩ := List.exists_cons_of_length_pos (show 0 < l.length by omega)
  rw [List.length_cons] at h
  exact ⟨x0, x1, x2, x3, l, rfl, by omega⟩

theorem basemulLoop_yields {A B : ℤ} (hAB : A * B ≤ 109084671) {roots : List ℤ} {a b : Poly}
    (hroots : ∀ zeta ∈ roots, Within 1664 zeta) (halen : a.length = 4 * roots.length)
    (hblen : b.length = 4 * roots.length) (ha : ∀ x ∈ a, Within A x) (hb : ∀ x ∈ b, Within B x) :
    Yields (Poly.basemulLoop roots a b) fun r => r.length = 4 * roots.length ∧
      (∀ x ∈ r, Within 6656 x) ∧ r.map (Int.cast : ℤ → Zq) =
        products (halve (roots.map root)) (a.map Int.cast) (b.map Int.cast) := by
  induction roots generalizing a b with
  | nil => exact yields_pure ⟨rfl, by simp, rfl⟩
  | cons zeta roots ih =>
    obtain ⟨a0, a1, a2, a3, a, rfl, harest⟩ := exists_four halen
    obtain ⟨b0, b1, b2, b3, b, rfl, hbrest⟩ := exists_four hblen
    simp only [List.forall_mem_cons] at ha hb hroots
    obtain ⟨ha0, ha1, ha2, ha3, ha⟩ := ha
    obtain ⟨hb0, hb1, hb2, hb3, hb⟩ := hb
    obtain ⟨⟨hzlo, hzhi⟩, hroots⟩ := hroots
    refine (basemul_yields hAB ha0 ha1 hb0 hb1 ⟨hzlo, hzhi⟩).bind fun ra hra => ?_
    refine (i16_yields ⟨by omega, by omega⟩).bind fun negated hnegated => ?_
    subst hnegated
    refine (basemul_yields hAB ha2 ha3 hb2 hb3 ⟨by omega, by omega⟩).bind fun rb hrb => ?_
    refine (ih hroots harest hbrest ha hb).bind fun rest hrest => yields_pure ?_
    obtain ⟨hrawithin, hracast⟩ := hra
    obtain ⟨hrbwithin, hrbcast⟩ := hrb
    obtain ⟨hlength, hwithin, hcast⟩ := hrest
    have hralen := congrArg List.length hracast
    have hrblen := congrArg List.length hrbcast
    simp only [List.length_map, List.length_cons, List.length_nil] at hralen hrblen
    refine ⟨?_, ?_, ?_⟩
    · rw [List.length_append, List.length_append, List.length_cons]
      omega
    · intro x hx
      rcases List.mem_append.mp hx with hx | hx
      · exact (List.mem_append.mp hx).elim (hrawithin x) (hrbwithin x)
      · exact hwithin x hx
    · have hneg : root (-zeta) = -root zeta := by
        rw [root, root, Int.cast_neg, neg_mul]
      rw [List.map_append, List.map_append, hracast, hrbcast, hcast, hneg]
      rfl

theorem products_residue {f g : Zq[X]} {γs : List Zq} {a b : List Zq}
    (ha : Split (fun γ => Residue 2 γ f) γs a) (hb : Split (fun γ => Residue 2 γ g) γs b) :
    Split (fun γ => Residue 2 γ (C 169 * (f * g))) γs (products γs a b) := by
  obtain ⟨as, rfl, ha⟩ := ha
  obtain ⟨bs, rfl, hb⟩ := hb
  induction ha generalizing bs with
  | nil => exact ⟨[], rfl, List.Forall₂.nil⟩
  | @cons γ chunk γs as hchunk _ ih =>
    cases hb with
    | @cons _ chunk' _ bs hchunk' hb =>
      obtain ⟨rest, hrest, hall⟩ := ih bs hb
      obtain ⟨a0, a1, rfl⟩ := List.length_eq_two.mp hchunk.length
      obtain ⟨b0, b1, rfl⟩ := List.length_eq_two.mp hchunk'.length
      refine ⟨_ :: rest, ?_, List.Forall₂.cons ((hchunk.mul hchunk').scale 169) hall⟩
      rw [List.flatten_cons, List.flatten_cons, List.flatten_cons, ← hrest]
      rfl

theorem length_of_split {bound : ℤ} {m : ℕ} {f : Zq[X]} {γs : List Zq} {v : Poly}
    (h : Split (Chunk bound m f) γs v) : v.length = m * γs.length := by
  obtain ⟨chunks, rfl, hall⟩ := h
  induction hall with
  | nil => simp
  | cons hchunk _ ih =>
    rw [List.flatten_cons, List.length_append, hchunk.length, ih, List.length_cons]
    ring

theorem length_moduli : (moduli 7).length = 128 := by decide +kernel

theorem zetas_upper : zetas.drop 64 = layerZetas 6 := by decide

/-- Inputs of any residues, with bounds that keep the products small. -/
theorem basemulMontgomery_yields {A B : ℤ} (hAB : A * B ≤ 109084671) {a b : Poly}
    (halen : a.length = N) (hblen : b.length = N) (ha : ∀ x ∈ a, Within A x)
    (hb : ∀ x ∈ b, Within B x) :
    Yields (Poly.basemulMontgomery a b) fun r => r.length = N ∧ (∀ x ∈ r, Within 6656 x) ∧
      r.map (Int.cast : ℤ → Zq) = products (moduli 7) (a.map Int.cast) (b.map Int.cast) := by
  unfold Poly.basemulMontgomery
  rw [zetas_upper]
  exact basemulLoop_yields hAB (fun _ => layerZetas_within) halen hblen ha hb

/-- The polynomial over the residues. -/
noncomputable def ofPoly (a : Poly) : Zq[X] := ofCoeffs (a.map Int.cast)

/-- The product of two polynomials by way of their transforms. -/
def nttProduct (a b : Poly) : Except Trap Poly := do
  let a ← Poly.ntt a
  let b ← Poly.ntt b
  let r ← Poly.basemulMontgomery a b
  Poly.invnttTomont r

theorem nttProduct_eq_mul {a b : Poly} (ha : a.length = N) (hb : b.length = N)
    (hasmall : ∀ x ∈ a, |x| < Q) (hbsmall : ∀ x ∈ b, |x| < Q) :
    ∃ r, nttProduct a b = .ok r ∧ r.length = N ∧ ∀ i < N, ((r.getD i 0 : ℤ) : Zq) =
      ((ofPoly a * ofPoly b) %ₘ (X ^ N + 1)).coeff i := by
  have hsmall {v : Poly} (h : ∀ x ∈ v, |x| < Q) : ∀ x ∈ v, Within 3328 x := by
    intro x hx
    obtain ⟨hlo, hhi⟩ := abs_lt.mp (h x hx)
    unfold Q at hlo hhi
    exact ⟨by omega, by omega⟩
  have hlength {f : Zq[X]} {v : Poly} (h : Split (Chunk 1664 2 f) (moduli 7) v) :
      v.length = N := by
    rw [length_of_split h, length_moduli]
    rfl
  have hproduct : Yields (nttProduct a b) fun r =>
      Residue N (-1) (ofPoly a * ofPoly b) (r.map Int.cast) := by
    refine (polyNtt_yields ha (hsmall hasmall)).bind fun va hva => ?_
    refine (polyNtt_yields hb (hsmall hbsmall)).bind fun vb hvb => ?_
    refine (basemulMontgomery_yields (by norm_num) (hlength hva) (hlength hvb) (mem_of_split hva)
      (mem_of_split hvb)).bind fun v hv => ?_
    obtain ⟨-, hwithin, hcast⟩ := hv
    have hresidue := products_residue (split_chunk_iff.mp hva).1 (split_chunk_iff.mp hvb).1
    rw [← hcast] at hresidue
    refine (invntt_yields (split_chunk_iff.mpr ⟨hresidue, hwithin⟩)).mono fun r hr => ?_
    -- the scaling of the last loop cancels the seven doublings and both Montgomery factors
    have hone : (1441 * 169 * 2 ^ 7 : Zq) * 169 = 1 := by decide
    have hcancel (f : Zq[X]) : C (1441 * 169 * 2 ^ 7 : Zq) * (C 169 * f) = f := by
      rw [← mul_assoc, ← C_mul, hone, C_1, one_mul]
    have hr' := hr.1
    rwa [hcancel] at hr'
  obtain ⟨r, hr, hresidue⟩ := hproduct
  refine ⟨r, hr, by rw [← hresidue.length, List.length_map], ?_⟩
  intro i _
  have hnontrivial : Nontrivial Zq := ZMod.nontrivial_iff.mpr (by norm_num)
  rw [hresidue.coeff_modByMonic_add_one (Nat.succ_ne_zero 255), List.getD_eq_getElem?_getD,
    List.getD_eq_getElem?_getD, List.getElem?_map]
  cases r[i]? with
  | none => rw [Option.map_none, Option.getD_none, Option.getD_none, Int.cast_zero]
  | some x => rw [Option.map_some, Option.getD_some, Option.getD_some]

theorem nttProduct_eq_mul_replicate :
    ∃ r, nttProduct (List.replicate N 1) (List.replicate N (-3328)) = .ok r ∧ r.length = N ∧
      ∀ i < N, ((r.getD i 0 : ℤ) : Zq) =
        ((ofPoly (List.replicate N 1) * ofPoly (List.replicate N (-3328))) %ₘ
          (X ^ N + 1)).coeff i := by
  refine nttProduct_eq_mul List.length_replicate List.length_replicate ?_ ?_
  · intro x hx
    rw [List.eq_of_mem_replicate hx]
    decide
  · intro x hx
    rw [List.eq_of_mem_replicate hx]
    decide

end OrionNetwork.Kyber
