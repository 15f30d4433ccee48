import OrionNetwork.FecDecode
import OrionNetwork.GaussJordan

/-!
# How far codewords are apart

Two codewords that agree in `required` places are the same. So the rows of the
encoder for any `required` shares form a regular matrix, and shares that are not
part of a codeword fail a check: the first of them fix the polynomial, and the
checks compare all others with its values.
-/
namespace OrionNetwork.EvaluationCode
open PivotExchange GaussJordan Polynomial

variable {F : Type*} [Field F] {enc : Mat F} {x : ℕ → F} {k n : ℕ}

/-- Symbols that are listed without repetition, in any order. -/
theorem Systematic.regular (hc : Systematic enc x k n) {g : ℕ → ℕ} (hlt : ∀ r < k, g r < n)
    (hinj : Set.InjOn g (Finset.range k)) : Regular k (select enc g) := by
  intro d hzero j hj
  have hkn := hc.le
  have hall := hc.apply_eq_zero_of_injOn hlt hinj hzero (show j < n by omega)
  rwa [hc.apply_message hj] at hall

end OrionNetwork.EvaluationCode

namespace OrionNetwork.Fec
open Galois Loops PivotExchange EvaluationCode PolynomialRows GaussJordan Collections

theorem point_eq (r : ℕ) : point r = if r = 0 then 0 else Gf.ofNat 2 ^ r := by
  unfold point
  split_ifs
  · rfl
  · exact Gf.power_eq_pow r

/-- The encoder is systematic, evaluates the polynomial through the data, and any
`required` of its rows can be inverted. -/
theorem new_mds {required total : ℕ} (hpos : 1 ≤ required) (hlt : required < total)
    (hle : total ≤ 256) :
    ∃ f, new required total = some f ∧
      (∀ r < required, ∀ j < required, f.encMatrix r j = if r = j then 1 else 0) ∧
      (∀ r, point r = if r = 0 then 0 else Gf.ofNat 2 ^ r) ∧
      (∀ d : ℕ → Gf, ∃! p : Polynomial Gf,
        p.degree < required ∧ ∀ j < required, p.eval (point j) = d j) ∧
      (∀ (d : ℕ → Gf) (p : Polynomial Gf), p.degree < required →
        (∀ j < required, p.eval (point j) = d j) →
        ∀ r < total, ∑ j ∈ Finset.range required, f.encMatrix r j * d j = p.eval (point r)) ∧
      ∀ rows : Fin required ↪ Fin total,
        IsUnit (Matrix.of fun i j : Fin required => f.encMatrix (rows i) j) := by
  have hnew : new required total = some ⟨required, total, newEncMatrix required, newVandMatrix⟩ := by
    unfold new
    rw [if_pos (by omega)]
  have hc := systematic hnew
  refine ⟨_, hnew, hc.identity, point_eq, fun d => ?_, fun d p hdegree heval r hr => ?_,
    fun rows => ?_⟩
  · apply existsUnique_polynomial
    apply hc.injOn.mono
    intro j hj
    simp only [Finset.coe_range, Set.mem_Iio] at hj ⊢
    omega
  · exact hc.apply_eq_eval hdegree heval hr
  · let g : ℕ → ℕ := fun i => if h : i < required then rows ⟨i, h⟩ else 0
    have hg : ∀ i : Fin required, g i = rows i := by
      intro i
      simp only [g, dif_pos i.isLt]
    have hreg : Regular required (select (newEncMatrix required) g) := by
      apply hc.regular
      · intro r hr
        rw [hg ⟨r, hr⟩]
        exact (rows ⟨r, hr⟩).isLt
      · intro a ha b hb hab
        rw [Finset.coe_range, Set.mem_Iio] at ha hb
        rw [hg ⟨a, ha⟩, hg ⟨b, hb⟩] at hab
        exact congrArg Fin.val (rows.injective (Fin.ext hab))
    rw [← isUnit_square_iff] at hreg
    convert hreg using 1
    ext i j
    show newEncMatrix required (rows i) j = newEncMatrix required (g i) j
    rw [hg i]

/-- Two blocks of data and any two of their three shares. -/
theorem new_mds_two : ∃ f, new 2 3 = some f ∧
    (∀ r < 2, ∀ j < 2, f.encMatrix r j = if r = j then 1 else 0) ∧
    (∀ r, point r = if r = 0 then 0 else Gf.ofNat 2 ^ r) ∧
    (∀ d : ℕ → Gf, ∃! p : Polynomial Gf, p.degree < (2 : ℕ) ∧ ∀ j < 2, p.eval (point j) = d j) ∧
    (∀ (d : ℕ → Gf) (p : Polynomial Gf), p.degree < (2 : ℕ) →
      (∀ j < 2, p.eval (point j) = d j) →
      ∀ r < 3, ∑ j ∈ Finset.range 2, f.encMatrix r j * d j = p.eval (point r)) ∧
    ∀ rows : Fin 2 ↪ Fin 3, IsUnit (Matrix.of fun i j : Fin 2 => f.encMatrix (rows i) j) :=
  new_mds (by decide) (by decide) (by decide)


section Checks

variable {k c : ℕ} {mx : Mat Gf} {x : ℕ → Gf}

/-- The checks pass for the values of polynomials and for nothing else. -/
theorem checks_iff (hbounded : Bounded x c k mx) (hclear : Cleared k 0 mx) (hkc : k ≤ c)
    (hinj : Set.InjOn x (Finset.range c)) (v : ℕ → Gf) :
    (∀ i < c - k, apply c (parityMatrix mx k c).1 v i = 0) ↔
      ∃ p : Polynomial Gf, p.degree < k ∧ ∀ j < c, p.eval (x j) = v j := by
  constructor
  · intro hpassed
    have hfirst : Set.InjOn x (Finset.range k) := by
      apply hinj.mono
      intro j hj
      simp only [Finset.coe_range, Set.mem_Iio] at hj ⊢
      omega
    obtain ⟨p, ⟨hdegree, heval⟩, -⟩ := existsUnique_polynomial hfirst v
    refine ⟨p, hdegree, fun j hj => ?_⟩
    by_cases hjk : j < k
    · exact heval j hjk
    · have hcheck := hpassed (j - k) (by omega)
      rw [apply_parityMatrix v (by omega), Nat.sub_add_cancel (by omega)] at hcheck
      rw [hbounded.interpolate hclear hkc hinj hdegree hj, ← CharTwo.add_eq_zero.mp hcheck]
      apply Finset.sum_congr rfl
      intro r hr
      rw [heval r (Finset.mem_range.mp hr)]
  · rintro ⟨p, hdegree, heval⟩ i hi
    rw [← parityMatrix_standard hbounded hclear hkc hinj hdegree hi]
    apply Finset.sum_congr rfl
    intro j hj
    beta_reduce
    rw [heval j (Finset.mem_range.mp hj)]

end Checks

section Detection

variable {required total size : ℕ} {f : Fec} {shares : List Share}

/-- At every byte position the shares are values of one polynomial. -/
def Agrees (required size : ℕ) (shares : List Share) : Prop :=
  ∀ t < size, ∃ p : Polynomial Gf, p.degree < required ∧
    ∀ s ∈ shares, p.eval (point s.number) = byte s.data t

theorem Received.sorted (h : Received f size shares) :
    Received f size (sortByKey (·.number) shares) := by
  have hperm := sortByKey_perm (·.number) shares
  exact ⟨(pairwise_sorted h.nodup).imp fun h => h.ne, fun s hs => h.lt s (hperm.mem_iff.mp hs),
    fun s hs => h.length s (hperm.mem_iff.mp hs)⟩

/-- The shares agree at a position exactly if they pass all checks there. -/
theorem syndrome_iff (hnew : new required total = some f) (hshares : Received f size shares)
    (hsorted : (shares.map (·.number)).Pairwise (· < ·)) (henough : required ≤ shares.length)
    (t : ℕ) :
    (∀ i < shares.length - required,
      apply shares.length (f.syndromeMatrix shares).1
        (fun j => byte ((shares[j]?.map (·.data)).getD []) t) i = 0) ↔
      ∃ p : Polynomial Gf, p.degree < required ∧
        ∀ s ∈ shares, p.eval (point s.number) = byte s.data t := by
  obtain ⟨⟨hpos, hlt, hle⟩, hf⟩ := new_eq hnew
  have hrequired := required_of_new hnew
  have htotal := total_of_new hnew
  have hvand : f.vandMatrix = newVandMatrix := by rw [hf]
  have hinj := injOn_point_number hshares.nodup fun s hs =>
    lt_of_lt_of_le (hshares.lt s hs) (htotal ▸ hle)
  obtain ⟨hbounded, hclear⟩ := standardizeMatrix_spec
    (graded_newVandMatrix (fun j => (shares.map (·.number)).getD j 0) shares.length required)
    henough hinj
  unfold syndromeMatrix
  rw [keepers_eq hsorted hshares.lt, hrequired, hvand,
    checks_iff hbounded hclear henough hinj fun j => byte ((shares[j]?.map (·.data)).getD []) t]
  apply exists_congr
  intro p
  apply and_congr_right'
  constructor
  · intro heval s hs
    obtain ⟨j, hj, rfl⟩ := List.mem_iff_getElem.mp hs
    have hvalue := heval j hj
    beta_reduce at hvalue
    rwa [getD_number hj, List.getElem?_eq_getElem hj, Option.map_some, Option.getD_some] at hvalue
  · intro heval j hj
    rw [getD_number hj, List.getElem?_eq_getElem hj, Option.map_some, Option.getD_some]
    exact heval _ (List.getElem_mem hj)


theorem agrees_iff (hnew : new required total = some f) (hshares : Received f size shares)
    (hsorted : (shares.map (·.number)).Pairwise (· < ·)) (henough : required ≤ shares.length) :
    Agrees required size shares ↔
      ∀ i < shares.length - required, f.failing size shares i = [] := by
  constructor
  · intro hagrees i hi
    rw [failing_eq_nil_iff hshares]
    intro t ht
    exact (syndrome_iff hnew hshares hsorted henough t).mpr (hagrees t ht) i hi
  · intro hpassed t ht
    rw [← syndrome_iff hnew hshares hsorted henough t]
    intro i hi
    exact (failing_eq_nil_iff hshares i).mp (hpassed i hi) t ht

/-- The rounds change nothing as long as all checks pass. After the first that does
not, all shares are marked. -/
theorem rounds_cases {allocs : Resources} (hle : f.total ≤ 256) (hshares : Received f size shares)
    (hsize : allocs.shareLen = size) {r : ℕ} {out : List Share}
    (h : loop (f.correctRow allocs (f.syndromeMatrix shares).1 shares.length) (List.range r) shares =
      .ok out) :
    (∀ i < r, f.failing size shares i = []) ∨
      out.map (·.number) = (shares.map (·.number)).map (usizeMax - ·) := by
  have hlt : ∀ n ∈ shares.map (·.number), n < f.total := by
    intro n hn
    obtain ⟨s, hs, rfl⟩ := List.mem_map.mp hn
    exact hshares.lt s hs
  have hlast := loop_invariant (P := fun left s =>
      (s = shares ∧ ∀ i < r, i ∉ left → f.failing size shares i = []) ∨
        s.map Share.number = (shares.map (·.number)).map (usizeMax - ·)) h
    (.inl ⟨rfl, fun i hi hout => absurd (List.mem_range.mpr hi) hout⟩) (by
      rintro i left s t (⟨rfl, hbefore⟩ | hmarked) hround
      · rcases correctRow_cases hlt hle (.inl rfl) hround with ⟨hsame, hnone⟩ | hmarks
        · rw [hsize] at hnone
          refine .inl ⟨hsame, fun j hj hleft => ?_⟩
          by_cases hji : j = i
          · rw [hji]
            exact hnone
          · exact hbefore j hj (by simp [hji, hleft])
        · exact .inr hmarks
      · rcases correctRow_cases hlt hle (.inr hmarked) hround with ⟨hsame, -⟩ | hmarks
        · rw [hsame]
          exact .inr hmarked
        · exact .inr hmarks)
  rcases hlast with ⟨-, hall⟩ | hmarked
  · exact .inl fun i hi => hall i hi List.not_mem_nil
  · exact .inr hmarked

/-- A failed check ends with an error. -/
theorem passed_of_correct {allocs : Resources} (hle : f.total ≤ 256)
    (hshares : Received f size shares) (hsize : allocs.shareLen = size) (hpos : shares ≠ [])
    {out : List Share} (h : f.correct shares true allocs = .ok out) :
    ∀ i < shares.length - f.required, f.failing size shares i = [] := by
  have hlt : ∀ n ∈ shares.map (·.number), n < f.total := by
    intro n hn
    obtain ⟨s, hs, rfl⟩ := List.mem_map.mp hn
    exact hshares.lt s hs
  simp only [correct] at h
  split at h
  · cases h
  · next last hloop =>
    rcases rounds_cases hle hshares hsize hloop with hpassed | hmarked
    · simpa [syndromeMatrix, parityMatrix] using hpassed
    · exfalso
      have hperm := sortByKey_perm (·.number) last
      have hbig : ∀ s ∈ sortByKey (·.number) last, f.total ≤ s.number := by
        intro s hs
        apply (unmark hle hlt).2
        rw [← hmarked]
        exact List.mem_map_of_mem (hperm.mem_iff.mp hs)
      have hlength : (sortByKey (·.number) last).length = shares.length := by
        have hcount := congrArg List.length hmarked
        rw [List.length_map, List.length_map, List.length_map] at hcount
        rw [hperm.length_eq, hcount]
      have hnone : (sortByKey (·.number) last).takeWhile (fun s => s.number < f.total) = [] := by
        rw [List.takeWhile_eq_nil_iff]
        intro hnonempty
        have hfirst := hbig _ (List.getElem_mem hnonempty)
        simpa using hfirst
      have hcount := List.length_pos_of_ne_nil hpos
      rw [hnone, hlength, if_pos (by simpa using hcount.ne)] at h
      cases h

/-- Shares are accepted exactly if they agree with a codeword, and then they are
not changed. -/
theorem correct_detects (hnew : new required total = some f) (hshares : Received f size shares)
    (hcount : required + 2 ≤ shares.length) :
    ∃ allocs sorted, Resources.new f.required shares = .ok (allocs, sorted) ∧
      sorted.Perm shares ∧
      ((∃ out, f.correct sorted true allocs = .ok out) ↔ Agrees required size shares) ∧
      ∀ out, f.correct sorted true allocs = .ok out → out = sorted := by
  obtain ⟨⟨hpos, hlt, hle⟩, -⟩ := new_eq hnew
  have hrequired := required_of_new hnew
  have htotal := total_of_new hnew
  have hperm := sortByKey_perm (·.number) shares
  have hsorted := pairwise_sorted hshares.nodup
  have hreceived := hshares.sorted
  have hlength := hperm.length_eq
  have hagrees : Agrees required size (sortByKey (·.number) shares) ↔
      Agrees required size shares := by
    unfold Agrees
    simp only [hperm.mem_iff]
  have hiff := agrees_iff hnew hreceived hsorted (by omega)
  have hback : ∀ out, f.correct (sortByKey (·.number) shares) true
      ⟨size, (shares.length - required) / 2, (shares.length - required) / 2 + required⟩ = .ok out →
      Agrees required size (sortByKey (·.number) shares) := by
    intro out hout
    rw [hiff, ← hrequired]
    apply passed_of_correct (by omega) hreceived rfl _ hout
    intro hnil
    rw [hnil, List.length_nil] at hlength
    omega
  have hok : Agrees required size (sortByKey (·.number) shares) →
      f.correct (sortByKey (·.number) shares) true
        ⟨size, (shares.length - required) / 2, (shares.length - required) / 2 + required⟩ =
          .ok (sortByKey (·.number) shares) := by
    intro h
    apply correct_of_passed hreceived hsorted true rfl
    rw [hrequired]
    exact hiff.mp h
  refine ⟨⟨size, (shares.length - required) / 2, (shares.length - required) / 2 + required⟩, _, ?_,
    hperm, ?_, ?_⟩
  · rw [hrequired]
    exact resources_new hshares hcount
  · rw [← hagrees]
    exact ⟨fun ⟨out, hout⟩ => hback out hout, fun h => ⟨_, hok h⟩⟩
  · intro out hout
    exact (Except.ok.inj ((hok (hback out hout)).symm.trans hout)).symm

end Detection

/-- One block of data, whose three shares should be equal. -/
theorem correct_detects_three : ∃ f, new 1 3 = some f ∧
    ∃ allocs sorted, Resources.new f.required [⟨2, [1]⟩, ⟨0, [1]⟩, ⟨1, [5]⟩] = .ok (allocs, sorted) ∧
      sorted.Perm [⟨2, [1]⟩, ⟨0, [1]⟩, ⟨1, [5]⟩] ∧
      ((∃ out, f.correct sorted true allocs = .ok out) ↔
        Agrees 1 1 [⟨2, [1]⟩, ⟨0, [1]⟩, ⟨1, [5]⟩]) ∧
      ∀ out, f.correct sorted true allocs = .ok out → out = sorted := by
  have hnew : new 1 3 = some ⟨1, 3, newEncMatrix 1, newVandMatrix⟩ := rfl
  refine ⟨_, hnew, correct_detects hnew ⟨by decide, fun s hs => ?_, fun s hs => ?_⟩ le_rfl⟩
  · fin_cases hs <;> decide
  · fin_cases hs <;> rfl

end OrionNetwork.Fec
