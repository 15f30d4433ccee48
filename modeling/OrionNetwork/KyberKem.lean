import OrionNetwork.KyberDecryption

/-!
# Encapsulation of a shared secret

The random bytes of an encryption are derived from the message and the public key, so
that the holder of the secret key can encrypt again what it decrypted. It gives out the
shared secret only where that leads to the ciphertext it was sent.
-/
namespace OrionNetwork.Kyber

open CheckedIntegers

namespace Kem

structure Hashes extends Kyber.Hashes where
  sha3_256 : List UInt8 → Bytes 32

variable (h : Hashes) (rounds : ℕ)

def hashH (input : List UInt8) : Bytes 32 := h.sha3_256 input

def hashG (input : List UInt8) : Bytes 64 := h.sha3 input

/-- `try_into().unwrap()` of a slice. -/
def fixed (n : ℕ) (l : List UInt8) : Except Trap (Bytes n) :=
  if hlength : l.length = n then .ok ⟨l, hlength⟩ else .error .exhausted

def verify (a b : List UInt8) : Bool :=
  (a.zip b).foldl (fun acc p => acc ||| (p.1 ^^^ p.2)) 0 == 0

def keypairDerand (coins : Bytes 64) : Except Trap (List UInt8) := do
  let seed ← fixed 32 (coins.val.take 32)
  let (pk, sk) ← Kyber.keypairDerand h.toHashes rounds seed
  let pkHash := hashH h pk
  let z ← fixed 32 (coins.val.drop 32)
  return sk ++ pk ++ pkHash.val ++ z.val

def encDerand (pk : Bytes 1184) (coins : Bytes 32) : Except Trap (List UInt8 × List UInt8) := do
  let hash := hashH h pk.val
  let kr := hashG h (coins.val ++ hash.val)
  let r ← fixed 32 (kr.val.drop 32)
  let ct ← enc h.toHashes rounds coins pk r
  return (ct, kr.val.take 32)

def dec (ct : Bytes 1088) (sk : Bytes 2400) : Except Trap (Option (List UInt8)) := do
  let indcpaSk ← fixed 1152 (sk.val.take 1152)
  let pk ← fixed 1184 ((sk.val.drop 1152).take 1184)
  let pkHash := (sk.val.drop 2336).take 32
  let msg ← Kyber.dec ct indcpaSk
  let msg ← fixed 32 msg
  let kr := hashG h (msg.val ++ pkHash)
  let r ← fixed 32 (kr.val.drop 32)
  let cyphertext ← enc h.toHashes rounds msg pk r
  return if verify ct.val cyphertext then some (kr.val.take 32) else none

/-- `publickey` of a key pair. -/
def publickey (keypair : Bytes 2400) : Except Trap (Bytes 1184) :=
  fixed 1184 ((keypair.val.drop 1152).take 1184)

end Kem

open Kem

theorem fixed_eq {n : ℕ} {l : List UInt8} (hlength : l.length = n) :
    fixed n l = .ok ⟨l, hlength⟩ :=
  dif_pos hlength

theorem or_eq_zero_iff (a b : UInt8) : a ||| b = 0 ↔ a = 0 ∧ b = 0 := by
  constructor
  · intro h
    have hnat := congrArg UInt8.toNat h
    rw [UInt8.toNat_or] at hnat
    obtain ⟨ha, hb⟩ := Nat.or_eq_zero_iff.mp hnat
    exact ⟨UInt8.toNat_inj.mp ha, UInt8.toNat_inj.mp hb⟩
  · rintro ⟨rfl, rfl⟩
    rfl

/-- The differences are collected in one byte. -/
theorem foldl_or_eq_zero_iff {l : List (UInt8 × UInt8)} {acc : UInt8} :
    l.foldl (fun acc p => acc ||| (p.1 ^^^ p.2)) acc = 0 ↔ acc = 0 ∧ ∀ p ∈ l, p.1 = p.2 := by
  induction l generalizing acc with
  | nil => simp
  | cons p l ih =>
    rw [List.foldl_cons, ih, or_eq_zero_iff, List.forall_mem_cons, and_assoc, UInt8.xor_eq_zero_iff]

theorem verify_iff {a b : List UInt8} (hlength : a.length = b.length) :
    verify a b = true ↔ a = b := by
  unfold verify
  rw [beq_iff_eq, foldl_or_eq_zero_iff]
  constructor
  · rintro ⟨-, h⟩
    refine List.ext_getElem hlength fun i hi hi' => ?_
    have hmem : (a[i], b[i]) ∈ a.zip b := by
      rw [← List.getElem_zip (h := by rw [List.length_zip]; exact lt_min hi hi')]
      exact List.getElem_mem _
    exact h _ hmem
  · rintro rfl
    refine ⟨rfl, fun p hp => ?_⟩
    obtain ⟨i, hi, rfl⟩ := List.getElem_of_mem hp
    rw [List.getElem_zip]

section Keys

variable {h : Kem.Hashes} {rounds : ℕ} {keypair : Bytes 2400} {sk : Bytes 1152} {pk : Bytes 1184}
  {pkHash z : Bytes 32}

/-- What the bytes of a key pair are made of. -/
structure Parts (keypair : Bytes 2400) (sk : Bytes 1152) (pk : Bytes 1184) (pkHash z : Bytes 32) :
    Prop where
  bytes : keypair.val = sk.val ++ (pk.val ++ (pkHash.val ++ z.val))

theorem Parts.sk_eq (hparts : Parts keypair sk pk pkHash z) :
    fixed 1152 (keypair.val.take 1152) = .ok sk := by
  rw [hparts.bytes, List.take_left' sk.property, fixed_eq sk.property]

theorem Parts.pk_eq (hparts : Parts keypair sk pk pkHash z) :
    fixed 1184 ((keypair.val.drop 1152).take 1184) = .ok pk := by
  rw [hparts.bytes, List.drop_left' sk.property, List.take_left' pk.property,
    fixed_eq pk.property]

theorem Parts.pkHash_eq (hparts : Parts keypair sk pk pkHash z) :
    (keypair.val.drop 2336).take 32 = pkHash.val := by
  have hlength : (sk.val ++ pk.val).length = 2336 := by
    rw [List.length_append, sk.property, pk.property]
  rw [hparts.bytes, ← List.append_assoc, List.drop_left' hlength, List.take_left' pkHash.property]

theorem exists_parts (keypair : Bytes 2400) : ∃ sk pk pkHash z, Parts keypair sk pk pkHash z := by
  have hlength := keypair.property
  refine ⟨⟨keypair.val.take 1152, ?_⟩, ⟨(keypair.val.drop 1152).take 1184, ?_⟩,
    ⟨((keypair.val.drop 1152).drop 1184).take 32, ?_⟩,
    ⟨((keypair.val.drop 1152).drop 1184).drop 32, ?_⟩, ⟨?_⟩⟩
  · rw [List.length_take]
    omega
  · rw [List.length_take, List.length_drop]
    omega
  · rw [List.length_take, List.length_drop, List.length_drop]
    omega
  · rw [List.length_drop, List.length_drop, List.length_drop]
    omega
  · rw [List.take_append_drop, List.take_append_drop, List.take_append_drop]

/-- The two halves of the hash. -/
theorem halves_eq {kr : Bytes 64} {ss : List UInt8} {r : Bytes 32} (hkr : kr.val = ss ++ r.val) :
    kr.val.take 32 = ss ∧ fixed 32 (kr.val.drop 32) = .ok r := by
  have hlength : ss.length = 32 := by
    have hsum := congrArg List.length hkr
    rw [kr.property, List.length_append, r.property] at hsum
    omega
  rw [hkr, List.take_left' hlength, List.drop_left' hlength, fixed_eq r.property]
  exact ⟨rfl, rfl⟩

theorem exists_halves (kr : Bytes 64) : ∃ (ss : List UInt8) (r : Bytes 32), kr.val = ss ++ r.val :=
  ⟨kr.val.take 32, ⟨kr.val.drop 32, by rw [List.length_drop, kr.property]⟩,
    (List.take_append_drop 32 kr.val).symm⟩

theorem length_enc {m coins : Bytes 32} {ct : List UInt8}
    (henc : enc h.toHashes rounds m pk coins = .ok ct) : ct.length = 1088 := by
  rw [enc_eq_bind] at henc
  cases hpolys : encPolys h.toHashes rounds m pk coins with
  | error e =>
    rw [hpolys] at henc
    cases henc
  | ok p =>
    rw [hpolys] at henc
    obtain ⟨hb, hv⟩ := encPolys_small hpolys
    exact ((packCiphertext_spec (hb.mono (by norm_num)) (hv.mono (by norm_num))).of_ok henc).1

/-- A ciphertext is accepted where it is the encryption of what it decrypts to, with the random
bytes that follow from the message and the key. -/
theorem kem_dec_eq_some_iff (hparts : Parts keypair sk pk pkHash z) {ct : Bytes 1088}
    {ss : List UInt8} : Kem.dec h rounds ct keypair = .ok (some ss) ↔
      ∃ msg r : Bytes 32, Kyber.dec ct sk = .ok msg.val ∧
        (hashG h (msg.val ++ pkHash.val)).val = ss ++ r.val ∧
          enc h.toHashes rounds msg pk r = .ok ct.val := by
  obtain ⟨m, hm, hmlength⟩ := dec_yields ct sk
  obtain ⟨share, r, hkr⟩ := exists_halves (hashG h (m ++ pkHash.val))
  obtain ⟨hshare, hr⟩ := halves_eq hkr
  have hrun : Kem.dec h rounds ct keypair = (do
      let cyphertext ← enc h.toHashes rounds ⟨m, hmlength⟩ pk r
      return if verify ct.val cyphertext then some share else none) := by
    unfold Kem.dec
    simp only [hparts.sk_eq, hparts.pk_eq, hparts.pkHash_eq, hm, bind, Except.bind,
      fixed_eq hmlength, hshare, hr]
  rw [hrun]
  constructor
  · intro hdec
    cases henc : enc h.toHashes rounds ⟨m, hmlength⟩ pk r with
    | error e =>
      rw [henc] at hdec
      cases hdec
    | ok cyphertext =>
      rw [henc] at hdec
      have hresult : (if verify ct.val cyphertext then some share else none) = some ss :=
        Except.ok.inj hdec
      split_ifs at hresult with hverify
      rw [verify_iff (ct.property.trans (length_enc henc).symm)] at hverify
      refine ⟨⟨m, hmlength⟩, r, hm, ?_, hverify ▸ henc⟩
      rw [← Option.some.inj hresult]
      exact hkr
  · rintro ⟨msg, r', hmsg, hkr', henc⟩
    rw [hm, Except.ok.injEq] at hmsg
    subst hmsg
    obtain ⟨hss, hr'⟩ := halves_eq hkr'
    rw [hr, Except.ok.injEq] at hr'
    rw [hshare] at hss
    subst hss hr'
    have hself : verify ct.val ct.val = true := (verify_iff rfl).mpr rfl
    have hcoe : (⟨msg.val, hmlength⟩ : Bytes 32) = msg := rfl
    rw [hcoe, henc]
    exact congrArg Except.ok (if_pos hself)

/-- With one key pair, a message is accepted in one ciphertext only. -/
theorem kem_dec_unique (hparts : Parts keypair sk pk pkHash z) {ct ct' : Bytes 1088}
    {ss ss' : List UInt8} (hct : Kem.dec h rounds ct keypair = .ok (some ss))
    (hct' : Kem.dec h rounds ct' keypair = .ok (some ss'))
    (hmsg : Kyber.dec ct sk = Kyber.dec ct' sk) : ct = ct' ∧ ss = ss' := by
  obtain ⟨msg, r, hm, hkr, henc⟩ := (kem_dec_eq_some_iff hparts).mp hct
  obtain ⟨msg', r', hm', hkr', henc'⟩ := (kem_dec_eq_some_iff hparts).mp hct'
  rw [hm, hm', Except.ok.injEq] at hmsg
  obtain rfl := Subtype.ext hmsg
  obtain ⟨rfl, hr⟩ := List.append_inj' (hkr.symm.trans hkr') (by rw [r.property, r'.property])
  obtain rfl := Subtype.ext hr
  rw [henc, Except.ok.injEq] at henc'
  exact ⟨Subtype.ext henc', rfl⟩

theorem length_keys {h : Hashes} {coins : Bytes 32} {pk sk : List UInt8}
    (hkeys : Kyber.keypairDerand h rounds coins = .ok (pk, sk)) :
    pk.length = 1184 ∧ sk.length = 1152 := by
  obtain ⟨a, s, e, ha, -⟩ := keypairDerand_spec hkeys
  obtain ⟨hlength, hrows⟩ := expandMatrix_small ha
  exact (keypairDerand_yields ha hlength hrows).of_ok hkeys

theorem keypairDerand_eq {coins : Bytes 64} {seed z : Bytes 32}
    (hcoins : coins.val = seed.val ++ z.val) :
    Kem.keypairDerand h rounds coins = (do
      let keys ← Kyber.keypairDerand h.toHashes rounds seed
      return keys.2 ++ keys.1 ++ (hashH h keys.1).val ++ z.val) := by
  unfold Kem.keypairDerand
  rw [hcoins, List.take_left' seed.property, List.drop_left' seed.property,
    fixed_eq seed.property, fixed_eq z.property]
  rfl

theorem encDerand_eq {m r : Bytes 32} {ss : List UInt8}
    (hkr : (hashG h (m.val ++ (hashH h pk.val).val)).val = ss ++ r.val) :
    Kem.encDerand h rounds pk m = (do
      let ct ← enc h.toHashes rounds m pk r
      return (ct, ss)) := by
  obtain ⟨hss, hr⟩ := halves_eq hkr
  unfold Kem.encDerand
  simp only [hr, hss, bind, Except.bind]

/-- The parts of a generated key pair. -/
theorem parts_of_keypairDerand {coins : Bytes 64}
    (hkeys : Kem.keypairDerand h rounds coins = .ok keypair.val) :
    ∃ seed z : Bytes 32, coins.val = seed.val ++ z.val ∧ ∃ (sk : Bytes 1152) (pk : Bytes 1184),
      Kyber.keypairDerand h.toHashes rounds seed = .ok (pk.val, sk.val) ∧
        Parts keypair sk pk (hashH h pk.val) z := by
  have hseed : (coins.val.take 32).length = 32 := by
    rw [List.length_take, coins.property]
    rfl
  have hz : (coins.val.drop 32).length = 32 := by rw [List.length_drop, coins.property]
  have hcoins : coins.val = (⟨_, hseed⟩ : Bytes 32).val ++ (⟨_, hz⟩ : Bytes 32).val :=
    (List.take_append_drop 32 coins.val).symm
  refine ⟨⟨_, hseed⟩, ⟨_, hz⟩, hcoins, ?_⟩
  rw [keypairDerand_eq hcoins] at hkeys
  cases hok : Kyber.keypairDerand h.toHashes rounds ⟨_, hseed⟩ with
  | error e =>
    rw [hok] at hkeys
    cases hkeys
  | ok keys =>
    obtain ⟨pk, sk⟩ := keys
    rw [hok] at hkeys
    obtain ⟨hpk, hsk⟩ := length_keys hok
    refine ⟨⟨sk, hsk⟩, ⟨pk, hpk⟩, rfl, ⟨?_⟩⟩
    rw [← Except.ok.inj hkeys, List.append_assoc, List.append_assoc]

/-- The shared secret arrives where the noise of the encryption is tolerated. -/
theorem kem_dec_enc {coins : Bytes 64} {m : Bytes 32} {ct : Bytes 1088} {ss : List UInt8}
    (hkeys : Kem.keypairDerand h rounds coins = .ok keypair.val)
    (hpk : publickey keypair = .ok pk) (henc : Kem.encDerand h rounds pk m = .ok (ct.val, ss)) :
    ∃ (seed z r : Bytes 32) (x : Exchange), coins.val = seed.val ++ z.val ∧
      (hashG h (m.val ++ (hashH h pk.val).val)).val = ss ++ r.val ∧
      x.Runs h.toHashes rounds seed m r pk ct ∧
      ((∀ i < N, Tolerated ((messageBits m.val).getD i false) (coeffAt x.noise i)) →
        Kem.dec h rounds ct keypair = .ok (some ss)) := by
  obtain ⟨seed, z, hcoins, sk, pk', hkeys, hparts⟩ := parts_of_keypairDerand hkeys
  rw [publickey, hparts.pk_eq, Except.ok.injEq] at hpk
  subst hpk
  obtain ⟨share, r, hkr⟩ := exists_halves (hashG h (m.val ++ (hashH h pk'.val).val))
  rw [encDerand_eq hkr] at henc
  cases hok : enc h.toHashes rounds m pk' r with
  | error e =>
    rw [hok] at henc
    cases henc
  | ok c =>
    rw [hok] at henc
    obtain ⟨rfl, rfl⟩ := Prod.mk.inj (Except.ok.inj henc)
    obtain ⟨x, hx, hiff⟩ := dec_enc_iff hkeys hok
    refine ⟨seed, z, r, x, hcoins, hkr, hx, fun htolerated => ?_⟩
    exact (kem_dec_eq_some_iff hparts).mpr ⟨m, r, hiff.mpr htolerated, hkr, hok⟩

def zeroKemHashes : Kem.Hashes := ⟨zeroHashes, fun _ => zeroBytes 32⟩

theorem exists_zero_keypair : ∃ (keypair : Bytes 2400) (sk : Bytes 1152) (pk : Bytes 1184)
    (ct : Bytes 1088), Kem.keypairDerand zeroKemHashes 0 (zeroBytes 64) = .ok keypair.val ∧
      Parts keypair sk pk (zeroBytes 32) (zeroBytes 32) ∧
        Kem.encDerand zeroKemHashes 0 pk (zeroBytes 32) = .ok (ct.val, (zeroBytes 32).val) := by
  obtain ⟨pk, sk, ct, hkeys, henc⟩ := exists_zero_exchange
  have hlength : (sk.val ++ pk.val ++ (zeroBytes 32).val ++ (zeroBytes 32).val).length = 2400 := by
    rw [List.length_append, List.length_append, List.length_append, sk.property, pk.property,
      (zeroBytes 32).property]
  refine ⟨⟨_, hlength⟩, sk, pk, ct, ?_, ⟨?_⟩, ?_⟩
  · have hcoins : (zeroBytes 64).val = (zeroBytes 32).val ++ (zeroBytes 32).val := by decide
    rw [keypairDerand_eq hcoins]
    change (Kyber.keypairDerand zeroHashes 0 (zeroBytes 32) >>= _) = _
    rw [hkeys]
    rfl
  · change sk.val ++ pk.val ++ (zeroBytes 32).val ++ (zeroBytes 32).val = _
    rw [List.append_assoc, List.append_assoc]
  · have hkr : (hashG zeroKemHashes ((zeroBytes 32).val ++ (hashH zeroKemHashes pk.val).val)).val =
        (zeroBytes 32).val ++ (zeroBytes 32).val := by
      change (zeroBytes 64).val = _
      decide
    rw [encDerand_eq hkr]
    change (enc zeroHashes 0 (zeroBytes 32) pk (zeroBytes 32) >>= _) = _
    rw [henc]
    rfl

theorem kem_dec_eq_some_iff_zero : ∃ (keypair : Bytes 2400) (sk : Bytes 1152) (pk : Bytes 1184)
    (ct : Bytes 1088), Kem.dec zeroKemHashes 0 ct keypair = .ok (some (zeroBytes 32).val) ↔
      ∃ msg r : Bytes 32, Kyber.dec ct sk = .ok msg.val ∧
        (hashG zeroKemHashes (msg.val ++ (zeroBytes 32).val)).val = (zeroBytes 32).val ++ r.val ∧
          enc zeroHashes 0 msg pk r = .ok ct.val := by
  obtain ⟨keypair, sk, pk, ct, -, hparts, -⟩ := exists_zero_keypair
  exact ⟨keypair, sk, pk, ct, kem_dec_eq_some_iff hparts⟩

theorem kem_dec_enc_zero : ∃ (keypair : Bytes 2400) (pk : Bytes 1184) (ct : Bytes 1088)
    (seed z r : Bytes 32) (x : Exchange), (zeroBytes 64).val = seed.val ++ z.val ∧
      (hashG zeroKemHashes ((zeroBytes 32).val ++ (hashH zeroKemHashes pk.val).val)).val =
        (zeroBytes 32).val ++ r.val ∧
      x.Runs zeroHashes 0 seed (zeroBytes 32) r pk ct ∧
      ((∀ i < N, Tolerated ((messageBits (zeroBytes 32).val).getD i false) (coeffAt x.noise i)) →
        Kem.dec zeroKemHashes 0 ct keypair = .ok (some (zeroBytes 32).val)) := by
  obtain ⟨keypair, sk, pk, ct, hkeys, hparts, henc⟩ := exists_zero_keypair
  obtain ⟨seed, z, r, x, h⟩ := kem_dec_enc hkeys hparts.pk_eq henc
  exact ⟨keypair, pk, ct, seed, z, r, x, h⟩

end Keys

end OrionNetwork.Kyber
