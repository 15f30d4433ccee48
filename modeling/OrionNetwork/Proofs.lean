import OrionNetwork.ChatReplica
import OrionNetwork.CodecTypes

/-!
# Proofs of authorship

A proof is a signature of 40 bytes, a hash that stands for its context and a
nonce. The name of a chat and the content of a vault are hashed as they are, so
the signed bytes do not tell them apart, and the action that a proof is sent
along with is not part of them. The hash function and the signature scheme are
parameters.
-/
namespace OrionNetwork.Proofs
open Codec BlockHash ChatReplica

/-- `CHAT_NAME_CAP` bytes at most. -/
abbrev ChatName := ArrayString 32

structure Proof (T : Type) where
  pk : Bytes
  nonce : Nonce
  signature : Bytes
  context : T

/-- What proofs are made for. -/
inductive ProofContext where
  | chatName (name : ChatName)
  | reminder (vault : Bytes)
  | slice (vault : Bytes)
  | mail

/-- `[0xff - 1; CHAT_NAME_CAP]`. -/
def mailMarker : Hash := ⟨List.replicate 32 (0xff - 1), by simp⟩

def toProofContext (host : Host) : ProofContext → Hash
  | .chatName name => host.blake3 (asBytes name.val)
  | .reminder vault => host.blake3 vault
  | .slice vault => host.blake3 vault
  | .mail => mailMarker

def toBeBytes (n : UInt64) : Bytes :=
  [UInt8.ofNat (n.toNat / 2 ^ 56), UInt8.ofNat (n.toNat / 2 ^ 48), UInt8.ofNat (n.toNat / 2 ^ 40),
    UInt8.ofNat (n.toNat / 2 ^ 32), UInt8.ofNat (n.toNat / 2 ^ 24), UInt8.ofNat (n.toNat / 2 ^ 16),
    UInt8.ofNat (n.toNat / 2 ^ 8), UInt8.ofNat n.toNat]

def packPayload (nonce : Nonce) (context : Hash) : Bytes := context.bytes ++ toBeBytes nonce

/-- The signature scheme: public key, data, signature. -/
abbrev Verify := Bytes → Bytes → Bytes → Bool

def verify (host : Host) (scheme : Verify) (p : Proof ProofContext) : Bool :=
  scheme p.pk (packPayload p.nonce (toProofContext host p.context)) p.signature

theorem toBeBytes_injective {m n : UInt64} (h : toBeBytes m = toBeBytes n) : m = n := by
  have hm := m.toNat_lt
  have hn := n.toNat_lt
  simp only [toBeBytes, List.cons.injEq, and_true, ← UInt8.toNat_inj, UInt8.toNat_ofNat'] at h
  apply UInt64.toNat_inj.mp
  omega

/-- Both parts of the signed bytes can be read off them. -/
theorem packPayload_inj {m n : Nonce} {a b : Hash} (h : packPayload m a = packPayload n b) :
    a = b ∧ m = n := by
  unfold packPayload at h
  obtain ⟨hhash, hnonce⟩ := List.append_inj h (by rw [a.size, b.size])
  exact ⟨Hash.ext_bytes hhash, toBeBytes_injective hnonce⟩

/-- What a context is about. Vaults are passed in two ways. -/
inductive Subject where
  | chat (name : ChatName)
  | vault (content : Bytes)
  | mail

namespace ProofContext

def subject : ProofContext → Subject
  | chatName name => .chat name
  | reminder vault => .vault vault
  | slice vault => .vault vault
  | mail => .mail

/-- The bytes that are hashed for a subject, if any. -/
def hashed (c : ProofContext) : Option Bytes :=
  match c.subject with
  | .chat name => some (asBytes name.val)
  | .vault content => some content
  | .mail => none

/-- The vault of one context is the name of the other, or what the mail marker
stands for is hit by a hash. -/
def Clash (host : Host) (c c' : ProofContext) : Prop :=
  (∃ name, (c.subject = .chat name ∧ c'.subject = .vault (asBytes name.val)) ∨
    (c.subject = .vault (asBytes name.val) ∧ c'.subject = .chat name)) ∨
  ∃ bytes, ((c.subject = .mail ∧ c'.hashed = some bytes) ∨
    (c.hashed = some bytes ∧ c'.subject = .mail)) ∧ host.blake3 bytes = mailMarker

end ProofContext

theorem toProofContext_eq (host : Host) (c : ProofContext) :
    toProofContext host c = (c.hashed.map host.blake3).getD mailMarker := by
  cases c <;> rfl

theorem asBytes_injective {a b : ChatName} (h : asBytes a.val = asBytes b.val) : a = b := by
  have ha := fromUtf8_asBytes a.val
  rw [h, fromUtf8_asBytes] at ha
  exact Subtype.ext (Option.some.inj ha).symm

section Separation

variable {host : Host} {c c' : ProofContext}

theorem toProofContext_of_clash (h : ProofContext.Clash host c c') :
    toProofContext host c = toProofContext host c' ∧ c.subject ≠ c'.subject := by
  rw [toProofContext_eq, toProofContext_eq]
  unfold ProofContext.hashed
  rcases h with ⟨name, ⟨hc, hc'⟩ | ⟨hc, hc'⟩⟩ | ⟨bytes, ⟨hc, hc'⟩ | ⟨hc, hc'⟩, hbytes⟩
  · rw [hc, hc']
    exact ⟨rfl, nofun⟩
  · rw [hc, hc']
    exact ⟨rfl, nofun⟩
  · constructor
    · unfold ProofContext.hashed at hc'
      rw [hc, hc']
      exact hbytes.symm
    · intro heq
      unfold ProofContext.hashed at hc'
      rw [← heq, hc] at hc'
      cases hc'
  · constructor
    · unfold ProofContext.hashed at hc
      rw [hc, hc']
      exact hbytes
    · intro heq
      unfold ProofContext.hashed at hc
      rw [heq, hc'] at hc
      cases hc

/-- Without a collision of the hash function there is no other way. -/
theorem clash_of_toProofContext
    (hfree : ∀ x ∈ c.hashed, ∀ y ∈ c'.hashed, host.blake3 x = host.blake3 y → x = y)
    (heq : toProofContext host c = toProofContext host c') (hne : c.subject ≠ c'.subject) :
    ProofContext.Clash host c c' := by
  rw [toProofContext_eq, toProofContext_eq] at heq
  unfold ProofContext.Clash
  unfold ProofContext.hashed at hfree heq ⊢
  cases hc : c.subject with
  | mail =>
    cases hc' : c'.subject with
    | mail => exact absurd (hc.trans hc'.symm) hne
    | chat name =>
      rw [hc, hc'] at heq
      exact .inr ⟨_, .inl ⟨rfl, rfl⟩, heq.symm⟩
    | vault content =>
      rw [hc, hc'] at heq
      exact .inr ⟨_, .inl ⟨rfl, rfl⟩, heq.symm⟩
  | chat name =>
    cases hc' : c'.subject with
    | mail =>
      rw [hc, hc'] at heq
      exact .inr ⟨_, .inr ⟨rfl, rfl⟩, heq⟩
    | chat name' =>
      rw [hc, hc'] at heq hfree
      have hname := asBytes_injective (hfree _ rfl _ rfl heq)
      rw [hname, ← hc'] at hc
      exact absurd hc hne
    | vault content =>
      rw [hc, hc'] at heq hfree
      have hsame := hfree _ rfl _ rfl heq
      exact .inl ⟨name, .inl ⟨rfl, by rw [hsame]⟩⟩
  | vault content =>
    cases hc' : c'.subject with
    | mail =>
      rw [hc, hc'] at heq
      exact .inr ⟨_, .inr ⟨rfl, rfl⟩, heq⟩
    | chat name =>
      rw [hc, hc'] at heq hfree
      have hsame := hfree _ rfl _ rfl heq
      exact .inl ⟨name, .inr ⟨by rw [hsame], rfl⟩⟩
    | vault content' =>
      rw [hc, hc'] at heq hfree
      have hsame := hfree _ rfl _ rfl heq
      rw [hsame, ← hc'] at hc
      exact absurd hc hne

/-- The signed bytes tell two contexts apart exactly when the nonces differ or
the contexts do not clash. -/
theorem packPayload_separates_iff (m n : Nonce)
    (hfree : ∀ x ∈ c.hashed, ∀ y ∈ c'.hashed, host.blake3 x = host.blake3 y → x = y) :
    (packPayload m (toProofContext host c) = packPayload n (toProofContext host c') →
      c.subject = c'.subject ∧ m = n) ↔ ¬ (m = n ∧ ProofContext.Clash host c c') := by
  constructor
  · rintro hseparate ⟨rfl, hclash⟩
    obtain ⟨heq, hne⟩ := toProofContext_of_clash hclash
    exact hne (hseparate (by rw [heq])).1
  · intro hnot heq
    obtain ⟨hcontext, hnonce⟩ := packPayload_inj heq
    refine ⟨?_, hnonce⟩
    by_contra hne
    exact hnot ⟨hnonce, clash_of_toProofContext hfree hcontext hne⟩

end Separation

/-- BLAKE3 on the two inputs used below. -/
def sampleHost : Host where
  blake3 bytes :=
    if bytes = [97] then
      ⟨[23, 118, 47, 221, 217, 105, 164, 83, 146, 93, 101, 113, 122, 195, 238, 162, 19, 32, 182, 107,
        84, 52, 47, 222, 21, 18, 141, 108, 175, 33, 33, 95], rfl⟩
    else if bytes = [98] then
      ⟨[16, 229, 207, 61, 60, 138, 79, 159, 52, 104, 200, 204, 88, 238, 168, 72, 146, 162, 47, 218,
        219, 193, 172, 178, 36, 16, 25, 0, 68, 193, 213, 83], rfl⟩
    else Hash.zero
  overflowChecks := true

def nameA : ChatName := ⟨"a", by decide⟩

theorem asBytes_nameA : asBytes nameA.val = [97] := by decide

/-- The chat `a` and a vault that contains `b`. -/
theorem packPayload_separates_other :
    packPayload 7 (toProofContext sampleHost (.chatName nameA)) ≠
      packPayload 7 (toProofContext sampleHost (.reminder [98])) := by
  have hfree : ∀ x ∈ (ProofContext.chatName nameA).hashed,
      ∀ y ∈ (ProofContext.reminder [98]).hashed,
        sampleHost.blake3 x = sampleHost.blake3 y → x = y := by
    intro x hx y hy heq
    change some (asBytes nameA.val) = some x at hx
    change some [98] = some y at hy
    rw [asBytes_nameA] at hx
    cases hx
    cases hy
    exact absurd heq (by decide)
  have hapart : ¬ ((7 : Nonce) = 7 ∧
      ProofContext.Clash sampleHost (.chatName nameA) (.reminder [98])) := by
    rintro ⟨-, ⟨name, ⟨hc, hc'⟩ | ⟨hc, -⟩⟩ | ⟨bytes, ⟨hc, -⟩ | ⟨-, hc'⟩, -⟩⟩
    · change Subject.chat nameA = Subject.chat name at hc
      change Subject.vault [98] = Subject.vault (asBytes name.val) at hc'
      injection hc with hc
      subst hc
      rw [asBytes_nameA] at hc'
      exact absurd hc' nofun
    · cases hc
    · cases hc
    · cases hc'
  intro heq
  obtain ⟨hsubject, -⟩ := (packPayload_separates_iff 7 7 hfree).mpr hapart heq
  cases hsubject

/-- A proof for the chat `a` is one for a vault that contains `a`. -/
theorem packPayload_clashes :
    (∀ (scheme : Verify) (pk signature : Bytes),
      verify sampleHost scheme ⟨pk, 7, signature, .chatName nameA⟩ =
        verify sampleHost scheme ⟨pk, 7, signature, .reminder [97]⟩) ∧
    ¬ ∀ (host : Host) (c c' : ProofContext) (m n : Nonce),
      (∀ x ∈ c.hashed, ∀ y ∈ c'.hashed, host.blake3 x = host.blake3 y → x = y) →
      packPayload m (toProofContext host c) = packPayload n (toProofContext host c') →
      c.subject = c'.subject ∧ m = n := by
  have hcontext : toProofContext sampleHost (.chatName nameA) =
      toProofContext sampleHost (.reminder [97]) := by
    change sampleHost.blake3 (asBytes nameA.val) = sampleHost.blake3 [97]
    rw [asBytes_nameA]
  constructor
  · intro scheme pk signature
    unfold verify
    simp only [hcontext]
  · intro hclaim
    have hsame := hclaim sampleHost (.chatName nameA) (.reminder [97]) 7 7 ?_ (by rw [hcontext])
    · cases hsame.1
    · intro x hx y hy _
      change some (asBytes nameA.val) = some x at hx
      change some [97] = some y at hy
      rw [asBytes_nameA] at hx
      cases hx
      cases hy
      rfl

end OrionNetwork.Proofs
