import OrionNetwork.Replicated

/-!
# Protocols between clients and servers

The protocols a client uses, the wrappers their handlers are registered with and
the type a client decodes a reply with. Handlers that look up a record elsewhere
before they give up have an error of their own for that, which is written like
the first variant of the error they wrap.
-/
namespace OrionNetwork.Protocols
open Codec Replicated Rpc
open ChatReplica (ChatActionError Nonce)

inductive CreateAccountError where
  | invalidProof
  | alreadyExists
  deriving DecidableEq

inductive SetVaultError where
  | notFound
  | invalidProof
  | invalidAction
  deriving DecidableEq

inductive FetchVaultError where
  | notFound
  deriving DecidableEq

inductive ReadMailError where
  | notFound
  | invalidProof
  | invalidAction
  deriving DecidableEq

inductive SendMailError where
  | notFound
  | sentDirectly
  | sendingToSelf
  | mailboxFull
  deriving DecidableEq

inductive FetchProfileError where
  | notFound
  deriving DecidableEq

inductive CreateChatError where
  | alreadyExists
  deriving DecidableEq

inductive FetchMessagesError where
  | chatNotFound
  deriving DecidableEq

/-- What a handler that restores records answers when the topic is not its own. -/
inductive NotFoundError (Error : Type) where
  | notFound
  | inner (error : Error)
  deriving DecidableEq

section Codecs

variable {α Error : Type}

/-- An enum without fields. -/
def units {n : ℕ} (variants : α ≃ Fin n) : Codec α :=
  enum (variants.trans (Equiv.sigmaUnique (Fin n) fun _ => Unit).symm) fun _ => unit

theorem built_units {last : Bool} {n : ℕ} (hn : n ≤ 255) (variants : α ≃ Fin n) :
    Built last (units variants) :=
  .enum hn _ fun _ => .unit

def createAccountError : Codec CreateAccountError := units (n := 2) {
  toFun | .invalidProof => 0 | .alreadyExists => 1
  invFun | 0 => .invalidProof | 1 => .alreadyExists
  left_inv := by rintro (_ | _) <;> rfl
  right_inv := by decide }

def setVaultError : Codec SetVaultError := units (n := 3) {
  toFun | .notFound => 0 | .invalidProof => 1 | .invalidAction => 2
  invFun | 0 => .notFound | 1 => .invalidProof | 2 => .invalidAction
  left_inv := by rintro (_ | _ | _) <;> rfl
  right_inv := by decide }

def fetchVaultError : Codec FetchVaultError := units (n := 1) {
  toFun | .notFound => 0
  invFun _ := .notFound
  left_inv := by rintro ⟨⟩; rfl
  right_inv := by decide }

def readMailError : Codec ReadMailError := units (n := 3) {
  toFun | .notFound => 0 | .invalidProof => 1 | .invalidAction => 2
  invFun | 0 => .notFound | 1 => .invalidProof | 2 => .invalidAction
  left_inv := by rintro (_ | _ | _) <;> rfl
  right_inv := by decide }

def sendMailError : Codec SendMailError := units (n := 4) {
  toFun | .notFound => 0 | .sentDirectly => 1 | .sendingToSelf => 2 | .mailboxFull => 3
  invFun | 0 => .notFound | 1 => .sentDirectly | 2 => .sendingToSelf | 3 => .mailboxFull
  left_inv := by rintro (_ | _ | _ | _) <;> rfl
  right_inv := by decide }

def fetchProfileError : Codec FetchProfileError := units (n := 1) {
  toFun | .notFound => 0
  invFun _ := .notFound
  left_inv := by rintro ⟨⟩; rfl
  right_inv := by decide }

def createChatError : Codec CreateChatError := units (n := 1) {
  toFun | .alreadyExists => 0
  invFun _ := .alreadyExists
  left_inv := by rintro ⟨⟩; rfl
  right_inv := by decide }

def fetchMessagesError : Codec FetchMessagesError := units (n := 1) {
  toFun | .chatNotFound => 0
  invFun _ := .chatNotFound
  left_inv := by rintro ⟨⟩; rfl
  right_inv := by decide }

/-- Only the fifth variant has a field. -/
def ChatActionField : Fin 7 → Type
  | 4 => Nonce
  | _ => Unit

def chatActionVariants : ChatActionError ≃ Σ i, ChatActionField i where
  toFun
    | .chatNotFound => ⟨0, ()⟩
    | .invalidProof => ⟨1, ()⟩
    | .notMember => ⟨2, ()⟩
    | .alreadyMember => ⟨3, ()⟩
    | .invalidAction nonce => ⟨4, nonce⟩
    | .messageTooLarge => ⟨5, ()⟩
    | .messageBlockNotFinalized => ⟨6, ()⟩
  invFun
    | ⟨0, _⟩ => .chatNotFound
    | ⟨1, _⟩ => .invalidProof
    | ⟨2, _⟩ => .notMember
    | ⟨3, _⟩ => .alreadyMember
    | ⟨4, nonce⟩ => .invalidAction nonce
    | ⟨5, _⟩ => .messageTooLarge
    | ⟨6, _⟩ => .messageBlockNotFinalized
  left_inv := by rintro (_ | _ | _ | _ | _ | _ | _) <;> rfl
  right_inv := by
    rintro ⟨i, field⟩
    fin_cases i <;> rfl

def chatActionField : ∀ i, Codec (ChatActionField i)
  | 0 => unit
  | 1 => unit
  | 2 => unit
  | 3 => unit
  | 4 => u64
  | 5 => unit
  | 6 => unit

def chatActionError : Codec ChatActionError := enum chatActionVariants chatActionField

/-- Only the last variant has a field. -/
def ReplField (Error : Type) : Fin 4 → Type
  | 3 => Error
  | _ => Unit

def replVariants : ReplError Error ≃ Σ i, ReplField Error i where
  toFun
    | .noMajority => ⟨0, ()⟩
    | .invalidResponse => ⟨1, ()⟩
    | .invalidTopic => ⟨2, ()⟩
    | .inner error => ⟨3, error⟩
  invFun
    | ⟨0, _⟩ => .noMajority
    | ⟨1, _⟩ => .invalidResponse
    | ⟨2, _⟩ => .invalidTopic
    | ⟨3, error⟩ => .inner error
  left_inv := by rintro (_ | _ | _ | _) <;> rfl
  right_inv := by
    rintro ⟨i, field⟩
    fin_cases i <;> rfl

def replField (e : Codec Error) : ∀ i, Codec (ReplField Error i)
  | 0 => unit
  | 1 => unit
  | 2 => unit
  | 3 => e

def replError (e : Codec Error) : Codec (ReplError Error) := enum replVariants (replField e)

/-- The number of the variant is read but not written for an inner error. -/
def notFoundError (e : Codec Error) : Codec (NotFoundError Error) where
  encode
    | .notFound => [[0]]
    | .inner error => e.encode error
  decode
    | [] => none
    | byte :: buffer =>
      if byte = 0 then some (.notFound, buffer)
      else do
        let (error, buffer) ← e.decode buffer
        some (.inner error, buffer)

end Codecs

/-- The protocols a client dispatches. -/
inductive Protocol where
  | createChat
  | performChatAction
  | fetchMessages
  | setVault
  | sendMail
  | readMail
  | fetchProfile
  | fetchVault
  | createProfile
  deriving DecidableEq

structure Cursor where
  block : UInt64
  offset : UInt64

def cursor : Codec Cursor :=
  struct ⟨fun c => (c.block, c.offset), fun f => ⟨f.1, f.2⟩, fun _ => rfl, fun _ => rfl⟩
    (pair u64 usize)

/-- Serialized public keys. -/
structure FetchProfileResp where
  sign : List.Vector UInt8 929
  enc : List.Vector UInt8 1216

def fetchProfileResp : Codec FetchProfileResp :=
  struct ⟨fun r => (r.sign, r.enc), fun f => ⟨f.1, f.2⟩, fun _ => rfl, fun _ => rfl⟩
    (pair (array 929 u8) (array 1216 u8))

namespace Protocol

def Response : Protocol → Type
  | fetchMessages => Cursor × Bytes
  | readMail => Bytes
  | fetchProfile => FetchProfileResp
  | fetchVault => Nonce × Nonce × Bytes
  | createChat | performChatAction | setVault | sendMail | createProfile => Unit

def Error : Protocol → Type
  | createChat => CreateChatError
  | performChatAction => ChatActionError
  | fetchMessages => FetchMessagesError
  | setVault => SetVaultError
  | sendMail => SendMailError
  | readMail => ReadMailError
  | fetchProfile => FetchProfileError
  | fetchVault => FetchVaultError
  | createProfile => CreateAccountError

def response : ∀ p : Protocol, Codec p.Response
  | fetchMessages => pair cursor reminder
  | readMail => reminder
  | fetchProfile => fetchProfileResp
  | fetchVault => pair u64 (pair u64 reminder)
  | createChat | performChatAction | setVault | sendMail | createProfile => unit

def error : ∀ p : Protocol, Codec p.Error
  | createChat => createChatError
  | performChatAction => chatActionError
  | fetchMessages => fetchMessagesError
  | setVault => setVaultError
  | sendMail => sendMailError
  | readMail => readMailError
  | fetchProfile => fetchProfileError
  | fetchVault => fetchVaultError
  | createProfile => createAccountError

end Protocol

/-- The types around a protocol or its handler: `Retry<_>`, `Repl<_>`, both. -/
inductive Wrapper where
  | plain
  | retry
  | repl
  | replRetry

namespace Wrapper

def Error (E : Type) : Wrapper → Type
  | plain => E
  | retry => NotFoundError E
  | repl => ReplError E
  | replRetry => ReplError (NotFoundError E)

def error {E : Type} (e : Codec E) : ∀ w, Codec (Error E w)
  | plain => e
  | retry => notFoundError e
  | repl => replError e
  | replRetry => replError (notFoundError e)

end Wrapper

namespace Protocol

/-- How the handler is registered in `ExternalServer`. -/
def registered : Protocol → Wrapper
  | createProfile => .repl
  | setVault => .replRetry
  | sendMail => .replRetry
  | readMail => .replRetry
  | fetchProfile => .replRetry
  | fetchVault => .retry
  | createChat => .repl
  | performChatAction => .replRetry
  | fetchMessages => .plain

/-- What the client decodes: `dispatch` adds `Repl`, `dispatch_direct` does not. -/
def dispatched : Protocol → Wrapper
  | fetchVault => .plain
  | createChat | performChatAction | fetchMessages | setVault | sendMail | readMail
  | fetchProfile | createProfile => .repl

abbrev ServerResult (p : Protocol) := Except (Wrapper.Error p.Error p.registered) p.Response

abbrev ClientResult (p : Protocol) := Except (Wrapper.Error p.Error p.dispatched) p.Response

def serverCodec (p : Protocol) : Codec p.ServerResult :=
  result p.response (p.registered.error p.error)

def clientCodec (p : Protocol) : Codec p.ClientResult :=
  result p.response (p.dispatched.error p.error)

end Protocol

inductive RequestError (Error : Type) where
  | invalidResponse
  | channelClosed
  | serverIsOwervhelmed
  | handler (error : Error)

/-- The packet the server writes: the encoded result behind the call. -/
def reply (p : Protocol) (call : CallId) (res : p.ServerResult) : Bytes :=
  (pair usize reminder).toBytes (call, p.serverCodec.toBytes res)

def parseResponse (p : Protocol) (response : Bytes) :
    Except (RequestError (Wrapper.Error p.Error p.dispatched)) p.Response :=
  match (pair usize p.clientCodec).decode response with
  | none => .error .invalidResponse
  | some ((_, resp), _) => resp.mapError .handler

/-- The error of the handler read as one of the protocol. -/
def ownError {Error : Type} (notFound : Error) : NotFoundError Error → Error
  | .notFound => notFound
  | .inner error => error

def mapInner {E F : Type} (f : E → F) : ReplError E → ReplError F
  | .noMajority => .noMajority
  | .invalidResponse => .invalidResponse
  | .invalidTopic => .invalidTopic
  | .inner error => .inner (f error)

/-- The same error, as the client should see it. -/
def sameError : ∀ p : Protocol, Wrapper.Error p.Error p.registered →
    Wrapper.Error p.Error p.dispatched
  | .createChat => id
  | .performChatAction => mapInner (ownError ChatActionError.chatNotFound)
  | .fetchMessages => ReplError.inner
  | .setVault => mapInner (ownError SetVaultError.notFound)
  | .sendMail => mapInner (ownError SendMailError.notFound)
  | .readMail => mapInner (ownError ReadMailError.notFound)
  | .fetchProfile => mapInner (ownError FetchProfileError.notFound)
  | .fetchVault => ownError FetchVaultError.notFound
  | .createProfile => id

def sameResult (p : Protocol) : p.ServerResult → p.ClientResult
  | .ok r => .ok r
  | .error e => .error (sameError p e)

section Agreement

variable {E F R : Type}

theorem built_chatActionError {last : Bool} : Built last chatActionError := by
  apply Built.enum (by decide)
  intro i
  fin_cases i
  · exact .unit
  · exact .unit
  · exact .unit
  · exact .unit
  · exact .u64
  · exact .unit
  · exact .unit

theorem built_replError {last : Bool} {e : Codec E} (he : Built last e) :
    Built last (replError e) := by
  apply Built.enum (by decide)
  intro i
  fin_cases i
  · exact .unit
  · exact .unit
  · exact .unit
  · exact he

theorem built_error (p : Protocol) : Built true p.error := by
  cases p with
  | performChatAction => exact built_chatActionError
  | _ => exact built_units (by decide) _

theorem built_response (p : Protocol) : Built true p.response := by
  cases p with
  | fetchMessages => exact .pair (.struct _ (.pair .u64 .usize)) .reminder
  | readMail => exact .reminder
  | fetchProfile => exact .struct _ (.pair (.array _ .u8) (.array _ .u8))
  | fetchVault => exact .pair .u64 (.pair .u64 .reminder)
  | _ => exact .unit

theorem built_clientCodec (p : Protocol) : Built true p.clientCodec := by
  apply Built.result (built_response p)
  cases p with
  | fetchVault => exact built_error .fetchVault
  | _ => exact built_replError (built_error _)

/-- A reply that is written as a result of the client's type is read as it. -/
theorem parseResponse_of_bytes (p : Protocol) (call : CallId) (res : p.ServerResult)
    (v : p.ClientResult) (h : p.serverCodec.toBytes res = p.clientCodec.toBytes v) :
    parseResponse p (reply p call res) = v.mapError .handler := by
  have hread := roundTrips_of_built (.pair .usize (built_clientCodec p)) (call, v) [] fun _ => rfl
  rw [List.append_nil, toBytes_pair] at hread
  have hpacket : reply p call res = usize.toBytes call ++ p.clientCodec.toBytes v := by
    unfold reply
    rw [toBytes_pair, ← h]
    exact congrArg _ (List.flatten_singleton)
  unfold parseResponse
  rw [hpacket, hread]

/-- The error of a handler that restores records is written like that of the
protocol, if not found comes first there. -/
theorem toBytes_notFoundError {e : Codec E} {notFound : E} (h : e.toBytes notFound = [0])
    (err : NotFoundError E) :
    (notFoundError e).toBytes err = e.toBytes (ownError notFound err) := by
  cases err with
  | notFound => exact h.symm
  | inner error => rfl

theorem toBytes_replError {e : Codec E} {f : Codec F} {g : E → F}
    (h : ∀ v, e.toBytes v = f.toBytes (g v)) (err : ReplError E) :
    (replError e).toBytes err = (replError f).toBytes (mapInner g err) := by
  cases err with
  | inner error => exact congrArg (3 :: ·) (h error)
  | _ => rfl

theorem toBytes_sameError {p : Protocol} (hp : p ≠ .fetchMessages)
    (err : Wrapper.Error p.Error p.registered) :
    (p.registered.error p.error).toBytes err =
      (p.dispatched.error p.error).toBytes (sameError p err) := by
  cases p with
  | createChat => rfl
  | performChatAction => exact toBytes_replError (toBytes_notFoundError rfl) err
  | fetchMessages => exact absurd rfl hp
  | setVault => exact toBytes_replError (toBytes_notFoundError rfl) err
  | sendMail => exact toBytes_replError (toBytes_notFoundError rfl) err
  | readMail => exact toBytes_replError (toBytes_notFoundError rfl) err
  | fetchProfile => exact toBytes_replError (toBytes_notFoundError rfl) err
  | fetchVault => exact toBytes_notFoundError rfl err
  | createProfile => rfl

/-- The client reads the result of the server, except for an error of
`FetchMessages`, whose handler is registered without `Repl`. -/
theorem parseResponse_reply_iff (p : Protocol) (call : CallId) (res : p.ServerResult) :
    parseResponse p (reply p call res) = (sameResult p res).mapError .handler ↔
      p ≠ .fetchMessages ∨ ∃ r, res = .ok r := by
  constructor
  · intro hsame
    by_contra hnot
    rw [not_or, not_not] at hnot
    obtain ⟨rfl, herror⟩ := hnot
    cases res with
    | ok r => exact herror ⟨r, rfl⟩
    | error e =>
      cases e
      -- the number of the only error is that of a missing majority
      have hread := parseResponse_of_bytes .fetchMessages call
        (.error FetchMessagesError.chatNotFound) (.error ReplError.noMajority) rfl
      rw [hread] at hsame
      injection hsame with hsame
      injection hsame with hsame
      cases hsame
  · intro hcases
    apply parseResponse_of_bytes
    cases res with
    | ok r => rfl
    | error e =>
      have hp : p ≠ .fetchMessages := by
        rcases hcases with hp | ⟨r, hr⟩
        · exact hp
        · cases hr
      exact congrArg (0 :: ·) (toBytes_sameError hp e)

/-- A missing chat is reported as a missing majority. -/
theorem fetchMessages_misread :
    parseResponse .fetchMessages (reply .fetchMessages 5 (.error FetchMessagesError.chatNotFound)) =
        .error (.handler ReplError.noMajority) ∧
      ¬ ∀ (p : Protocol) (call : CallId) (res : p.ServerResult),
        parseResponse p (reply p call res) = (sameResult p res).mapError .handler := by
  have hread := parseResponse_of_bytes .fetchMessages 5
    (.error FetchMessagesError.chatNotFound) (.error ReplError.noMajority) rfl
  constructor
  · exact hread
  · intro hclaim
    have hsame := hclaim .fetchMessages 5 (.error FetchMessagesError.chatNotFound)
    rw [hread] at hsame
    injection hsame with hsame
    injection hsame with hsame
    cases hsame

end Agreement

end OrionNetwork.Protocols
