import Intranet.Ref.Object

/-!
# Call media encryption

`keying.rs` of the realtime crate. One key protects a call. Frames are sealed
under it with a nonce that is hashed out of the call and the frame's sequence
number, and the key itself travels to each participant in an envelope sealed
under a pairwise secret, with a nonce hashed out of the call and the two ends.

The cipher is the one of the storage crate, and X25519 is a parameter. What
it takes of its first argument is the private key, which stands behind an
identity's id.
-/

namespace Intranet

/-- A call's identifier. -/
@[ext]
structure CallId where
  bytes : Bytes 32
deriving DecidableEq

instance : LinearOrder CallId :=
  LinearOrder.lift' CallId.bytes fun _ _ => CallId.ext

/-- The symmetric key protecting one call's media. -/
@[ext]
structure CallKey where
  bytes : Bytes 32
deriving DecidableEq

/-- One encrypted media frame, as a relay sees it. -/
structure MediaFrame where
  sequence : UInt64
  ciphertext : List UInt8
deriving DecidableEq

inductive RealtimeError where
  | frameAuthenticationFailed (sequence : UInt64)
  | keyAgreementFailed
  | notTheRecipient
  | noRelayAvailable
  | noHandoverPending
deriving DecidableEq

/-- The first 24 bytes of a digest. -/
def Hash.nonce (digest : Hash) : Bytes 24 :=
  Bytes.ofTake 24 digest.bytes.toList (by rw [digest.bytes.length_eq]; decide)

namespace CallKey

def frameNonceBytes (call : CallId) (sequence : UInt64) : List UInt8 :=
  Enc.domain "intranet.call-frame-nonce.v1" ++ Enc.fixed call.bytes ++
    Enc.u64 sequence

def frameNonce (C : Crypto) (call : CallId) (sequence : UInt64) : Bytes 24 :=
  (C.hashBytes (frameNonceBytes call sequence)).nonce

/-- Seals one media frame. -/
def sealFrame (C : Crypto) (A : Aead) (key : CallKey) (call : CallId)
    (sequence : UInt64) (plaintext : List UInt8) : MediaFrame :=
  ⟨sequence, A.encrypt key.bytes (frameNonce C call sequence) plaintext⟩

/-- Opens one media frame. -/
def openFrame (C : Crypto) (A : Aead) (key : CallKey) (call : CallId)
    (frame : MediaFrame) : Except RealtimeError (List UInt8) :=
  match A.decrypt key.bytes (frameNonce C call frame.sequence)
      frame.ciphertext with
  | some plaintext => .ok plaintext
  | none => .error (.frameAuthenticationFailed frame.sequence)

end CallKey

/-- A call key delivered to one participant. -/
structure CallKeyEnvelope where
  call : CallId
  sender : PerNetworkIdentityId
  recipient : PerNetworkIdentityId
  sealedKey : List UInt8
deriving DecidableEq

/-- X25519 between two identities of a network: the private key that stands
behind the first, and the public key of the second. -/
def DiffieHellman := PerNetworkIdentityId → PerNetworkIdentityId → Bytes 32

/-- Agrees a shared secret with another identity; a key that is no point of
the curve is refused. -/
def agree (C : Crypto) (validKey : Bytes 32 → Bool) (dh : DiffieHellman)
    (self peer : PerNetworkIdentityId) : Option (Bytes 32) :=
  if validKey peer.key.bytes then
    some (C.hashBytes (Enc.domain "intranet.key-agreement.v1" ++
      Enc.fixed (dh self peer))).bytes
  else none

namespace CallKeyEnvelope

def envelopeNonceBytes (call : CallId)
    (sender recipient : PerNetworkIdentityId) : List UInt8 :=
  Enc.domain "intranet.call-key-envelope-nonce.v1" ++ Enc.fixed call.bytes ++
    sender.encode ++ recipient.encode

def envelopeNonce (C : Crypto) (call : CallId)
    (sender recipient : PerNetworkIdentityId) : Bytes 24 :=
  (C.hashBytes (envelopeNonceBytes call sender recipient)).nonce

/-- Seals a call key for one participant. -/
def sealKey (C : Crypto) (A : Aead) (validKey : Bytes 32 → Bool)
    (dh : DiffieHellman) (sender recipient : PerNetworkIdentityId)
    (call : CallId) (key : CallKey) :
    Except RealtimeError CallKeyEnvelope :=
  match agree C validKey dh sender recipient with
  | none => .error .keyAgreementFailed
  | some shared =>
      .ok ⟨call, sender, recipient,
        A.encrypt shared (envelopeNonce C call sender recipient)
          key.bytes.toList⟩

/-- Opens an envelope addressed to `recipient`. -/
def openKey (C : Crypto) (A : Aead) (validKey : Bytes 32 → Bool)
    (dh : DiffieHellman) (envelope : CallKeyEnvelope)
    (recipient : PerNetworkIdentityId) :
    Except RealtimeError CallKey :=
  if recipient ≠ envelope.recipient then .error .notTheRecipient
  else
    match agree C validKey dh recipient envelope.sender with
    | none => .error .keyAgreementFailed
    | some shared =>
        match A.decrypt shared
            (envelopeNonce C envelope.call envelope.sender envelope.recipient)
            envelope.sealedKey with
        | none => .error .keyAgreementFailed
        | some opened =>
            if h : opened.length = 32 then .ok ⟨⟨opened, h⟩⟩
            else .error .keyAgreementFailed

end CallKeyEnvelope

end Intranet
