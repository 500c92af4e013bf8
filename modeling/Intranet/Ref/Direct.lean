import Intranet.Ref.Dec
import Intranet.Ref.Pointer

/-!
# Direct messages

The transport crate's `direct.rs`. One member hands another a small payload
under a namespace and a kind, which this layer carries and does not read. The
signature covers all of it. The ceilings are checked before the signature, by
whoever makes a message and by whoever reads one.
-/

namespace Intranet

/-- `MAX_DIRECT_PAYLOAD_BYTES`. -/
def maxDirectPayloadBytes : ℕ := 64 * 1024

/-- `MAX_DIRECT_LABEL_BYTES`. -/
def maxDirectLabelBytes : ℕ := 64

/-- Something wrong with a direct message. -/
inductive DirectError where
  | malformed (err : DecodeError)
  | invalidKey
  | badSignature
  | payloadTooLarge (size : ℕ)
  | labelTooLong (size : ℕ)
  | emptyLabel
deriving DecidableEq

instance : FromDecodeError DirectError := ⟨.malformed⟩

/-- A payload handed from one member to another. -/
structure DirectMessage where
  sender : PerNetworkIdentityId
  «namespace» : String
  kind : String
  payload : List UInt8
  signature : Signature
deriving DecidableEq

/-- `check_label`. -/
def checkLabel (label : String) : Except DirectError Unit :=
  if label.isEmpty then .error .emptyLabel
  else if maxDirectLabelBytes < label.utf8ByteSize then
    .error (.labelTooLong label.utf8ByteSize)
  else .ok ()

/-- The ceiling on a payload. -/
def checkPayload (payload : List UInt8) : Except DirectError Unit :=
  if maxDirectPayloadBytes < payload.length then
    .error (.payloadTooLarge payload.length)
  else .ok ()

namespace DirectMessage

/-- What the sender signs. -/
def signed (sender : PerNetworkIdentityId) (label kind : String)
    (payload : List UInt8) : List UInt8 :=
  Enc.domain "intranet.direct-message.v1" ++ sender.encode ++ Enc.str label ++
    Enc.str kind ++ Enc.bytes payload

/-- Builds and signs a direct message. -/
def create {C : Crypto} {validKey : Bytes 32 → Bool}
    (sender : PerNetworkIdentity C validKey) (label kind : String)
    (payload : List UInt8) : Except DirectError DirectMessage := do
  checkLabel label
  checkLabel kind
  checkPayload payload
  return ⟨sender.id, label, kind, payload,
    sender.sign (signed sender.id label kind payload)⟩

/-- Verifies that the named sender produced this message. -/
def verify (C : Crypto) (m : DirectMessage) : Except DirectError Unit :=
  if C.verify m.sender.key (signed m.sender m.«namespace» m.kind m.payload)
      m.signature then .ok ()
  else .error .badSignature

def wireDomain : String := "intranet.wire.direct.v1"

def put (m : DirectMessage) : List UInt8 :=
  m.sender.encode ++ Enc.str m.«namespace» ++ Enc.str m.kind ++
    Enc.bytes m.payload ++ Enc.fixed m.signature.bytes

def encode (m : DirectMessage) : List UInt8 := Enc.domain wireDomain ++ m.put

def getIdentity (validKey : Bytes 32 → Bool) :
    Reader DirectError PerNetworkIdentityId := do
  let b ← Dec.fixed 32
  Reader.check (validKey b = true) .invalidKey
  return ⟨⟨b⟩⟩

def get (validKey : Bytes 32 → Bool) : Reader DirectError DirectMessage := do
  let sender ← getIdentity validKey
  let label ← Dec.str
  let kind ← Dec.str
  let payload ← Dec.bytes
  let b ← Dec.fixed 64
  return ⟨sender, label, kind, payload, ⟨b⟩⟩

/-- What is checked of a message that was read, the signature last. -/
def checked (C : Crypto) (m : DirectMessage) : Except DirectError Unit := do
  checkLabel m.«namespace»
  checkLabel m.kind
  checkPayload m.payload
  m.verify C

/-- Decodes a message, bounds-checks it and verifies its signature. -/
def decode (C : Crypto) (validKey : Bytes 32 → Bool) (bytes : List UInt8) :
    Except DirectError DirectMessage :=
  Dec.decode (do
    Dec.domain wireDomain
    let message ← get validKey
    Dec.finish
    Reader.ofExcept (message.checked C)
    return message) bytes

end DirectMessage

end Intranet
