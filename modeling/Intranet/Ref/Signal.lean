import Intranet.Ref.Call
import Intranet.Ref.Dec

/-!
# Call signalling on the wire

The signalling half of the realtime crate's `wire.rs`, and what the node does
with a message that arrives. Who a message speaks for is said up to three
times: by the connection it came over, by the signed sender, and by a field of
the body. The signature is verified while the message is decoded, and the node
compares the sender with the connection.
-/

namespace Intranet

/-- Why a realtime message could not be turned into a value. -/
inductive RealtimeWireError where
  | malformed (err : DecodeError)
  | invalidKey
  | badSignature
  | tooLarge (size limit : ℕ)
deriving DecidableEq

instance : FromDecodeError RealtimeWireError := ⟨.malformed⟩

/-- `MAX_SEALED_KEY_BYTES`. -/
def maxSealedKeyBytes : ℕ := 256

/-- What a signalling message says. -/
inductive SignalBody where
  | invite (envelope : CallKeyEnvelope)
  | propose (call : CallId) (proposal : TopologyProposal)
  | leave (call : CallId)
deriving DecidableEq

/-- A signed signalling message. -/
structure Signal where
  body : SignalBody
  sender : PerNetworkIdentityId
  signature : Signature
deriving DecidableEq

namespace RealtimeWire

def unknown {α : Type} (typeName : String) (discriminant : UInt8) :
    Reader RealtimeWireError α :=
  Dec.fail (.unknownVariant typeName discriminant)

def getIdentity (validKey : Bytes 32 → Bool) :
    Reader RealtimeWireError PerNetworkIdentityId := do
  let b ← Dec.fixed 32
  Reader.check (validKey b = true) .invalidKey
  return ⟨⟨b⟩⟩

/-- The next 32 bytes as a call id. -/
def getCallId : Reader RealtimeWireError CallId := do
  let b ← Dec.fixed 32
  return ⟨b⟩

end RealtimeWire

open RealtimeWire

def Topology.put : Topology → List UInt8
  | mesh => Enc.variant 0
  | relayed relay => Enc.variant 1 ++ relay.encode

def Topology.get (validKey : Bytes 32 → Bool) :
    Reader RealtimeWireError Topology := do
  match ← Dec.variant with
  | 0 => return .mesh
  | 1 => do
      let relay ← getIdentity validKey
      return .relayed relay
  | other => unknown "Topology" other

/-- The byte a trigger is written as. -/
def RenegotiationTrigger.code : RenegotiationTrigger → UInt8
  | thresholdReached => 0
  | belowThreshold => 1
  | relayUnavailable => 2

def RenegotiationTrigger.get :
    Reader RealtimeWireError RenegotiationTrigger := do
  match ← Dec.u8 with
  | 0 => return .thresholdReached
  | 1 => return .belowThreshold
  | 2 => return .relayUnavailable
  | other => unknown "RenegotiationTrigger" other

namespace SignalBody

/-- `put_body`. -/
def put : SignalBody → List UInt8
  | invite envelope =>
      Enc.variant 0 ++ Enc.fixed envelope.call.bytes ++
        envelope.sender.encode ++ envelope.recipient.encode ++
        Enc.bytes envelope.sealedKey
  | propose call proposal =>
      Enc.variant 1 ++ Enc.fixed call.bytes ++ proposal.proposer.encode ++
        proposal.topology.put ++ Enc.u8 proposal.trigger.code ++
        Enc.i64 proposal.proposedAt.millis
  | leave call => Enc.variant 2 ++ Enc.fixed call.bytes

def getInvite (validKey : Bytes 32 → Bool) :
    Reader RealtimeWireError SignalBody := do
  let call ← getCallId
  let sender ← getIdentity validKey
  let recipient ← getIdentity validKey
  let sealedKey ← Dec.bytes
  Reader.check (sealedKey.length ≤ maxSealedKeyBytes)
    (.tooLarge sealedKey.length maxSealedKeyBytes)
  return .invite ⟨call, sender, recipient, sealedKey⟩

def getPropose (validKey : Bytes 32 → Bool) :
    Reader RealtimeWireError SignalBody := do
  let call ← getCallId
  let proposer ← getIdentity validKey
  let topology ← Topology.get validKey
  let trigger ← RenegotiationTrigger.get
  let millis ← Dec.i64
  return .propose call ⟨proposer, topology, trigger, ⟨millis⟩⟩

/-- `get_body`. -/
def get (validKey : Bytes 32 → Bool) :
    Reader RealtimeWireError SignalBody := do
  match ← Dec.variant with
  | 0 => getInvite validKey
  | 1 => getPropose validKey
  | 2 => do
      let call ← getCallId
      return .leave call
  | other => unknown "SignalBody" other

end SignalBody

namespace Signal

/-- What the sender signs. -/
def payload (body : SignalBody) (sender : PerNetworkIdentityId) : List UInt8 :=
  Enc.domain "intranet.call-signal.v1" ++ body.put ++ sender.encode

/-- Builds and signs a message. -/
def create {C : Crypto} {validKey : Bytes 32 → Bool}
    (sender : PerNetworkIdentity C validKey) (body : SignalBody) : Signal :=
  ⟨body, sender.id, sender.sign (payload body sender.id)⟩

/-- Verifies the sender's signature. -/
def verify (C : Crypto) (s : Signal) : Except RealtimeWireError Unit :=
  if C.verify s.sender.key (payload s.body s.sender) s.signature then .ok ()
  else .error .badSignature

def wireDomain : String := "intranet.wire.call-signal.v1"

def encode (s : Signal) : List UInt8 :=
  Enc.domain wireDomain ++ s.body.put ++ s.sender.encode ++
    Enc.fixed s.signature.bytes

def get (validKey : Bytes 32 → Bool) : Reader RealtimeWireError Signal := do
  let body ← SignalBody.get validKey
  let sender ← getIdentity validKey
  let b ← Dec.fixed 64
  return ⟨body, sender, ⟨b⟩⟩

/-- Decodes a message and verifies its signature. -/
def decode (C : Crypto) (validKey : Bytes 32 → Bool) (bytes : List UInt8) :
    Except RealtimeWireError Signal :=
  Dec.decode (do
    Dec.domain wireDomain
    let signal ← get validKey
    Dec.finish
    Reader.ofExcept (signal.verify C)
    return signal) bytes

/-- The signal a node reports when a message arrives over the connection of
`peer`, `SignalReceived`; a message that does not decode never becomes an
event. A peer id is the key of an identity, so that of the sender is compared
as the identity. -/
def received (C : Crypto) (validKey : Bytes 32 → Bool)
    (peer : PerNetworkIdentityId) (bytes : List UInt8) : Option Signal :=
  match decode C validKey bytes with
  | .ok signal => if signal.sender = peer then some signal else none
  | .error _ => none

end Signal

end Intranet
