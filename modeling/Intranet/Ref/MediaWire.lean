import Intranet.Ref.Media
import Intranet.Ref.Signal

/-!
# Media envelopes on the wire

The media half of the realtime crate's `wire.rs`. An envelope carries no
signature: the frame in it is sealed, and the routing around it is for a relay
to read.
-/

namespace Intranet

open RealtimeWire

/-- `MAX_FRAME_BYTES`. -/
def maxFrameBytes : ℕ := 1024 * 1024

namespace Recipient

def put : Recipient → List UInt8
  | one identity => Enc.u8 0 ++ identity.encode
  | participants => Enc.u8 1

def get (validKey : Bytes 32 → Bool) : Reader RealtimeWireError Recipient := do
  match ← Dec.u8 with
  | 0 => do
      let identity ← getIdentity validKey
      return .one identity
  | 1 => return .participants
  | other => unknown "Recipient" other

end Recipient

namespace MediaEnvelope

def wireDomain : String := "intranet.wire.call-media.v2"

def put (envelope : MediaEnvelope) : List UInt8 :=
  Enc.fixed envelope.call.bytes ++ envelope.sender.encode ++
    envelope.recipient.put ++ Enc.u64 envelope.frame.sequence ++
    Enc.bytes envelope.frame.ciphertext

def encode (envelope : MediaEnvelope) : List UInt8 :=
  Enc.domain wireDomain ++ envelope.put

def get (validKey : Bytes 32 → Bool) :
    Reader RealtimeWireError MediaEnvelope := do
  let call ← getCallId
  let sender ← getIdentity validKey
  let recipient ← Recipient.get validKey
  let sequence ← Dec.u64
  let ciphertext ← Dec.bytes
  Reader.check (ciphertext.length ≤ maxFrameBytes)
    (.tooLarge ciphertext.length maxFrameBytes)
  return ⟨call, sender, recipient, ⟨sequence, ciphertext⟩⟩

/-- Decodes an envelope. -/
def decode (validKey : Bytes 32 → Bool) (bytes : List UInt8) :
    Except RealtimeWireError MediaEnvelope :=
  Dec.decode (do
    Dec.domain wireDomain
    let envelope ← get validKey
    Dec.finish
    return envelope) bytes

end MediaEnvelope

end Intranet
