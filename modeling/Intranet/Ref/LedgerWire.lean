import Intranet.Ref.Dec
import Intranet.Ref.Ledger

/-!
# The ledger on the wire

`wire.rs` of the ledger crate, and what `node.rs` does with its messages. A
peer is asked for a digest, then for the advertisements that are missing or
newer than the copy held, and once more from the start while its answer was
cut short. Every advertisement is verified while it is decoded, and a window
that is no time of day is refused.

A request and its answer are one step of the exchange; the connection between
them is left out.
-/

namespace Intranet

/-- Why a ledger message could not be turned into a value. -/
inductive LedgerWireError where
  | malformed (err : DecodeError)
  | invalidKey
  | badSignature
deriving DecidableEq

instance : FromDecodeError LedgerWireError := ⟨.malformed⟩

/-- `MAX_ADVERTISEMENTS_PER_RESPONSE`. -/
def maxAdvertisementsPerResponse : ℕ := 256

namespace LedgerWire

def unknown {α : Type} (typeName : String) (discriminant : UInt8) :
    Reader LedgerWireError α :=
  Dec.fail (.unknownVariant typeName discriminant)

def getIdentity (validKey : Bytes 32 → Bool) :
    Reader LedgerWireError PerNetworkIdentityId := do
  let b ← Dec.fixed 32
  Reader.check (validKey b = true) .invalidKey
  return ⟨⟨b⟩⟩

/-! ## Advertisements -/

def putWindow (window : TimeOfDayWindow) : List UInt8 :=
  Enc.u32 window.startMinute.toUInt32 ++ Enc.u32 window.endMinute.toUInt32

def putAdvertisement (a : CapabilityAdvertisement) : List UInt8 :=
  a.network.encode ++ a.node.encode ++ Enc.u64 a.storageOffered ++
    Enc.u64 a.bandwidthCap.upBytesPerSec ++
    Enc.u64 a.bandwidthCap.downBytesPerSec ++
    Enc.option a.bandwidthCap.activeWindow putWindow ++
    Enc.bool a.relayBootstrapWilling ++ Enc.bool a.relayMediaWilling ++
    Enc.u8 a.computeClass.discriminant ++ Enc.i64 a.issuedAt.millis ++
    Enc.fixed a.signature.bytes

def advertisementDomain : String := "intranet.wire.advertisement.v1"

/-- Encodes an advertisement for transmission. -/
def encodeAdvertisement (a : CapabilityAdvertisement) : List UInt8 :=
  Enc.domain advertisementDomain ++ putAdvertisement a

/-- A minute past midnight. -/
def minute (value : UInt32) : Reader LedgerWireError UInt16 := do
  Reader.check (value < 1440)
    (.malformed (.implausibleLength value.toUInt64 1440))
  return value.toUInt16

def getWindow : Reader LedgerWireError TimeOfDayWindow := do
  let start ← Dec.u32
  let startMinute ← minute start
  let stop ← Dec.u32
  let endMinute ← minute stop
  return ⟨startMinute, endMinute⟩

def getComputeClass : Reader LedgerWireError ComputeClass := do
  match ← Dec.u8 with
  | 0 => return .minimal
  | 1 => return .modest
  | 2 => return .substantial
  | other => unknown "ComputeClass" other

def getAdvertisement (validKey : Bytes 32 → Bool) :
    Reader LedgerWireError CapabilityAdvertisement := do
  let network ← Dec.fixed 32
  let node ← getIdentity validKey
  let storageOffered ← Dec.u64
  let upBytesPerSec ← Dec.u64
  let downBytesPerSec ← Dec.u64
  let activeWindow ← Dec.option getWindow
  let relayBootstrapWilling ← Dec.bool
  let relayMediaWilling ← Dec.bool
  let computeClass ← getComputeClass
  let issuedAt ← Dec.i64
  let signature ← Dec.fixed 64
  return ⟨⟨network⟩, node, storageOffered,
    ⟨upBytesPerSec, downBytesPerSec, activeWindow⟩, relayBootstrapWilling,
    relayMediaWilling, computeClass, ⟨issuedAt⟩, ⟨signature⟩⟩

/-- Decodes an advertisement and verifies its signature. -/
def decodeAdvertisement (C : Crypto) (validKey : Bytes 32 → Bool)
    (bytes : List UInt8) : Except LedgerWireError CapabilityAdvertisement :=
  Dec.decode (do
    Dec.domain advertisementDomain
    let advertisement ← getAdvertisement validKey
    Dec.finish
    Reader.check (advertisement.verify C = .ok ()) .badSignature
    return advertisement) bytes

end LedgerWire

open LedgerWire

/-! ## Requests and responses -/

/-- A request in the pull-based ledger gossip protocol. -/
inductive LedgerRequest where
  | digest
  | fetch (nodes : List PerNetworkIdentityId)
deriving DecidableEq

namespace LedgerRequest

def wireDomain : String := "intranet.wire.ledger-request.v1"

def put : LedgerRequest → List UInt8
  | digest => Enc.variant 0
  | fetch nodes =>
      Enc.variant 1 ++ Enc.seq nodes PerNetworkIdentityId.encode

def encode (r : LedgerRequest) : List UInt8 := Enc.domain wireDomain ++ r.put

def get (validKey : Bytes 32 → Bool) :
    Reader LedgerWireError LedgerRequest := do
  match ← Dec.variant with
  | 0 => return .digest
  | 1 => do
      let nodes ← Dec.seq (getIdentity validKey)
      return .fetch nodes
  | other => unknown "LedgerRequest" other

def decode (validKey : Bytes 32 → Bool) (bytes : List UInt8) :
    Except LedgerWireError LedgerRequest :=
  Dec.decode (do
    Dec.domain wireDomain
    let request ← get validKey
    Dec.finish
    return request) bytes

end LedgerRequest

/-- A response in the pull-based ledger gossip protocol. -/
inductive LedgerResponse where
  | digest (entries : List (PerNetworkIdentityId × Timestamp))
  | advertisements (advertisements : List CapabilityAdvertisement)
      (truncated : Bool)
deriving DecidableEq

namespace LedgerResponse

def wireDomain : String := "intranet.wire.ledger-response.v1"

def putDigestEntry (e : PerNetworkIdentityId × Timestamp) : List UInt8 :=
  e.1.encode ++ Enc.i64 e.2.millis

def put : LedgerResponse → List UInt8
  | digest entries => Enc.variant 0 ++ Enc.seq entries putDigestEntry
  | advertisements sent truncated =>
      Enc.variant 1 ++
        Enc.seq sent (fun a => Enc.bytes (encodeAdvertisement a)) ++
        Enc.bool truncated

def encode (r : LedgerResponse) : List UInt8 := Enc.domain wireDomain ++ r.put

def getDigestEntry (validKey : Bytes 32 → Bool) :
    Reader LedgerWireError (PerNetworkIdentityId × Timestamp) := do
  let node ← getIdentity validKey
  let issuedAt ← Dec.i64
  return (node, ⟨issuedAt⟩)

def get (C : Crypto) (validKey : Bytes 32 → Bool) :
    Reader LedgerWireError LedgerResponse := do
  match ← Dec.variant with
  | 0 => do
      let entries ← Dec.seq (getDigestEntry validKey)
      return .digest entries
  | 1 => do
      let sent ← Dec.seq Dec.bytes
      let advertisements ← Reader.ofExcept
        (sent.mapM (decodeAdvertisement C validKey))
      let truncated ← Dec.bool
      return .advertisements advertisements truncated
  | other => unknown "LedgerResponse" other

/-- Decodes a response, verifying every advertisement's signature. -/
def decode (C : Crypto) (validKey : Bytes 32 → Bool) (bytes : List UInt8) :
    Except LedgerWireError LedgerResponse :=
  Dec.decode (do
    Dec.domain wireDomain
    let response ← get C validKey
    Dec.finish
    return response) bytes

end LedgerResponse

/-! ## What a node does with them -/

namespace CapabilityLedger

/-- The answer to a peer's request. -/
def answer (ledger : CapabilityLedger) : LedgerRequest → LedgerResponse
  | .digest => .digest ledger.digest
  | .fetch nodes =>
      let fetched := ledger.fetch nodes maxAdvertisementsPerResponse
      .advertisements fetched.1 fetched.2

/-- One batch being inserted, and how many were accepted and rejected. -/
structure Batch where
  ledger : CapabilityLedger
  accepted : ℕ
  rejected : ℕ

def Batch.add (C : Crypto) (state : GovernanceState) (batch : Batch)
    (a : CapabilityAdvertisement) : Batch :=
  match batch.ledger.insert C a state with
  | .ok next => ⟨next, batch.accepted + 1, batch.rejected⟩
  | .error _ => { batch with rejected := batch.rejected + 1 }

/-- Inserts a batch under the state the log replays to. Without one there is
nothing to validate membership against, and all of it is rejected. -/
def insertBatch (C : Crypto) (state : Option GovernanceState)
    (ledger : CapabilityLedger) (ads : List CapabilityAdvertisement) : Batch :=
  match state with
  | some state => ads.foldl (Batch.add C state) ⟨ledger, 0, 0⟩
  | none => ⟨ledger, 0, ads.length⟩

/-- What a response leaves behind, and the request that follows it. -/
def handle (C : Crypto) (state : Option GovernanceState)
    (ledger : CapabilityLedger) :
    LedgerResponse → CapabilityLedger × Option LedgerRequest
  | .digest entries =>
      let nodes := ledger.wantedFrom entries
      (ledger, if nodes.isEmpty then none else some (.fetch nodes))
  | .advertisements ads truncated =>
      ((ledger.insertBatch C state ads).ledger,
        if truncated then some .digest else none)

end CapabilityLedger

end Intranet
