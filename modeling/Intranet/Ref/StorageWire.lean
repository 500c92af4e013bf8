import Intranet.Ref.Dec
import Intranet.Ref.Pointer

/-!
# Pointers on the wire

The pointer messages of the storage crate's `wire.rs`: a digest is asked for
and answered, records are fetched with their wrappings. Every signature in a
message is verified while it is decoded, and every list and every wrapped key
is bounded; one item over its bound fails the whole message.

A message crosses a connection as its encoding, and the reader takes at most
`maxMessageBytes` of it. `transfer` is what the other side ends up with.
-/

namespace Intranet

/-- Why a storage message could not be turned into a value. -/
inductive StorageWireError where
  | malformed (err : DecodeError)
  | invalidKey
  | badSignature
  | chunkTooLarge (size : ℕ)
  | tooManyEntries (got limit : ℕ)
deriving DecidableEq

instance : FromDecodeError StorageWireError := ⟨.malformed⟩

/-- `MAX_POINTERS_PER_RESPONSE`. -/
def maxPointersPerResponse : ℕ := 256

/-- `MAX_WRAPPINGS_PER_POINTER`. -/
def maxWrappingsPerPointer : ℕ := 16

/-- `MAX_WRAPPED_DEK_BYTES`. -/
def maxWrappedDekBytes : ℕ := 1024

/-- `DEFAULT_MAX_MESSAGE_BYTES`. -/
def maxMessageBytes : ℕ := 8 * 1024 * 1024

namespace StorageWire

def unknown {α : Type} (typeName : String) (discriminant : UInt8) :
    Reader StorageWireError α :=
  Dec.fail (.unknownVariant typeName discriminant)

variable (C : Crypto) (validKey : Bytes 32 → Bool)

def getIdentity : Reader StorageWireError PerNetworkIdentityId := do
  let b ← Dec.fixed 32
  Reader.check (validKey b = true) .invalidKey
  return ⟨⟨b⟩⟩

/-- The next 32 bytes as a pointer id. -/
def getPointerId : Reader StorageWireError PointerId := do
  let b ← Dec.fixed 32
  return ⟨b⟩

/-- The next 32 bytes as a hash. -/
def getHash : Reader StorageWireError Hash := do
  let b ← Dec.fixed 32
  return ⟨b⟩

/-- The next 64 bytes as a signature. -/
def getSignature : Reader StorageWireError Signature := do
  let b ← Dec.fixed 64
  return ⟨b⟩

def putPointer (p : MutablePointer) : List UInt8 :=
  Enc.fixed p.pointerId.bytes ++ p.ownerIdentity.encode ++
    Enc.str p.contentType.tag ++ Enc.fixed p.currentCid.hash.bytes ++
    Enc.fixed p.dekCommitment.bytes ++ Enc.u64 p.version ++
    Enc.fixed p.signature.bytes

def getPointer : Reader StorageWireError MutablePointer := do
  let pointerId ← getPointerId
  let ownerIdentity ← getIdentity validKey
  let tag ← Dec.str
  let cid ← getHash
  let dekCommitment ← getHash
  let version ← Dec.u64
  let signature ← getSignature
  let pointer : MutablePointer :=
    ⟨pointerId, ownerIdentity, ⟨tag⟩, ⟨cid⟩, dekCommitment, version, signature⟩
  Reader.check (pointer.verify C = .ok ()) .badSignature
  return pointer

def putWrapping (w : DekWrapping) : List UInt8 :=
  Enc.fixed w.pointerId.bytes ++ Enc.bytes w.wrappedDek ++
    Enc.fixed w.rotationRef.bytes ++ w.wrapperIdentity.encode ++
    Enc.fixed w.signature.bytes

def getWrapping : Reader StorageWireError DekWrapping := do
  let pointerId ← getPointerId
  let wrappedDek ← Dec.bytes
  Reader.check (wrappedDek.length ≤ maxWrappedDekBytes)
    (.tooManyEntries wrappedDek.length maxWrappedDekBytes)
  let rotationRef ← getHash
  let wrapperIdentity ← getIdentity validKey
  let signature ← getSignature
  let wrapping : DekWrapping :=
    ⟨pointerId, wrappedDek, rotationRef, wrapperIdentity, signature⟩
  Reader.check (wrapping.verifySignature C = .ok ()) .badSignature
  return wrapping

end StorageWire

open StorageWire

/-- One pointer's state, as a peer summarises it. -/
structure PointerDigestEntry where
  pointerId : PointerId
  version : UInt64
  recordHash : Hash
deriving DecidableEq

/-- A pointer and the wrappings that open it. -/
structure PointerRecord where
  pointer : MutablePointer
  wrappings : List DekWrapping
deriving DecidableEq

/-! ## Requests -/

/-- A request for pointer state. -/
inductive PointerRequest where
  | digest (requester : PerNetworkIdentityId) (signature : Signature)
  | fetch (wanted : List PointerId) (requester : PerNetworkIdentityId)
      (signature : Signature)
deriving DecidableEq

namespace PointerRequest

def putWanted (wanted : List PointerId) : List UInt8 :=
  Enc.seq wanted fun id => Enc.fixed id.bytes

def payload (requester : PerNetworkIdentityId) (wanted : List PointerId) :
    List UInt8 :=
  Enc.domain "intranet.pointer-request.v1" ++ requester.encode ++
    putWanted wanted

section Signing

variable {C : Crypto} {validKey : Bytes 32 → Bool}

/-- Builds and signs a digest request. -/
def forDigest (requester : PerNetworkIdentity C validKey) : PointerRequest :=
  .digest requester.id (requester.sign (payload requester.id []))

/-- Builds and signs a fetch request. -/
def forFetch (requester : PerNetworkIdentity C validKey)
    (wanted : List PointerId) : PointerRequest :=
  .fetch wanted requester.id (requester.sign (payload requester.id wanted))

end Signing

/-- Who is asking. -/
def requester : PointerRequest → PerNetworkIdentityId
  | digest requester _ => requester
  | fetch _ requester _ => requester

def wanted : PointerRequest → List PointerId
  | digest .. => []
  | fetch wanted .. => wanted

def signature : PointerRequest → Signature
  | digest _ signature => signature
  | fetch _ _ signature => signature

/-- Verifies that the named requester made this request. -/
def verify (C : Crypto) (r : PointerRequest) : Except StorageWireError Unit :=
  if C.verify r.requester.key (payload r.requester r.wanted) r.signature then
    .ok ()
  else .error .badSignature

def wireDomain : String := "intranet.wire.pointer-request.v1"

def put : PointerRequest → List UInt8
  | digest requester signature =>
      Enc.variant 0 ++ requester.encode ++ Enc.fixed signature.bytes
  | fetch wanted requester signature =>
      Enc.variant 1 ++ putWanted wanted ++ requester.encode ++
        Enc.fixed signature.bytes

def encode (r : PointerRequest) : List UInt8 := Enc.domain wireDomain ++ r.put

def get (validKey : Bytes 32 → Bool) :
    Reader StorageWireError PointerRequest := do
  match ← Dec.variant with
  | 0 => do
      let requester ← getIdentity validKey
      let signature ← getSignature
      return .digest requester signature
  | 1 => do
      let wanted ← Dec.seq getPointerId
      Reader.check (wanted.length ≤ maxPointersPerResponse)
        (.tooManyEntries wanted.length maxPointersPerResponse)
      let requester ← getIdentity validKey
      let signature ← getSignature
      return .fetch wanted requester signature
  | other => unknown "PointerRequest" other

/-- Decodes a request and verifies its signature. -/
def decode (C : Crypto) (validKey : Bytes 32 → Bool) (bytes : List UInt8) :
    Except StorageWireError PointerRequest :=
  Dec.decode (do
    Dec.domain wireDomain
    let request ← get validKey
    Dec.finish
    Reader.ofExcept (request.verify C)
    return request) bytes

/-- What the peer reads of a request. -/
def transfer (C : Crypto) (validKey : Bytes 32 → Bool) (r : PointerRequest) :
    Except StorageWireError PointerRequest :=
  decode C validKey (r.encode.take maxMessageBytes)

end PointerRequest

/-! ## Responses -/

/-- Why a node would not answer a pointer request. -/
inductive PointerRefusal where
  | noReadContent
  | cannotEvaluate
deriving DecidableEq

/-- The byte a refusal is written as. -/
def PointerRefusal.code : PointerRefusal → UInt8
  | noReadContent => 0
  | cannotEvaluate => 1

/-- A response to a pointer request. -/
inductive PointerResponse where
  | digest (entries : List PointerDigestEntry) (truncated : Bool)
  | records (records : List PointerRecord) (truncated : Bool)
  | refused (reason : PointerRefusal)
deriving DecidableEq

namespace PointerResponse

def wireDomain : String := "intranet.wire.pointer-response.v1"

def putDigestEntry (e : PointerDigestEntry) : List UInt8 :=
  Enc.fixed e.pointerId.bytes ++ Enc.u64 e.version ++
    Enc.fixed e.recordHash.bytes

def putRecord (r : PointerRecord) : List UInt8 :=
  putPointer r.pointer ++ Enc.seq r.wrappings putWrapping

def put : PointerResponse → List UInt8
  | digest entries truncated =>
      Enc.variant 0 ++ Enc.seq entries putDigestEntry ++ Enc.bool truncated
  | records sent truncated =>
      Enc.variant 1 ++ Enc.seq sent putRecord ++ Enc.bool truncated
  | refused reason =>
      Enc.variant 2 ++ Enc.u8 reason.code

def encode (r : PointerResponse) : List UInt8 := Enc.domain wireDomain ++ r.put

def getDigestEntry : Reader StorageWireError PointerDigestEntry := do
  let pointerId ← getPointerId
  let version ← Dec.u64
  let recordHash ← getHash
  return ⟨pointerId, version, recordHash⟩

def getRecord (C : Crypto) (validKey : Bytes 32 → Bool) :
    Reader StorageWireError PointerRecord := do
  let pointer ← getPointer C validKey
  let wrappings ← Dec.seq (getWrapping C validKey)
  Reader.check (wrappings.length ≤ maxWrappingsPerPointer)
    (.tooManyEntries wrappings.length maxWrappingsPerPointer)
  return ⟨pointer, wrappings⟩

def getRefusal : Reader StorageWireError PointerRefusal := do
  match ← Dec.u8 with
  | 0 => return .noReadContent
  | 1 => return .cannotEvaluate
  | other => unknown "PointerRefusal" other

def get (C : Crypto) (validKey : Bytes 32 → Bool) :
    Reader StorageWireError PointerResponse := do
  match ← Dec.variant with
  | 0 => do
      let entries ← Dec.seq getDigestEntry
      Reader.check (entries.length ≤ maxPointersPerResponse)
        (.tooManyEntries entries.length maxPointersPerResponse)
      let truncated ← Dec.bool
      return .digest entries truncated
  | 1 => do
      let sent ← Dec.seq (getRecord C validKey)
      Reader.check (sent.length ≤ maxPointersPerResponse)
        (.tooManyEntries sent.length maxPointersPerResponse)
      let truncated ← Dec.bool
      return .records sent truncated
  | 2 => do
      let reason ← getRefusal
      return .refused reason
  | other => unknown "PointerResponse" other

/-- Decodes a response, verifying every signature it carries. -/
def decode (C : Crypto) (validKey : Bytes 32 → Bool) (bytes : List UInt8) :
    Except StorageWireError PointerResponse :=
  Dec.decode (do
    Dec.domain wireDomain
    let response ← get C validKey
    Dec.finish
    return response) bytes

/-- What the peer reads of a response. -/
def transfer (C : Crypto) (validKey : Bytes 32 → Bool) (r : PointerResponse) :
    Except StorageWireError PointerResponse :=
  decode C validKey (r.encode.take maxMessageBytes)

end PointerResponse

end Intranet
