import Intranet.Ref.Log

/-!
# Mutable pointers and DEK wrappings

`pointer.rs` of the storage crate, and the two methods of `node.rs` through
which a node comes to hold a record or a wrapping. A pointer record is signed
by the owner it names; a wrapping is signed by whichever member made it. A
node keeps one record per pointer, the one that wins by `resolve`, and one
wrapping per pointer and rotation, the one that came last.

`update` compares the owner with the record it builds on. `acceptPointer` has
no such comparison: it asks whether the record could have been published and
whether it wins.
-/

namespace Intranet

/-- The identifier of a stored blob: its hash. -/
@[ext]
structure Cid where
  hash : Hash
deriving DecidableEq

/-- A stable, updatable address for content that changes over time. -/
structure MutablePointer where
  pointerId : PointerId
  ownerIdentity : PerNetworkIdentityId
  contentType : ContentType
  currentCid : Cid
  dekCommitment : Hash
  version : UInt64
  signature : Signature
deriving DecidableEq

/-- The errors of the storage operations. -/
inductive StorageError where
  | badSignature
  | contentTypeNotAllowed (contentType : String)
  | publishNotPermitted (identity contentType : String)
  | notPointerOwner (owner attemptedBy : String)
  | missingChunk (cid : String)
  | chunkVerificationFailed (cid : String)
  | malformedCiphertext
  | decryptionFailed
  | lengthMismatch (expected got : Nat)
  | commitmentMismatch
  | publisherNotAMember (publisher : String)
  | wrongCollection
  | malformedManifest
  | referencesDelistedContent (pointer : String)
deriving DecidableEq

/-- An identity with its private key. The key pair is an Ed25519 one: the
public half is a point of the curve, and what the private half signs verifies
under the public half. -/
structure PerNetworkIdentity (C : Crypto) (validKey : Bytes 32 → Bool) where
  id : PerNetworkIdentityId
  sign : List UInt8 → Signature
  valid : validKey id.key.bytes = true
  verifies : ∀ payload, C.verify id.key payload (sign payload) = true

def GovernanceState.allowsContentType (s : GovernanceState)
    (contentType : ContentType) : Bool :=
  s.policy.contentTypeAllowlist.contains contentType

namespace MutablePointer

/-- What the owner signs. -/
def signedBytes (pointerId : PointerId) (owner : PerNetworkIdentityId)
    (contentType : ContentType) (currentCid : Cid) (dekCommitment : Hash)
    (version : UInt64) : List UInt8 :=
  Enc.domain "intranet.mutable-pointer.v1" ++ Enc.fixed pointerId.bytes ++
    owner.encode ++ Enc.str contentType.tag ++
    Enc.fixed currentCid.hash.bytes ++ Enc.fixed dekCommitment.bytes ++
    Enc.u64 version

def payload (p : MutablePointer) : List UInt8 :=
  signedBytes p.pointerId p.ownerIdentity p.contentType p.currentCid
    p.dekCommitment p.version

/-- Verifies the owner's signature. -/
def verify (C : Crypto) (p : MutablePointer) : Except StorageError Unit :=
  if C.verify p.ownerIdentity.key p.payload p.signature then .ok ()
  else .error .badSignature

/-- The bytes `record_hash` hashes. -/
def recordBytes (p : MutablePointer) : List UInt8 :=
  p.payload ++ Enc.fixed p.signature.bytes

/-- This record's hash, the tie-break of `resolve`. -/
def recordHash (C : Crypto) (p : MutablePointer) : Hash :=
  C.hashBytes p.recordBytes

/-- Which of two records for one pointer is canonical: the higher version,
and the lower record hash of two with the same version. -/
def resolve (C : Crypto) (a b : MutablePointer) : MutablePointer :=
  if b.version < a.version then a
  else if a.version < b.version then b
  else if a.recordHash C ≤ b.recordHash C then a
  else b

/-- Whether `p` supersedes `current`. The source asks whether `resolve` gave
back the reference it was passed first; of two records that differ, that is
asking whether it gave back the first record. -/
def supersedes (C : Crypto) (p current : MutablePointer) : Bool :=
  decide (resolve C p current = p ∧ p ≠ current)

/-! ## Publishing -/

def checkPublishGates (publisher : PerNetworkIdentityId)
    (contentType : ContentType) (state : GovernanceState) :
    Except StorageError Unit :=
  if !state.allowsContentType contentType then
    .error (.contentTypeNotAllowed contentType.tag)
  else if !state.identityHolds publisher (.publish contentType) then
    .error (.publishNotPermitted publisher.short contentType.tag)
  else .ok ()

section Signing

variable {C : Crypto} {validKey : Bytes 32 → Bool}

def sign (owner : PerNetworkIdentity C validKey) (pointerId : PointerId)
    (contentType : ContentType) (currentCid : Cid) (dekCommitment : Hash)
    (version : UInt64) : MutablePointer :=
  { pointerId, ownerIdentity := owner.id, contentType, currentCid
    dekCommitment, version
    signature := owner.sign (signedBytes pointerId owner.id contentType
      currentCid dekCommitment version) }

/-- The first version of a pointer. -/
def publish (owner : PerNetworkIdentity C validKey) (pointerId : PointerId)
    (contentType : ContentType) (currentCid : Cid) (dekCommitment : Hash)
    (state : GovernanceState) : Except StorageError MutablePointer := do
  checkPublishGates owner.id contentType state
  return sign owner pointerId contentType currentCid dekCommitment 0

/-- A new version of an existing pointer. -/
def update (p : MutablePointer) (owner : PerNetworkIdentity C validKey)
    (currentCid : Cid) (state : GovernanceState) :
    Except StorageError MutablePointer := do
  if owner.id ≠ p.ownerIdentity then
    .error (.notPointerOwner p.ownerIdentity.short owner.id.short)
  else
    checkPublishGates owner.id p.contentType state
    return sign owner p.pointerId p.contentType currentCid p.dekCommitment
      (p.version + 1)

end Signing

end MutablePointer

/-- A republishable wrapping of an object's DEK. -/
structure DekWrapping where
  pointerId : PointerId
  wrappedDek : List UInt8
  rotationRef : Hash
  wrapperIdentity : PerNetworkIdentityId
  signature : Signature
deriving DecidableEq

namespace DekWrapping

def payload (w : DekWrapping) : List UInt8 :=
  Enc.domain "intranet.dek-wrapping.v1" ++ Enc.fixed w.pointerId.bytes ++
    Enc.bytes w.wrappedDek ++ Enc.fixed w.rotationRef.bytes ++
    w.wrapperIdentity.encode

/-- Verifies the wrapper's signature. -/
def verifySignature (C : Crypto) (w : DekWrapping) : Except StorageError Unit :=
  if C.verify w.wrapperIdentity.key w.payload w.signature then .ok ()
  else .error .badSignature

end DekWrapping

/-! ## What a node holds -/

/-- The fields of `MemberNode` that pointers go through. -/
structure PointerNode where
  log : GovernanceLog
  pointers : BTreeMap PointerId MutablePointer
  wrappings : BTreeMap PointerId (BTreeMap Hash DekWrapping)

namespace PointerNode

/-- A node that holds no pointer yet. -/
def new (log : GovernanceLog) : PointerNode := ⟨log, ∅, ∅⟩

def governanceState (C : Crypto) (node : PointerNode) :
    Option GovernanceState :=
  (node.log.replayCanonical C).toOption

/-- The part of `pointer_is_publishable` after the signature, under the
replayed state. -/
def passesGates (state : GovernanceState) (p : MutablePointer) : Bool :=
  if state.delisted.contains p.pointerId then false
  else state.allowsContentType p.contentType &&
    state.identityHolds p.ownerIdentity (.publish p.contentType)

/-- Whether a pointer record may be stored and served here. -/
def pointerIsPublishable (C : Crypto) (node : PointerNode)
    (p : MutablePointer) : Bool :=
  match p.verify C with
  | .error _ => false
  | .ok _ =>
      match node.governanceState C with
      | none => false
      | some state => passesGates state p

/-- Accepts a pointer record, keeping whichever record wins, and whether that
changed anything. -/
def acceptPointer (C : Crypto) (node : PointerNode) (p : MutablePointer) :
    Bool × PointerNode :=
  if !node.pointerIsPublishable C p then (false, node)
  else
    let kept := (true, { node with pointers := node.pointers.insert p.pointerId p })
    match node.pointers[p.pointerId]? with
    | some current => if !p.supersedes C current then (false, node) else kept
    | none => kept

/-- Accepts a DEK wrapping in place of any held for the same rotation, and
whether it was accepted. -/
def acceptWrapping (C : Crypto) (node : PointerNode) (w : DekWrapping) :
    Bool × PointerNode :=
  match w.verifySignature C with
  | .error _ => (false, node)
  | .ok _ =>
      match node.governanceState C with
      | none => (false, node)
      | some state =>
          if !state.isMember w.wrapperIdentity then (false, node)
          else
            let byRotation := node.wrappings[w.pointerId]?.getD ∅
            (true, { node with
              wrappings := node.wrappings.insert w.pointerId
                (byRotation.insert w.rotationRef w) })

/-- The node after a run of `accept_pointer` calls, each made under whatever
log the node then has. -/
def afterCalls (C : Crypto) (node : PointerNode)
    (calls : List (GovernanceLog × MutablePointer)) : PointerNode :=
  calls.foldl
    (fun node call => ({ node with log := call.1 }.acceptPointer C call.2).2)
    node

/-- The node after the records were delivered, its log staying as it is. -/
def afterRecords (C : Crypto) (node : PointerNode)
    (records : List MutablePointer) : PointerNode :=
  node.afterCalls C (records.map fun p => (node.log, p))

end PointerNode

end Intranet
