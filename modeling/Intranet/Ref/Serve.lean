import Intranet.Ref.PointerSync
import Intranet.Ref.Sync
import Intranet.Ref.Wire

/-!
# What a node serves

A node answers three kinds of request out of what it has stored: pointers and
their wrappings, stretches of the governance log, and the entries of an
append-set collection. Each answer is cut at a fixed number of items. How long
the items are was settled when they were stored, or never looked at.

The collection messages are those of the storage crate's `wire.rs`, the
collections and the two handlers those of `node.rs`.
-/

namespace Intranet

open StorageWire

/-- `MAX_COLLECTION_ENTRIES`. -/
def maxCollectionEntries : ℕ := 512

/-! ## Collection messages -/

/-- A request to enumerate one append-set collection. -/
structure CollectionRequest where
  collectionId : Hash
  requester : PerNetworkIdentityId
  signature : Signature
deriving DecidableEq

/-- Why a node would not serve content. -/
inductive ChunkRefusal where
  | noReadContent
  | cannotEvaluate
deriving DecidableEq

/-- The byte a refusal is written as. -/
def ChunkRefusal.code : ChunkRefusal → UInt8
  | noReadContent => 0
  | cannotEvaluate => 1

/-- A response to a collection enumeration. -/
inductive CollectionResponse where
  | entries (payloads : List (List UInt8)) (truncated : Bool)
  | refused (reason : ChunkRefusal)
deriving DecidableEq

namespace CollectionResponse

def wireDomain : String := "intranet.wire.collection-response.v1"

def put : CollectionResponse → List UInt8
  | entries payloads truncated =>
      Enc.variant 0 ++ Enc.seq payloads Enc.bytes ++ Enc.bool truncated
  | refused reason => Enc.variant 1 ++ Enc.u8 reason.code

def encode (r : CollectionResponse) : List UInt8 :=
  Enc.domain wireDomain ++ r.put

def getRefusal : Reader StorageWireError ChunkRefusal := do
  match ← Dec.u8 with
  | 0 => return .noReadContent
  | 1 => return .cannotEvaluate
  | other => unknown "ChunkRefusal" other

def get : Reader StorageWireError CollectionResponse := do
  match ← Dec.variant with
  | 0 => do
      let payloads ← Dec.seq Dec.bytes
      let truncated ← Dec.bool
      return .entries payloads truncated
  | 1 => do
      let reason ← getRefusal
      return .refused reason
  | other => unknown "CollectionResponse" other

/-- Decodes a response. -/
def decode (bytes : List UInt8) :
    Except StorageWireError CollectionResponse :=
  Dec.decode (do
    Dec.domain wireDomain
    let response ← get
    Dec.finish
    return response) bytes

end CollectionResponse

/-! ## The node -/

/-- The stores a node serves from: the log, the pointers with their wrappings,
and the collections, each keyed by entry id. -/
structure MemberNode extends PointerNode where
  collections : BTreeMap Hash (BTreeMap Hash (List UInt8))

namespace MemberNode

/-- A node that has stored nothing. -/
def new : MemberNode := ⟨PointerNode.new .new, ∅⟩

/-- Publishes an entry into a collection, in place of any under its id. -/
def publishToCollection (node : MemberNode) (collectionId entryId : Hash)
    (payload : List UInt8) : MemberNode :=
  { node with
    collections := node.collections.insert collectionId
      ((node.collections[collectionId]?.getD ∅).insert entryId payload) }

/-- Entries this node holds for a collection, in the order of their ids. -/
def collectionEntries (node : MemberNode) (collectionId : Hash) :
    List (List UInt8) :=
  match node.collections[collectionId]? with
  | some held => held.toList.map Prod.snd
  | none => []

/-- Answers an enumeration request, applying the same gate as content. -/
def serveCollection (C : Crypto) (node : MemberNode)
    (request : CollectionRequest) : CollectionResponse :=
  match node.governanceState C with
  | none => .refused .cannotEvaluate
  | some state =>
      if !PointerNode.mayServe request.requester state then
        .refused .noReadContent
      else
        let held := node.collectionEntries request.collectionId
        .entries (held.take maxCollectionEntries)
          (decide (maxCollectionEntries < held.length))

/-- Answers a request that arrived from `peer`. -/
def answerCollection (C : Crypto) (node : MemberNode)
    (peer : PerNetworkIdentityId) (request : CollectionRequest) :
    CollectionResponse :=
  if request.requester ≠ peer then .refused .noReadContent
  else node.serveCollection C request

/-- Answers a `Fetch` of log entries, which no gate stands before. -/
def answerFetch (node : MemberNode) (wanted held : List Hash) : SyncResponse :=
  let answer := node.log.ancestorsFirst wanted held maxEntriesPerResponse
  .entries answer.1 answer.2

end MemberNode

end Intranet
