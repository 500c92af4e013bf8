import Intranet.Ref.StorageWire

/-!
# The pointer exchange

What `node.rs` does to bring a peer's pointers over: a digest request, the
peer's digest, a fetch of the entries worth having, the peer's records, each
accepted or refused on arrival. Requests and responses pass through the wire
form on the way, and one that cannot be read ends the exchange.

A digest lists the first `maxPointersPerResponse` pointers in the order of
their ids and nothing else; the next exchange starts from the beginning again.
-/

namespace Intranet

namespace PointerNode

/-- Wrappings held for a pointer, by rotation. -/
def wrappingsFor (node : PointerNode) (pointerId : PointerId) :
    List DekWrapping :=
  match node.wrappings[pointerId]? with
  | some byRotation => byRotation.toList.map Prod.snd
  | none => []

/-- A held wrapping, by pointer and rotation. -/
def wrappingUnder (node : PointerNode) (pointerId : PointerId)
    (rotationRef : Hash) : Option DekWrapping :=
  node.wrappings[pointerId]?.bind fun byRotation => byRotation[rotationRef]?

/-! ## Serving -/

/-- `may_serve`. -/
def mayServe (requester : PerNetworkIdentityId) (state : GovernanceState) :
    Bool :=
  state.identityHolds requester .readContent

def digestEntry (C : Crypto) (p : MutablePointer) : PointerDigestEntry :=
  ⟨p.pointerId, p.version, p.recordHash C⟩

/-- The record a fetch of `id` is answered with. -/
def recordFor (node : PointerNode) (id : PointerId) : Option PointerRecord :=
  node.pointers[id]?.map fun p => ⟨p, node.wrappingsFor id⟩

/-- Answers a pointer request, applying the serving gate. -/
def servePointers (C : Crypto) (node : PointerNode)
    (request : PointerRequest) : PointerResponse :=
  match node.governanceState C with
  | none => .refused .cannotEvaluate
  | some state =>
      if !mayServe request.requester state then .refused .noReadContent
      else
        match request with
        | .digest .. =>
            let entries := ((node.pointers.toList.map Prod.snd).filter fun p =>
              !state.delisted.contains p.pointerId).map (digestEntry C)
            .digest (entries.take maxPointersPerResponse)
              (decide (maxPointersPerResponse < entries.length))
        | .fetch wanted .. =>
            let records := (wanted.filter fun id =>
              !state.delisted.contains id).filterMap node.recordFor
            .records (records.take maxPointersPerResponse)
              (decide (maxPointersPerResponse < records.length))

/-- Answers a request that arrived from `peer`. A peer id is the key of an
identity, so that of the named requester is compared as the identity. -/
def answerPointers (C : Crypto) (node : PointerNode)
    (peer : PerNetworkIdentityId) (request : PointerRequest) :
    PointerResponse :=
  if request.requester ≠ peer then .refused .noReadContent
  else node.servePointers C request

/-! ## Asking -/

/-- Whether a digest entry names a record worth fetching. -/
def worthFetching (C : Crypto) (node : PointerNode)
    (entry : PointerDigestEntry) : Bool :=
  match node.pointers[entry.pointerId]? with
  | none => true
  | some held =>
      decide (held.version < entry.version) ||
        (decide (entry.version = held.version) &&
          decide (entry.recordHash ≠ held.recordHash C))

def pointersWorthFetching (C : Crypto) (node : PointerNode)
    (entries : List PointerDigestEntry) : List PointerId :=
  (entries.filter (node.worthFetching C)).map PointerDigestEntry.pointerId

/-- The record first, then its wrappings. -/
def receiveRecord (C : Crypto) (node : PointerNode) (record : PointerRecord) :
    PointerNode :=
  record.wrappings.foldl (fun node w => (node.acceptWrapping C w).2)
    (node.acceptPointer C record.pointer).2

def receiveRecords (C : Crypto) (node : PointerNode)
    (records : List PointerRecord) : PointerNode :=
  records.foldl (receiveRecord C) node

/-- Handles a response: the node after it, and the pointers it then asks
for. -/
def handleResponse (C : Crypto) (node : PointerNode) :
    PointerResponse → PointerNode × List PointerId
  | .digest entries _ => (node, node.pointersWorthFetching C entries)
  | .records records _ => (node.receiveRecords C records, [])
  | .refused _ => (node, [])

/-- A request sent to `responder`, and the response if both arrive. -/
def ask (C : Crypto) (validKey : Bytes 32 → Bool)
    (me : PerNetworkIdentity C validKey) (responder : PointerNode)
    (request : PointerRequest) : Option PointerResponse :=
  match request.transfer C validKey with
  | .error _ => none
  | .ok read =>
      ((responder.answerPointers C me.id read).transfer C validKey).toOption

/-- One exchange, started by a digest request. -/
def pointerRound (C : Crypto) (validKey : Bytes 32 → Bool)
    (me : PerNetworkIdentity C validKey) (requester responder : PointerNode) :
    PointerNode :=
  match ask C validKey me responder (.forDigest me) with
  | none => requester
  | some response =>
      let handled := requester.handleResponse C response
      if handled.2.isEmpty then handled.1
      else
        match ask C validKey me responder (.forFetch me handled.2) with
        | none => handled.1
        | some response => (handled.1.handleResponse C response).1

/-- The requester after `n` exchanges. -/
def afterPointerRounds (C : Crypto) (validKey : Bytes 32 → Bool)
    (me : PerNetworkIdentity C validKey) (responder : PointerNode) :
    ℕ → PointerNode → PointerNode
  | 0, requester => requester
  | n + 1, requester =>
      afterPointerRounds C validKey me responder n
        (pointerRound C validKey me requester responder)

/-- A node the code can get to: its log changes in whatever way, and records
and wrappings come in through the two methods. Their keys are keys of the
curve, since a `VerifyingKey` of the source is one. -/
inductive Reachable (C : Crypto) (validKey : Bytes 32 → Bool) :
    PointerNode → Prop where
  | new (log : GovernanceLog) : Reachable C validKey (new log)
  | setLog {node : PointerNode} (log : GovernanceLog) :
      Reachable C validKey node → Reachable C validKey { node with log }
  | acceptPointer {node : PointerNode} {p : MutablePointer} :
      Reachable C validKey node → validKey p.ownerIdentity.key.bytes = true →
        Reachable C validKey (node.acceptPointer C p).2
  | acceptWrapping {node : PointerNode} {w : DekWrapping} :
      Reachable C validKey node → validKey w.wrapperIdentity.key.bytes = true →
        Reachable C validKey (node.acceptWrapping C w).2

end PointerNode

end Intranet
