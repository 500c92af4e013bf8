import Intranet.Ref.Audit
import Intranet.Ref.DirectOnly
import Intranet.Ref.Fetch
import Intranet.Ref.ObjectWire

/-!
# Fetching chunks

The chunk half of `node.rs`, over `store.rs` and the plan of `fetch.rs`. A
node keeps one fetch at a time. It looks up who holds each chunk, sends the
requests the plan says to send, and remembers for each request what it was
for: a response carries bytes but not the name they were asked for under.
Every outcome goes back to the plan, and the fetch is over when the plan is.

Kademlia and the request protocol are reached by identifiers they hand out,
fresh ones each time. A peer's identifier stands for an identity or for none.
-/

namespace Intranet

/-! ## The store -/

/-- Chunks a node holds and can serve. -/
structure ChunkStore where
  chunks : BTreeMap Cid (List UInt8)
deriving DecidableEq

namespace ChunkStore

def new : ChunkStore := ⟨∅⟩

/-- Stores bytes under their own content identifier. -/
def put (C : Crypto) (store : ChunkStore) (bytes : List UInt8) :
    Cid × ChunkStore :=
  let cid := Cid.of C bytes
  (cid, ⟨store.chunks.insert cid bytes⟩)

/-- Stores bytes received as `cid`, if they match it. -/
def insert (C : Crypto) (store : ChunkStore) (cid : Cid) (bytes : List UInt8) :
    Except StorageError ChunkStore :=
  if !cid.verifies C bytes then .error (.chunkVerificationFailed cid.short)
  else .ok ⟨store.chunks.insert cid bytes⟩

def get (store : ChunkStore) (cid : Cid) : Option (List UInt8) :=
  store.chunks[cid]?

def has (store : ChunkStore) (cid : Cid) : Bool := store.chunks.contains cid

/-- Drops a chunk. -/
def remove (store : ChunkStore) (cid : Cid) : ChunkStore :=
  ⟨store.chunks.erase cid⟩

end ChunkStore

/-! ## What a plan reports -/

namespace FetchPlan

/-- The chunks in a state, in the order of their identifiers. -/
def collect (plan : FetchPlan) (matching : ChunkState → Bool) : List Cid :=
  (plan.chunks.toList.filter fun c => matching c.2).map Prod.fst

def received (plan : FetchPlan) : List Cid :=
  plan.collect fun state => state = .done

def unavailable (plan : FetchPlan) : List Cid :=
  plan.collect fun state => state = .exhausted

def overBudget (plan : FetchPlan) : List Cid :=
  plan.collect fun state => state = .overBudget

/-- The objects whose chunks took more than they were given. -/
def overrunObjects (plan : FetchPlan) : List Cid :=
  (plan.budgets.filter Budget.exceeded).map Budget.object

end FetchPlan

/-! ## Requests -/

/-- A signed request for a chunk. -/
structure ChunkRequest where
  cid : Cid
  requester : PerNetworkIdentityId
  signature : Signature
deriving DecidableEq

namespace ChunkRequest

/-- What the requester signs. -/
def payload (cid : Cid) (requester : PerNetworkIdentityId) : List UInt8 :=
  Enc.domain "intranet.chunk-request.v1" ++ Enc.fixed cid.hash.bytes ++
    requester.encode

def create {C : Crypto} {validKey : Bytes 32 → Bool}
    (requester : PerNetworkIdentity C validKey) (cid : Cid) : ChunkRequest :=
  ⟨cid, requester.id, requester.sign (payload cid requester.id)⟩

end ChunkRequest

/-- The two directions between identities and the identifiers of peers. -/
structure PeerIds where
  peerId : PerNetworkIdentityId → PeerId
  fromPeerId : PeerId → Option PerNetworkIdentityId

/-- What the handlers report. -/
inductive ChunkReport where
  | chunkReceived (peer : PeerId) (cid : Cid) (bytes : ℕ)
  | chunkUnavailable (peer : PeerId) (cid : Cid) (reason : String)
      (countedAgainstPeer : Bool)
  | providersFound (cid : Cid) (holderCount : ℕ)
      (providers : List PerNetworkIdentityId)
  | fetchComplete (received unavailable overBudget : List Cid)
deriving DecidableEq

/-- A request that was sent: to whom, and which chunk it was for. -/
structure Outstanding where
  peer : PeerId
  source : PerNetworkIdentityId
  cid : Cid
deriving DecidableEq

/-! ## The node -/

/-- What the chunk handlers read and write of a node. -/
structure ChunkNode where
  chunks : ChunkStore
  ledger : CapabilityLedger
  tiers : BTreeSet PeerId
  observations : AuditedObservations
  discovery : Bool
  nextQuery : ℕ
  providerQueries : BTreeMap ℕ (Cid × BTreeSet PeerId)
  nextRequest : ℕ
  inflight : BTreeMap ℕ Outstanding
  sent : List (PeerId × ChunkRequest)
  fetch : Option FetchPlan
  fetchRequests : BTreeMap Cid ChunkRequest
  overrunObjects : BTreeSet Cid
  pending : List ChunkReport

/-- The failure rate a source is avoided from. -/
def unreliableFailureRate : Float := 0.5

namespace ChunkNode

variable {C : Crypto} {validKey : Bytes 32 → Bool}

/-- A node that holds and asks for nothing. -/
def new (network : NetworkId) (discovery : Bool) : ChunkNode :=
  ⟨.new, .new network, ∅, .new, discovery, 0, ∅, 0, ∅, [], none, ∅, ∅, []⟩

/-! ### Driving a fetch -/

/-- Asks who holds `cid`. A node without discovery asks nobody. -/
def findProviders (node : ChunkNode) (cid : Cid) : ChunkNode :=
  if !node.discovery then node
  else
    { node with
      nextQuery := node.nextQuery + 1
      providerQueries := node.providerQueries.insert node.nextQuery (cid, ∅) }

/-- Sends a prepared request and remembers what it was for. -/
def sendChunkRequest (P : PeerIds) (node : ChunkNode)
    (source : PerNetworkIdentityId) (request : ChunkRequest) : ChunkNode :=
  let peer := P.peerId source
  { node with
    sent := node.sent ++ [(peer, request)]
    nextRequest := node.nextRequest + 1
    inflight := node.inflight.insert node.nextRequest
      ⟨peer, source, request.cid⟩ }

/-- One round of the loop of `drive_fetch`. -/
def sendNext (P : PeerIds) (node : ChunkNode)
    (next : Cid × PerNetworkIdentityId) : ChunkNode :=
  match node.fetchRequests[next.1]? with
  | none => node
  | some request => node.sendChunkRequest P next.2 request

/-- Issues whatever the plan says to issue next. -/
def driveFetch (P : PeerIds) (node : ChunkNode) : ChunkNode :=
  match node.fetch with
  | none => node
  | some plan =>
      plan.nextRequests.1.foldl (sendNext P)
        { node with fetch := some plan.nextRequests.2 }

/-- Takes the completion event if the fetch has just finished. -/
def completedFetch (node : ChunkNode) : Option ChunkReport × ChunkNode :=
  match node.fetch with
  | none => (none, node)
  | some plan =>
      if !plan.isComplete then (none, node)
      else
        (some (.fetchComplete plan.received plan.unavailable plan.overBudget),
          { node with fetch := none, fetchRequests := ∅ })

/-- Whether a fetch is running. -/
def fetchInProgress (node : ChunkNode) : Bool :=
  node.fetch.any fun plan => !plan.isComplete

/-- The completion event goes behind what is returned now. -/
def reportCompletion (node : ChunkNode) : ChunkNode :=
  match node.completedFetch with
  | (none, node) => node
  | (some done, node) => { node with pending := node.pending ++ [done] }

/-- Records a chunk outcome against the running plan and issues what is
next. -/
def noteFetchOutcome (P : PeerIds) (node : ChunkNode) (cid : Cid)
    (received : Bool) : ChunkNode :=
  match node.fetch with
  | none => node
  | some plan =>
      let plan := if received then plan.recordReceived cid
        else plan.recordFailed cid
      (driveFetch P { node with fetch := some plan }).reportCompletion

/-- Charges a verified chunk to the running plan, and says whether to keep
it. -/
def admitToFetch (P : PeerIds) (node : ChunkNode) (cid : Cid) (len : ℕ) :
    Bool × ChunkNode :=
  match node.fetch with
  | none => (true, node)
  | some plan =>
      let (kept, plan) := plan.admitChunk cid len
      let node := { node with
        fetch := some plan
        overrunObjects := plan.overrunObjects.foldl (·.insert ·)
          node.overrunObjects }
      (kept, if !kept then node.driveFetch P else node)

/-! ### Starting a fetch -/

/-- The loop of `start_fetch` that prepares the requests. -/
def prepare (requester : PerNetworkIdentity C validKey)
    (requests : BTreeMap Cid ChunkRequest) (cid : Cid) :
    BTreeMap Cid ChunkRequest :=
  match requests[cid]? with
  | none => requests.insert cid (.create requester cid)
  | some _ => requests

def startFetch (P : PeerIds) (node : ChunkNode) (wanted : List Cid)
    (budget : Option (Cid × ℕ)) (requester : PerNetworkIdentity C validKey)
    (concurrency : ℕ) : ChunkNode :=
  let running := node.fetch.getD (.new [] concurrency)
  let plan := match budget with
    | some (object, bytes) => running.extendWithin object wanted bytes
    | none => running.extend wanted
  let node := { node with
    fetchRequests := wanted.foldl (prepare requester) node.fetchRequests
    fetch := some plan }
  (plan.providersNeeded.foldl findProviders node).driveFetch P

/-- Fetches chunks from the swarm. -/
def fetchChunks (P : PeerIds) (node : ChunkNode) (cids : List Cid)
    (requester : PerNetworkIdentity C validKey) (concurrency : ℕ) : ChunkNode :=
  node.startFetch P (cids.filter fun cid => !node.chunks.has cid) none requester
    concurrency

/-- Bytes held of an object, each chunk once. -/
def heldOf (node : ChunkNode) (distinct : BTreeSet Cid) : ℕ :=
  (distinct.toList.filterMap fun cid =>
    (node.chunks.get cid).map List.length).sum

/-- Fetches the chunks a manifest names, taking no more bytes for them than it
declares. -/
def fetchObject (P : PeerIds) (node : ChunkNode) (object : Cid)
    (manifest : Manifest) (requester : PerNetworkIdentity C validKey)
    (concurrency : ℕ) : Bool × ChunkNode :=
  if node.overrunObjects.contains object then (false, node)
  else
    let distinct : BTreeSet Cid := Std.ExtTreeSet.ofList manifest.chunks compare
    let held := node.heldOf distinct
    if manifest.ciphertextBound < held then
      (false, { node with overrunObjects := node.overrunObjects.insert object })
    else
      let wanted := distinct.toList.filter fun cid => !node.chunks.has cid
      (true,
        if !wanted.isEmpty then
          node.startFetch P wanted
            (some (object, manifest.ciphertextBound - held)) requester
            concurrency
        else node)

/-- Requests one chunk from a peer. -/
def requestChunk (P : PeerIds) (node : ChunkNode)
    (source : PerNetworkIdentityId) (cid : Cid)
    (requester : PerNetworkIdentity C validKey) : ChunkNode :=
  node.sendChunkRequest P source (.create requester cid)

/-- Stores a chunk of this node's own. -/
def storeChunk (C : Crypto) (node : ChunkNode) (bytes : List UInt8) :
    Cid × ChunkNode :=
  let (cid, chunks) := node.chunks.put C bytes
  (cid, { node with chunks })

/-- Drops a chunk. -/
def forgetChunk (node : ChunkNode) (cid : Cid) : ChunkNode :=
  { node with chunks := node.chunks.remove cid }

/-! ### Handlers -/

/-- The providers a query has found grow by a batch. -/
def gather (node : ChunkNode) (query : ℕ) (found : List PeerId) : ChunkNode :=
  match node.providerQueries[query]? with
  | none => node
  | some (cid, known) =>
      { node with
        providerQueries := node.providerQueries.insert query
          (cid, found.foldl (·.insert ·) known) }

/-- The answer of Kademlia to a lookup, in batches. Only the last one is
acted on. -/
def providersProgressed (P : PeerIds) (node : ChunkNode) (query : ℕ)
    (found : List PeerId) (last : Bool) : Option ChunkReport × ChunkNode :=
  let node := node.gather query found
  if !last then (none, node)
  else
    match node.providerQueries[query]? with
    | none => (none, node)
    | some (cid, known) =>
        let providers := known.toList.filterMap P.fromPeerId
        let reachable := node.tiers.toList.filterMap P.fromPeerId
        let node := { node with
          providerQueries := node.providerQueries.erase query }
        let node := match node.fetch with
          | none => node
          | some plan =>
              let plan := plan.recordProviders cid providers reachable
                node.ledger node.observations.toReliabilityObservations
                unreliableFailureRate
              (driveFetch P { node with fetch := some plan }).reportCompletion
        (some (.providersFound cid providers.length providers), node)

/-- A verified chunk, weighed against the budgets. One that is refused is
taken back out, unless it was held before. -/
def chunkVerified (P : PeerIds) (node : ChunkNode) (sent : Outstanding)
    (len : ℕ) (heldBefore : Bool) : Option ChunkReport × ChunkNode :=
  let (kept, node) := node.admitToFetch P sent.cid len
  if !kept then
    let node :=
      if !heldBefore then { node with chunks := node.chunks.remove sent.cid }
      else node
    (some (.chunkUnavailable sent.peer sent.cid
      "past its object's declared size" false), node.reportCompletion)
  else
    let node := { node with
      observations := node.observations.recordVerified sent.source }
    (some (.chunkReceived sent.peer sent.cid len),
      node.noteFetchOutcome P sent.cid true)

/-- The answer to a request. -/
def chunkResponse (C : Crypto) (P : PeerIds) (node : ChunkNode) (request : ℕ)
    (response : ChunkResponse) : Option ChunkReport × ChunkNode :=
  match node.inflight[request]? with
  | none => (none, node)
  | some sent =>
      let node := { node with inflight := node.inflight.erase request }
      match response with
      | .chunk bytes =>
          match node.chunks.insert C sent.cid bytes with
          | .ok chunks =>
              chunkVerified P { node with chunks } sent bytes.length
                (node.chunks.has sent.cid)
          | .error _ =>
              let node := { node with
                observations := node.observations.recordFailed sent.source }
              (some (.chunkUnavailable sent.peer sent.cid
                "failed verification against its content id" true),
                node.noteFetchOutcome P sent.cid false)
      | .notHeld =>
          (some (.chunkUnavailable sent.peer sent.cid "not held" false),
            node.noteFetchOutcome P sent.cid false)
      | .refused reason =>
          let text := match reason with
            | .noReadContent => "refused: requester holds no read-content"
            | .cannotEvaluate =>
                "refused: responder cannot evaluate the gate yet"
          (some (.chunkUnavailable sent.peer sent.cid text false),
            node.noteFetchOutcome P sent.cid false)

/-- A request that could not be delivered or was not answered. -/
def chunkFailed (P : PeerIds) (node : ChunkNode) (peer : PeerId)
    (request : ℕ) (error : String) : Option ChunkReport × ChunkNode :=
  match node.inflight[request]? with
  | none => (none, node)
  | some sent =>
      let node := { node with inflight := node.inflight.erase request }
      (some (.chunkUnavailable peer sent.cid error false),
        node.noteFetchOutcome P sent.cid false)

/-! ### Events -/

/-- What the swarm has for the chunk handlers. -/
inductive Event where
  | providersProgressed (query : ℕ) (found : List PeerId) (last : Bool)
  | response (request : ℕ) (response : ChunkResponse)
  | failed (peer : PeerId) (request : ℕ) (error : String)
deriving DecidableEq

def handle (C : Crypto) (P : PeerIds) (node : ChunkNode) :
    Event → Option ChunkReport × ChunkNode
  | .providersProgressed query found last =>
      node.providersProgressed P query found last
  | .response request response => node.chunkResponse C P request response
  | .failed peer request error => node.chunkFailed P peer request error

/-- One turn of the loop of `next_event`. What an earlier turn left behind is
delivered before the swarm is asked for anything. -/
def nextEvent (C : Crypto) (P : PeerIds) (node : ChunkNode)
    (event : Option Event) : Option ChunkReport × ChunkNode :=
  match node.pending with
  | report :: rest => (some report, { node with pending := rest })
  | [] =>
      match event with
      | none => (none, node)
      | some event => node.handle C P event

/-! ### Runs -/

/-- What can happen to a node: its caller's calls, a turn of the event loop,
and what the handlers of other messages change under these. They leave the
observations alone. -/
inductive Input (C : Crypto) (validKey : Bytes 32 → Bool) where
  | fetchChunks (cids : List Cid) (requester : PerNetworkIdentity C validKey)
      (concurrency : ℕ)
  | fetchObject (object : Cid) (manifest : Manifest)
      (requester : PerNetworkIdentity C validKey) (concurrency : ℕ)
  | requestChunk (source : PerNetworkIdentityId) (cid : Cid)
      (requester : PerNetworkIdentity C validKey)
  | findProviders (cid : Cid)
  | storeChunk (bytes : List UInt8)
  | forgetChunk (cid : Cid)
  | gossiped (ledger : CapabilityLedger) (tiers : BTreeSet PeerId)
  | nextEvent (event : Option Event)

/-- What the caller is told. -/
inductive Answer where
  | done
  | started (ok : Bool)
  | event (report : Option ChunkReport)
deriving DecidableEq

def step (P : PeerIds) (node : ChunkNode) :
    Input C validKey → Answer × ChunkNode
  | .fetchChunks cids requester concurrency =>
      (.done, node.fetchChunks P cids requester concurrency)
  | .fetchObject object manifest requester concurrency =>
      let (ok, node) := node.fetchObject P object manifest requester concurrency
      (.started ok, node)
  | .requestChunk source cid requester =>
      (.done, node.requestChunk P source cid requester)
  | .findProviders cid => (.done, node.findProviders cid)
  | .storeChunk bytes => (.done, (node.storeChunk C bytes).2)
  | .forgetChunk cid => (.done, node.forgetChunk cid)
  | .gossiped ledger tiers => (.done, { node with ledger, tiers })
  | .nextEvent event =>
      let (report, node) := node.nextEvent C P event
      (.event report, node)

end ChunkNode

end Intranet
