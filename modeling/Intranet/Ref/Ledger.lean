import Intranet.Ref.State

/-!
# The capability ledger, placement and local observations

The ledger crate: `advertisement.rs`, the store of `lib.rs`, the rendezvous
ranking of `placement.rs` and the counters of `reliability.rs`. A node
advertises what it will contribute; the ledger keeps one advertisement per
node, and everything that ranks nodes reads it. What a node has observed of
its peers stays beside the ledger and never enters the ranking.

Failure rates are compared in `f64`, which is what `Float` is.
-/

namespace Intranet

/-! ## Advertisements -/

/-- A window within a day, in minutes from midnight. -/
structure TimeOfDayWindow where
  startMinute : UInt16
  endMinute : UInt16
deriving DecidableEq

/-- Declared throughput limits. -/
structure BandwidthCap where
  upBytesPerSec : UInt64
  downBytesPerSec : UInt64
  activeWindow : Option TimeOfDayWindow
deriving DecidableEq

def BandwidthCap.encode (cap : BandwidthCap) : List UInt8 :=
  Enc.u64 cap.upBytesPerSec ++ Enc.u64 cap.downBytesPerSec ++
    Enc.option cap.activeWindow fun window =>
      Enc.u32 window.startMinute.toUInt32 ++ Enc.u32 window.endMinute.toUInt32

/-- A coarse hint about a node's compute capacity. -/
inductive ComputeClass where
  | minimal
  | modest
  | substantial
deriving DecidableEq

def ComputeClass.discriminant : ComputeClass → UInt8
  | .minimal => 0
  | .modest => 1
  | .substantial => 2

/-- What one node advertises it will contribute, for one network. -/
structure CapabilityAdvertisement where
  network : NetworkId
  node : PerNetworkIdentityId
  storageOffered : UInt64
  bandwidthCap : BandwidthCap
  relayBootstrapWilling : Bool
  relayMediaWilling : Bool
  computeClass : ComputeClass
  issuedAt : Timestamp
  signature : Signature
deriving DecidableEq

/-- The errors of the ledger's own operations. -/
inductive LedgerError where
  | badSignature
  | networkMismatch (advertisementNetwork ledgerNetwork : String)
  | notAMember (node : String)
deriving DecidableEq

namespace CapabilityAdvertisement

/-- What the node signs. -/
def payload (a : CapabilityAdvertisement) : List UInt8 :=
  Enc.domain "intranet.capability-advertisement.v1" ++ a.network.encode ++
    a.node.encode ++ Enc.u64 a.storageOffered ++ a.bandwidthCap.encode ++
    Enc.bool a.relayBootstrapWilling ++ Enc.bool a.relayMediaWilling ++
    Enc.u8 a.computeClass.discriminant ++ Enc.i64 a.issuedAt.millis

/-- Verifies the advertisement's signature. -/
def verify (C : Crypto) (a : CapabilityAdvertisement) :
    Except LedgerError Unit :=
  if C.verify a.node.key a.payload a.signature then .ok ()
  else .error .badSignature

/-- Whether this advertisement has aged past `ttlMillis`. -/
def isStale (a : CapabilityAdvertisement) (now : Timestamp)
    (ttlMillis : Int64) : Bool :=
  decide (ttlMillis < now.millisSince a.issuedAt)

end CapabilityAdvertisement

/-! ## The ledger -/

/-- Locally cached view of what peers have advertised for one network. Only
`insert` writes an entry, under the node it names. -/
structure CapabilityLedger where
  network : NetworkId
  entries : BTreeMap PerNetworkIdentityId CapabilityAdvertisement
  keyed : ∀ (node : PerNetworkIdentityId) (a : CapabilityAdvertisement),
    entries[node]? = some a → a.node = node

namespace CapabilityLedger

/-- An empty ledger for a network. -/
def new (network : NetworkId) : CapabilityLedger :=
  ⟨network, ∅, by simp⟩

/-- The store after an advertisement took its node's place. -/
def put (ledger : CapabilityLedger) (a : CapabilityAdvertisement) :
    CapabilityLedger where
  network := ledger.network
  entries := ledger.entries.insert a.node a
  keyed := by
    intro node b hb
    rw [BTreeMap.getElem?_insert_ite] at hb
    split at hb
    · next hnode =>
        cases hb
        exact hnode
    · exact ledger.keyed node b hb

/-- Records an advertisement, replacing any older one from the same node. -/
def insert (C : Crypto) (ledger : CapabilityLedger)
    (a : CapabilityAdvertisement) (state : GovernanceState) :
    Except LedgerError CapabilityLedger := do
  a.verify C
  if a.network ≠ ledger.network then
    throw (.networkMismatch a.network.short ledger.network.short)
  if !state.isMember a.node then
    throw (.notAMember a.node.short)
  match ledger.entries[a.node]? with
  | some existing =>
      if a.issuedAt.millis ≤ existing.issuedAt.millis then return ledger
      else return ledger.put a
  | none => return ledger.put a

/-- A node's current advertisement. -/
def get (ledger : CapabilityLedger) (node : PerNetworkIdentityId) :
    Option CapabilityAdvertisement :=
  ledger.entries[node]?

/-- Nodes that have offered storage. -/
def storageCandidates (ledger : CapabilityLedger) :
    List CapabilityAdvertisement :=
  (ledger.entries.toList.map Prod.snd).filter fun a => 0 < a.storageOffered

/-- Nodes willing to relay real-time media. -/
def mediaRelayCandidates (ledger : CapabilityLedger) :
    List CapabilityAdvertisement :=
  (ledger.entries.toList.map Prod.snd).filter fun a => a.relayMediaWilling

/-- What this ledger holds, as pairs of a node and an issue time. -/
def digest (ledger : CapabilityLedger) :
    List (PerNetworkIdentityId × Timestamp) :=
  ledger.entries.toList.map fun e => (e.1, e.2.issuedAt)

/-- Whether a peer's copy of `node`'s advertisement is worth asking for. -/
def wants (ledger : CapabilityLedger) (node : PerNetworkIdentityId)
    (issuedAt : Timestamp) : Bool :=
  match ledger.entries[node]? with
  | none => true
  | some held => decide (held.issuedAt.millis < issuedAt.millis)

/-- Which of a peer's digest entries are worth asking for. -/
def wantedFrom (ledger : CapabilityLedger)
    (digest : List (PerNetworkIdentityId × Timestamp)) :
    List PerNetworkIdentityId :=
  (digest.filter fun e => ledger.wants e.1 e.2).map Prod.fst

/-- Advertisements for `nodes`, capped at `max`, and whether the cap cut
any off. -/
def fetch (ledger : CapabilityLedger) (nodes : List PerNetworkIdentityId)
    (max : Nat) : List CapabilityAdvertisement × Bool :=
  let matched := nodes.filterMap fun node => ledger.entries[node]?
  (matched.take max, decide (max < matched.length))

/-- Drops advertisements older than `ttlMillis`; answers how many. -/
def expire (ledger : CapabilityLedger) (now : Timestamp) (ttlMillis : Int64) :
    Nat × CapabilityLedger :=
  let kept := ledger.entries.filter fun _ a => !a.isStale now ttlMillis
  (ledger.entries.size - kept.size,
    { network := ledger.network
      entries := kept
      keyed := by
        intro node a h
        rw [Std.ExtTreeMap.getElem?_filter', Option.filter_eq_some_iff] at h
        exact ledger.keyed node a h.1 })

end CapabilityLedger

/-! ## Placement -/

/-- Which declared capacity a ranking weights by. -/
inductive WeightField where
  | storageOffered
  | bandwidthUp
deriving DecidableEq

def WeightField.weightOf (field : WeightField) (a : CapabilityAdvertisement) :
    UInt64 :=
  match field with
  | .storageOffered => a.storageOffered
  | .bandwidthUp => a.bandwidthCap.upBytesPerSec

/-- One candidate's computed placement score. -/
structure ScoredCandidate where
  node : PerNetworkIdentityId
  score : Nat
deriving DecidableEq

namespace Placement

/-- The number a big-endian byte string spells. -/
def ofBigEndian (bytes : List UInt8) : Nat :=
  bytes.foldl (fun n b => 256 * n + b.toNat) 0

/-- The score of one candidate: the first eight bytes of the digest times the
weight. The product of two `u64` values fits the source's `u128`. -/
def score (C : Crypto) (key : List UInt8) (node : PerNetworkIdentityId)
    (weight : UInt64) : Nat :=
  let digest := C.hashBytes
    (Enc.domain "intranet.hrw.v1" ++ Enc.bytes key ++ node.encode)
  ofBigEndian (digest.bytes.toList.take 8) * weight.toNat

/-- The higher score first, the lower node of two with the same score. -/
def rankOrder (a b : ScoredCandidate) : Prop :=
  b.score < a.score ∨ (a.score = b.score ∧ a.node ≤ b.node)

instance : DecidableRel rankOrder := fun a b =>
  inferInstanceAs (Decidable (b.score < a.score ∨
    (a.score = b.score ∧ a.node ≤ b.node)))

/-- Ranks candidates for `key`. A weight of zero takes no part at all. -/
def rank (C : Crypto) (key : List UInt8)
    (candidates : List CapabilityAdvertisement) (field : WeightField) :
    List ScoredCandidate :=
  (candidates.filterMap fun a =>
    let weight := field.weightOf a
    if 0 < weight then some ⟨a.node, score C key a.node weight⟩
    else none).insertionSort rankOrder

/-- Selects the top `n` candidates for `key`. -/
def select (C : Crypto) (key : List UInt8)
    (candidates : List CapabilityAdvertisement) (field : WeightField) (n : Nat) :
    List PerNetworkIdentityId :=
  ((rank C key candidates field).take n).map ScoredCandidate.node

end Placement

/-- Selects replica holders for a content identifier. -/
def CapabilityLedger.selectReplicas (C : Crypto) (ledger : CapabilityLedger)
    (cid : List UInt8) (count : Nat) : List PerNetworkIdentityId :=
  Placement.select C cid ledger.storageCandidates .storageOffered count

/-- Selects a live stream's first redistribution tier. -/
def CapabilityLedger.selectStreamTier (C : Crypto) (ledger : CapabilityLedger)
    (streamId : List UInt8) (count : Nat) : List PerNetworkIdentityId :=
  Placement.select C streamId ledger.mediaRelayCandidates .bandwidthUp count

/-! ## Local observations -/

/-- What one node has observed about one peer. -/
structure PeerObservations where
  verified : UInt64
  failed : UInt64
deriving DecidableEq

namespace PeerObservations

/-- Total items observed, saturating. -/
def total (o : PeerObservations) : UInt64 :=
  UInt64.ofNat (min (UInt64.size - 1) (o.verified.toNat + o.failed.toNat))

/-- The failure rate, `none` when nothing has been observed. -/
def failureRate (o : PeerObservations) : Option Float :=
  if 0 < o.total then some (o.failed.toFloat / o.total.toFloat) else none

end PeerObservations

/-- One node's private observations about its peers. -/
structure ReliabilityObservations where
  counters : BTreeMap PerNetworkIdentityId PeerObservations

namespace ReliabilityObservations

def new : ReliabilityObservations := ⟨∅⟩

def forPeer (o : ReliabilityObservations) (peer : PerNetworkIdentityId) :
    PeerObservations :=
  o.counters[peer]?.getD ⟨0, 0⟩

end ReliabilityObservations

end Intranet
