import Intranet.Ref.Ledger
import Intranet.Ref.Object

/-!
# Replica maintenance and repair

`replication.rs`. Nodes announce what they hold; a view collects the
announcements, judges a content item against the replication target and plans
where further copies should go. Only a copy on a node that placement assigned
counts towards the target.
-/

namespace Intranet

/-- A signed statement that a node currently holds some content. -/
structure HoldingAnnouncement where
  network : NetworkId
  node : PerNetworkIdentityId
  holdings : BTreeSet Cid
  announcedAt : Timestamp
  signature : Signature

namespace HoldingAnnouncement

/-- What the node signs. -/
def payload (a : HoldingAnnouncement) : List UInt8 :=
  Enc.domain "intranet.holding-announcement.v1" ++ a.network.encode ++
    a.node.encode ++ Enc.seq a.holdings.toList (fun cid => Enc.fixed cid.hash.bytes) ++
    Enc.i64 a.announcedAt.millis

/-- Verifies the announcement's signature. -/
def verify (C : Crypto) (a : HoldingAnnouncement) : Except StorageError Unit :=
  if C.verify a.node.key a.payload a.signature then .ok ()
  else .error .badSignature

end HoldingAnnouncement

/-- How a piece of content is doing against its replication target. -/
inductive ReplicationHealth where
  | healthy
  | degraded
  | underReplicated
  | lost
deriving DecidableEq

/-- A content item's current replication standing. -/
structure ReplicationStatus where
  cid : Cid
  target : Nat
  durableHolders : List PerNetworkIdentityId
  opportunisticHolders : List PerNetworkIdentityId
  eligible : Nat
  health : ReplicationHealth
deriving DecidableEq

/-- Work needed to restore a content item to its replication target. -/
structure RepairPlan where
  cid : Cid
  assignTo : List PerNetworkIdentityId
deriving DecidableEq

/-- `DEFAULT_HOLDING_TTL_MILLIS`. -/
def defaultHoldingTtlMillis : Int64 := 15 * 60000

/-- A node's local view of who holds what, with the time of the freshest
announcement. -/
structure ReplicationView where
  network : NetworkId
  holders : BTreeMap Cid (BTreeMap PerNetworkIdentityId Timestamp)
  ttlMillis : Int64

namespace ReplicationView

/-- An empty view. -/
def new (network : NetworkId) : ReplicationView :=
  ⟨network, ∅, defaultHoldingTtlMillis⟩

/-- Sets how long announcements stay live without refresh. -/
def withTtl (view : ReplicationView) (ttlMillis : Int64) : ReplicationView :=
  { view with ttlMillis }

/-- The later of two announcement times. -/
def fresher (a b : Timestamp) : Timestamp :=
  if a.millis ≤ b.millis then b else a

/-- One content item of an announcement. -/
def recordHolding (node : PerNetworkIdentityId) (announcedAt : Timestamp)
    (holders : BTreeMap Cid (BTreeMap PerNetworkIdentityId Timestamp))
    (cid : Cid) : BTreeMap Cid (BTreeMap PerNetworkIdentityId Timestamp) :=
  let nodes := holders[cid]?.getD ∅
  let time :=
    match nodes[node]? with
    | some current => fresher current announcedAt
    | none => announcedAt
  holders.insert cid (nodes.insert node time)

/-- Records an announcement after validating it. -/
def record (C : Crypto) (view : ReplicationView) (a : HoldingAnnouncement)
    (state : GovernanceState) : Except StorageError ReplicationView := do
  a.verify C
  if a.network ≠ view.network then
    throw .wrongCollection
  if !state.isMember a.node then
    throw (.publisherNotAMember a.node.short)
  return { view with
    holders := a.holdings.toList.foldl (recordHolding a.node a.announcedAt)
      view.holders }

/-- The announcements of one content item that have not aged out. -/
def fresh (view : ReplicationView) (now : Timestamp)
    (nodes : BTreeMap PerNetworkIdentityId Timestamp) :
    BTreeMap PerNetworkIdentityId Timestamp :=
  nodes.filter fun _ announced =>
    decide (now.millisSince announced ≤ view.ttlMillis)

/-- Drops announcements that have aged out, and content items nobody is left
for; answers how many announcements. -/
def expire (view : ReplicationView) (now : Timestamp) : Nat × ReplicationView :=
  ((view.holders.toList.map fun e =>
      e.2.size - (view.fresh now e.2).size).sum,
    { view with
      holders := view.holders.filterMap fun _ nodes =>
        let kept := view.fresh now nodes
        if kept.isEmpty then none else some kept })

/-- Nodes currently known to hold `cid`. -/
def holdersOf (view : ReplicationView) (cid : Cid) : List PerNetworkIdentityId :=
  (view.holders[cid]?.map fun nodes => nodes.keys).getD []

/-- The ranking of the nodes that offer storage, for a content item. -/
def ranked (C : Crypto) (cid : Cid) (ledger : CapabilityLedger) :
    List ScoredCandidate :=
  Placement.rank C cid.hash.bytes.toList ledger.storageCandidates .storageOffered

/-- Assesses one content item against the replication target. -/
def assess (C : Crypto) (view : ReplicationView) (cid : Cid)
    (ledger : CapabilityLedger) (target : Nat) : ReplicationStatus :=
  let ranked := ranked C cid ledger
  let eligible := ranked.length
  let assigned : BTreeSet PerNetworkIdentityId := Std.ExtTreeSet.ofList
    ((ranked.take target).map ScoredCandidate.node) compare
  let holders := view.holdersOf cid
  let durable := holders.filter fun node => assigned.contains node
  let opportunistic := holders.filter fun node => !assigned.contains node
  let attainable := min target eligible
  let health : ReplicationHealth :=
    if durable.isEmpty && opportunistic.isEmpty then .lost
    else if attainable ≤ durable.length ∧ target ≤ durable.length then .healthy
    else if eligible ≤ durable.length then .degraded
    else if attainable ≤ durable.length then .degraded
    else .underReplicated
  { cid, target, durableHolders := durable, opportunisticHolders := opportunistic
    eligible, health }

/-- Plans repair for one content item, or `none` if none is needed. -/
def planRepair (C : Crypto) (view : ReplicationView) (cid : Cid)
    (ledger : CapabilityLedger) (target : Nat) : Option RepairPlan :=
  let status := view.assess C cid ledger target
  if status.health ≠ .underReplicated then none
  else
    let holders : BTreeSet PerNetworkIdentityId :=
      Std.ExtTreeSet.ofList (view.holdersOf cid) compare
    let needed := target - status.durableHolders.length
    let assignTo := (((ranked C cid ledger).map ScoredCandidate.node).filter
      fun node => !holders.contains node).take needed
    if assignTo.isEmpty then none else some ⟨cid, assignTo⟩

/-- The view after announcements, each made under whatever governance state
the node then has and each accepted. -/
def recordAll (C : Crypto) (view : ReplicationView)
    (announcements : List (HoldingAnnouncement × GovernanceState)) :
    Except StorageError ReplicationView :=
  announcements.foldlM (fun view a => view.record C a.1 a.2) view

end ReplicationView

end Intranet
