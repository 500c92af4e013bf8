import Intranet.Lib.Earlier
import Intranet.Ref.Log
import Intranet.Ref.Object

/-!
# Epoch keys and how long they are kept

`keyring.rs` of the epoch crate. Every rotation is an entry of the governance
log, and a member caches the key of each one it applied, because MLS forgets
it. `reconcile` then compares what is held with the canonical chain: keys of
rotations that are not on it are dropped, rotations whose entries are final
are marked, and a key is pruned when the rotation after it is final.

The loops of `reconcile` are folds over the keyring and the report together,
in the order of the source.
-/

namespace Intranet

/-- Whether a rotation can still be displaced. -/
inductive RotationStatus where
  | tentative
  | final
deriving DecidableEq

/-- One epoch's key, and how it stands. -/
structure EpochRecord where
  rotationRef : Hash
  epoch : UInt64
  key : EpochKey
  status : RotationStatus
deriving DecidableEq

/-- What a reconciliation pass changed. -/
structure KeyringReconciliation where
  finalized : List Hash
  voided : List Hash
  pruned : List Hash
  needsRewelcome : Bool
deriving DecidableEq

/-- A pass that changed nothing. -/
def KeyringReconciliation.unchanged : KeyringReconciliation :=
  ⟨[], [], [], false⟩

/-- The `#[error]` variants of the epoch crate. -/
inductive EpochError where
  | mls (reason : String)
  | noKeysDelivered
deriving DecidableEq

/-- Whether an entry produces an epoch. The founding entry does: for the first
epoch there is no rotation to name. -/
def EntryBody.producesEpoch : EntryBody → Bool
  | .epochRotation .. | .genesis .. => true
  | _ => false

/-- The entries of the canonical chain that produced an epoch, oldest first. -/
def GovernanceLog.canonicalRotations (log : GovernanceLog) : List Hash :=
  log.canonicalChain.filter fun hash =>
    (log.get hash).any fun entry => entry.body.producesEpoch

/-- A member's held epoch keys. `order` is the rotation order as this member
applied it, oldest first. -/
@[ext]
structure EpochKeyring where
  records : BTreeMap Hash EpochRecord
  order : List Hash
  canonical : Option Hash
deriving DecidableEq

namespace EpochKeyring

/-- An empty keyring. -/
def new : EpochKeyring := ⟨∅, [], none⟩

/-- Records a rotation this member has applied, making it canonical. -/
def record (ring : EpochKeyring) (rotationRef : Hash) (epoch : UInt64)
    (key : EpochKey) : EpochKeyring where
  records := ring.records.insert rotationRef ⟨rotationRef, epoch, key, .tentative⟩
  order := if ring.order.contains rotationRef then ring.order
    else ring.order ++ [rotationRef]
  canonical := some rotationRef

/-- The current canonical epoch key, if any. -/
def current (ring : EpochKeyring) : Option (Hash × EpochKey) := do
  let canonical ← ring.canonical
  let record ← ring.records[canonical]?
  return (record.rotationRef, record.key)

/-- The key for a specific rotation, if still held. -/
def keyFor (ring : EpochKeyring) (rotationRef : Hash) : Option EpochKey :=
  ring.records[rotationRef]?.map EpochRecord.key

/-- Whether a rotation is held at all. -/
def holds (ring : EpochKeyring) (rotationRef : Hash) : Bool :=
  ring.records.contains rotationRef

/-- `records()`: every held rotation, oldest first. -/
def inOrder (ring : EpochKeyring) : List EpochRecord :=
  ring.order.filterMap fun hash => ring.records[hash]?

/-! ## Reconciling -/

/-- A keyring beside the report of the pass that is working on it. -/
abbrev Pass := EpochKeyring × KeyringReconciliation

/-- `remove` from the records and from the order. -/
def forget (ring : EpochKeyring) (hash : Hash) : EpochKeyring :=
  { ring with
    records := ring.records.erase hash
    order := ring.order.filter (· ≠ hash) }

/-- One round of the voiding loop. -/
def voidOne (pass : Pass) (hash : Hash) : Pass :=
  let (ring, outcome) := pass
  let gone := ring.forget hash
  let outcome := { outcome with voided := outcome.voided ++ [hash] }
  if ring.canonical = some hash then
    ({ gone with canonical := none }, { outcome with needsRewelcome := true })
  else (gone, outcome)

/-- Voids everything the canonical chain does not contain. -/
def voidDoomed (rotations : List Hash) (pass : Pass) : Pass :=
  (pass.1.records.keys.filter fun hash => !rotations.contains hash).foldl
    voidOne pass

/-- Whether the finality pass marks this record. -/
def becomesFinal (log : GovernanceLog) (record : EpochRecord) : Bool :=
  decide (record.status = .tentative) && log.isFinal record.rotationRef

/-- Marks the rotations whose entries are final. -/
def markFinal (log : GovernanceLog) (pass : Pass) : Pass :=
  let (ring, outcome) := pass
  ({ ring with
      records := ring.records.map fun _ record =>
        if becomesFinal log record then { record with status := .final }
        else record },
    { outcome with
      finalized := outcome.finalized ++
        ((ring.records.toList.map Prod.snd).filter
          (becomesFinal log)).map EpochRecord.rotationRef })

/-- Adopts the newest canonical rotation still held, where there is none. -/
def adopt (rotations : List Hash) (ring : EpochKeyring) : EpochKeyring :=
  if ring.canonical.isNone then
    { ring with
      canonical := rotations.reverse.find? fun hash =>
        ring.records.contains hash }
  else ring

/-- One window of the pruning loop. -/
def pruneOne (pass : Pass) (window : Hash × Hash) : Pass :=
  let (ring, outcome) := pass
  let (older, newer) := window
  let successorFinal := ring.records[newer]?.any fun record =>
    decide (record.status = .final)
  if successorFinal && ring.records.contains older then
    (ring.forget older, { outcome with pruned := outcome.pruned ++ [older] })
  else (ring, outcome)

/-- Prunes the keys whose successor among the held rotations is final. The
source's `windows(2)` are the neighbours. -/
def prune (rotations : List Hash) (pass : Pass) : Pass :=
  let heldOrder := rotations.filter fun hash => pass.1.records.contains hash
  (neighbours heldOrder).foldl pruneOne pass

/-- Reconciles held keys against the governance log. -/
def reconcile (ring : EpochKeyring) (log : GovernanceLog) :
    KeyringReconciliation × EpochKeyring :=
  let rotations := log.canonicalRotations
  let voided := voidDoomed rotations (ring, .unchanged)
  let marked := markFinal log voided
  let adopted := (adopt rotations marked.1, marked.2)
  let pruned := prune rotations adopted
  (pruned.2, pruned.1)

/-! ## Delivery -/

/-- The keys a joining member should receive. -/
def keysForNewMember (ring : EpochKeyring) (policy : HistoryAccess) :
    List (Hash × EpochKey) :=
  match policy with
  | .currentEpochForward => ring.current.toList
  | .fullHistory =>
      ring.inOrder.map fun record => (record.rotationRef, record.key)

/-- Accepts historical keys delivered at join time. -/
def acceptDelivered (ring : EpochKeyring) (keys : List (Hash × EpochKey)) :
    Except EpochError EpochKeyring :=
  if keys.isEmpty then .error .noKeysDelivered
  else .ok (keys.zipIdx.foldl (fun ring delivered =>
    ring.record delivered.1.1 (UInt64.ofNat delivered.2) delivered.1.2) ring)

end EpochKeyring

end Intranet
