import Intranet.Ref.Fetch

/-!
# Media relay selection

`relay.rs` of the realtime crate. Participants of a call measure candidate
relays, and one of them picks a relay from all the measurements: by what it
has observed of the relay's reliability, then by the worst latency anybody
measured, the larger upload capacity and the lower id.
-/

namespace Intranet

/-- One participant's measurement of one candidate relay. -/
structure RelayObservation where
  relay : PerNetworkIdentityId
  participant : PerNetworkIdentityId
  latencyMillis : UInt32
deriving DecidableEq

/-- A selected relay and the figures behind the choice. -/
structure RelayChoice where
  relay : PerNetworkIdentityId
  worstLatencyMillis : UInt32
  uploadCapacity : UInt64
deriving DecidableEq

namespace Relay

/-- One round of the loop over the observations: the worst latency of a relay
so far, and how many reports there were. -/
def observe (participants : BTreeSet PerNetworkIdentityId)
    (worst : BTreeMap PerNetworkIdentityId (UInt32 × ℕ))
    (observation : RelayObservation) :
    BTreeMap PerNetworkIdentityId (UInt32 × ℕ) :=
  if !participants.contains observation.participant then worst
  else
    let entry := worst[observation.relay]?.getD (0, 0)
    worst.insert observation.relay
      (max entry.1 observation.latencyMillis, entry.2 + 1)

/-- What becomes of one relay of the table: a choice with its reliability
band, or nothing. -/
def consider (participants : BTreeSet PerNetworkIdentityId)
    (ledger : CapabilityLedger) (reliability : ReliabilityObservations)
    (failureThreshold : Float) (e : PerNetworkIdentityId × (UInt32 × ℕ)) :
    Option (RelayChoice × ℕ) :=
  if e.2.2 < participants.size then none
  else
    match ledger.get e.1 with
    | none => none
    | some advertisement =>
        if !advertisement.relayMediaWilling then none
        else
          let uploadCapacity := advertisement.bandwidthCap.upBytesPerSec
          if uploadCapacity = 0 then none
          else some (⟨e.1, e.2.1, uploadCapacity⟩,
            Serving.reliabilityBand reliability failureThreshold e.1)

/-- Reliability band first, then the worst latency, then the larger capacity,
then the relay. -/
def sortKey (c : RelayChoice × ℕ) :
    ℕ ×ₗ ℕ ×ₗ ℕᵒᵈ ×ₗ PerNetworkIdentityId :=
  toLex (c.2, toLex (c.1.worstLatencyMillis.toNat,
    toLex (OrderDual.toDual c.1.uploadCapacity.toNat, c.1.relay)))

def choiceOrder (a b : RelayChoice × ℕ) : Prop := sortKey a ≤ sortKey b

instance : DecidableRel choiceOrder := fun a b =>
  inferInstanceAs (Decidable (sortKey a ≤ sortKey b))

/-- Selects a relay for a call. -/
def select (observations : List RelayObservation)
    (participants : BTreeSet PerNetworkIdentityId) (ledger : CapabilityLedger)
    (reliability : ReliabilityObservations) (failureThreshold : Float) :
    Option RelayChoice :=
  let worst := observations.foldl (observe participants) ∅
  let ranked := (worst.toList.filterMap
    (consider participants ledger reliability
      failureThreshold)).insertionSort choiceOrder
  ranked.head?.map Prod.fst

end Relay

end Intranet
