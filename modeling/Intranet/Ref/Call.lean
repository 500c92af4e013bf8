import Intranet.Ref.Keying

/-!
# Calls and their topology

`call.rs` of the realtime crate: one participant's view of a call, and how it
converges on a proposal to route the media differently. Timestamps are
compared as the signed integers they are.
-/

namespace Intranet

/-- How a call's media is routed. -/
inductive Topology where
  | mesh
  | relayed (relay : PerNetworkIdentityId)
deriving DecidableEq

/-- Why a call's topology needs to change. -/
inductive RenegotiationTrigger where
  | thresholdReached
  | belowThreshold
  | relayUnavailable
deriving DecidableEq

/-- A proposal to move the call to a different topology. -/
structure TopologyProposal where
  proposer : PerNetworkIdentityId
  topology : Topology
  trigger : RenegotiationTrigger
  proposedAt : Timestamp
deriving DecidableEq

inductive ProposalOutcome where
  | accepted
  | superseded
  | alreadySettled
deriving DecidableEq

/-- One participant's view of a call. -/
structure CallSession where
  callParticipants : BTreeSet PerNetworkIdentityId
  threshold : UInt8
  active : Topology
  pending : Option Topology
  inFlight : Option (TopologyProposal × Timestamp)

namespace CallSession

/-- Opens a call in mesh topology. -/
def «open» (participants : List PerNetworkIdentityId) (threshold : UInt8) :
    CallSession :=
  ⟨Std.ExtTreeSet.ofList participants compare, threshold, .mesh, none, none⟩

/-- Whether the topology should change, and why. -/
def evaluate (session : CallSession) (relayReachable : Bool) :
    Option RenegotiationTrigger :=
  let atThreshold :=
    decide (session.threshold.toNat ≤ session.callParticipants.size)
  match session.active with
  | .mesh => if atThreshold then some .thresholdReached else none
  | .relayed _ =>
      if !relayReachable then some .relayUnavailable
      else if !atThreshold then some .belowThreshold
      else none

/-- Builds a proposal for the topology this trigger calls for; `choice` is the
relay that was selected, if one was. -/
def propose (proposer : PerNetworkIdentityId) (trigger : RenegotiationTrigger)
    (choice : Option PerNetworkIdentityId) (proposedAt : Timestamp) :
    Except RealtimeError TopologyProposal :=
  match trigger with
  | .belowThreshold => .ok ⟨proposer, .mesh, trigger, proposedAt⟩
  | _ =>
      match choice with
      | none => .error .noRelayAvailable
      | some relay => .ok ⟨proposer, .relayed relay, trigger, proposedAt⟩

/-- Whether a proposal beats the one in flight. -/
def incomingWins (proposal : TopologyProposal) (receivedAt : Timestamp)
    (existing : TopologyProposal) (existingReceived : Timestamp) : Bool :=
  if receivedAt.millis < existingReceived.millis then true
  else if existingReceived.millis < receivedAt.millis then false
  else decide (proposal.proposer < existing.proposer)

/-- Receives a proposal and converges on a winner. -/
def receiveProposal (session : CallSession) (proposal : TopologyProposal)
    (receivedAt : Timestamp) : ProposalOutcome × CallSession :=
  let accept := { session with
    pending := some proposal.topology
    inFlight := some (proposal, receivedAt) }
  if session.active = proposal.topology ∧ session.pending = none then
    (.alreadySettled, session)
  else
    match session.inFlight with
    | none => (.accepted, accept)
    | some (existing, existingReceived) =>
        if incomingWins proposal receivedAt existing existingReceived then
          (.accepted, accept)
        else (.superseded, session)

/-- Completes a handover once the new transport is established. -/
def completeHandover (session : CallSession) :
    Except RealtimeError Topology × CallSession :=
  match session.pending with
  | none => (.error .noHandoverPending, session)
  | some pending =>
      (.ok pending, { session with
        active := pending
        pending := none
        inFlight := none })

/-- Abandons an in-progress handover. -/
def abandonHandover (session : CallSession) : CallSession :=
  { session with
    pending := none
    inFlight := none }

end CallSession

end Intranet
