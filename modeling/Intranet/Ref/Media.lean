import Intranet.Ref.MediaLimits

/-!
# Carrying media

The media half of `node.rs`: what a node does with an envelope that arrives
from a peer, and what it hands to its caller. A peer is named by the identity
whose transport key it presents.

The acknowledgement that goes back to the peer carries nothing and is left
out. A send is a pair of the node it goes to and the envelope.
-/

namespace Intranet

/-- One media frame in transit, with the routing a relay needs. -/
structure MediaEnvelope where
  call : CallId
  sender : PerNetworkIdentityId
  recipient : Recipient
  frame : MediaFrame
deriving DecidableEq

/-- What a node reports to its caller about media. -/
inductive MediaEvent where
  | mediaReceived (envelope : MediaEnvelope)
  | mediaRefused (call : CallId) (sender : PerNetworkIdentityId)
      (reason : MediaRelayDenied)
  | mediaForwarded (call : CallId) (sender : PerNetworkIdentityId)
      (recipients : List PerNetworkIdentityId)
deriving DecidableEq

/-- The part of a node that media concerns. -/
structure MediaNode where
  identityId : PerNetworkIdentityId
  mediaRelay : MediaRelayGuard
  pending : List MediaEvent

/-- What handling an envelope comes to: the event returned to the caller, if
the loop returns one, the sends, and the node left behind. -/
structure MediaHandled where
  event : Option MediaEvent
  sends : List (PerNetworkIdentityId × MediaEnvelope)
  node : MediaNode

namespace MediaNode

/-- The copy of an envelope for one participant. -/
def readdressed (request : MediaEnvelope) (identity : PerNetworkIdentityId) :
    MediaEnvelope :=
  { request with recipient := .one identity }

/-- An authorized frame: kept if it is for this node too, and a copy sent to
every recipient. -/
def forward (node : MediaNode) (request : MediaEnvelope) (fan : FanOut) :
    MediaHandled :=
  let received : MediaEvent :=
    .mediaReceived (readdressed request node.identityId)
  if fan.recipients.isEmpty then
    ⟨if fan.deliverLocally then some received else none, [], node⟩
  else
    ⟨some (.mediaForwarded request.call request.sender fan.recipients),
      fan.recipients.map fun id => (id, readdressed request id),
      if fan.deliverLocally then
        { node with pending := node.pending ++ [received] }
      else node⟩

/-- An envelope arrives from `peer`. -/
def handleMedia (node : MediaNode) (peer : PerNetworkIdentityId)
    (request : MediaEnvelope) : MediaHandled :=
  if request.recipient.is node.identityId then
    ⟨some (.mediaReceived request), [], node⟩
  else if request.sender ≠ peer then ⟨none, [], node⟩
  else
    match node.mediaRelay.authorize request.call request.sender
        request.recipient (UInt64.ofNat request.frame.ciphertext.length)
        node.identityId with
    | (.error reason, guard) =>
        ⟨some (.mediaRefused request.call request.sender reason), [],
          { node with mediaRelay := guard }⟩
    | (.ok fan, guard) => forward { node with mediaRelay := guard } request fan

end MediaNode

end Intranet
