import Intranet.Ref.Ledger
import Intranet.Ref.Pointer

/-!
# Reputation audits

The audit path of the ledger crate's `reliability.rs`. A member with the
capability for it may ask a node for its raw counters about a third party. The
node answers with a signed response, and answers one requester only so often
in a window of time.

The node's store of observations has two parts, the counters of
`ReliabilityObservations` and the times at which each requester was answered.
-/

namespace Intranet

/-- How often one requester may audit this node. -/
structure AuditRateLimit where
  maxRequestsPerWindow : UInt32
  windowMillis : Int64
deriving DecidableEq

/-- Six an hour. -/
def AuditRateLimit.default : AuditRateLimit := ⟨6, 60 * 60000⟩

/-- A signed request for a node's observations about a third party. -/
structure AuditRequest where
  requester : PerNetworkIdentityId
  subject : PerNetworkIdentityId
  issuedAt : Timestamp
  signature : Signature
deriving DecidableEq

/-- A signed disclosure of one node's counters about a subject. -/
structure AuditResponse where
  responder : PerNetworkIdentityId
  requester : PerNetworkIdentityId
  subject : PerNetworkIdentityId
  observations : PeerObservations
  respondedAt : Timestamp
  signature : Signature
deriving DecidableEq

/-- Why an audit is not answered. -/
inductive AuditError where
  | badSignature
  | auditNotAuthorized (requester : String)
  | auditRateLimited (requester : String) (maxRequests : UInt32)
deriving DecidableEq

namespace AuditRequest

/-- What the requester signs. -/
def payload (request : AuditRequest) : List UInt8 :=
  Enc.domain "intranet.reputation-audit-request.v1" ++
    request.requester.encode ++ request.subject.encode ++
    Enc.i64 request.issuedAt.millis

/-- Verifies the request's signature. -/
def verify (C : Crypto) (request : AuditRequest) : Except AuditError Unit :=
  if C.verify request.requester.key request.payload request.signature then
    .ok ()
  else .error .badSignature

end AuditRequest

namespace AuditResponse

/-- What the responder signs. -/
def signedBytes (responder requester subject : PerNetworkIdentityId)
    (observations : PeerObservations) (respondedAt : Timestamp) :
    List UInt8 :=
  Enc.domain "intranet.reputation-audit-response.v1" ++ responder.encode ++
    requester.encode ++ subject.encode ++ Enc.u64 observations.verified ++
    Enc.u64 observations.failed ++ Enc.i64 respondedAt.millis

variable {C : Crypto} {validKey : Bytes 32 → Bool}

def create (responder : PerNetworkIdentity C validKey)
    (request : AuditRequest) (observations : PeerObservations)
    (respondedAt : Timestamp) : AuditResponse where
  responder := responder.id
  requester := request.requester
  subject := request.subject
  observations := observations
  respondedAt := respondedAt
  signature := responder.sign (signedBytes responder.id request.requester
    request.subject observations respondedAt)

end AuditResponse

/-- A node's store of observations with the times of the audits it has
answered. -/
structure AuditedObservations extends ReliabilityObservations where
  auditLog : BTreeMap PerNetworkIdentityId (List Timestamp)

namespace AuditedObservations

def new : AuditedObservations := ⟨.new, ∅⟩

/-- Records a successful verification of something received from `peer`. -/
def recordVerified (o : AuditedObservations) (peer : PerNetworkIdentityId) :
    AuditedObservations :=
  let entry := o.forPeer peer
  let verified := UInt64.ofNat
    (min (UInt64.size - 1) (entry.verified.toNat + 1))
  { o with
    counters := o.counters.insert peer ({ entry with verified := verified }) }

/-- Records a failed verification of something received from `peer`. -/
def recordFailed (o : AuditedObservations) (peer : PerNetworkIdentityId) :
    AuditedObservations :=
  let entry := o.forPeer peer
  let failed := UInt64.ofNat
    (min (UInt64.size - 1) (entry.failed.toNat + 1))
  { o with
    counters := o.counters.insert peer ({ entry with failed := failed }) }

variable {C : Crypto} {validKey : Bytes 32 → Bool}

/-- Answers an audit request. The length of the history is compared as a
`u32`. -/
def respondToAudit (o : AuditedObservations) (request : AuditRequest)
    (responder : PerNetworkIdentity C validKey) (state : GovernanceState)
    (now : Timestamp) (policy : AuditRateLimit) :
    Except AuditError AuditResponse × AuditedObservations :=
  match request.verify C with
  | .error e => (.error e, o)
  | .ok () =>
      if !state.identityHolds request.requester .auditReputation then
        (.error (.auditNotAuthorized request.requester.short), o)
      else
        let history := (o.auditLog[request.requester]?.getD []).filter
          fun earlier => decide (now.millisSince earlier ≤ policy.windowMillis)
        if policy.maxRequestsPerWindow ≤ UInt32.ofNat history.length then
          (.error (.auditRateLimited request.requester.short
              policy.maxRequestsPerWindow),
            { o with auditLog := o.auditLog.insert request.requester history })
        else
          (.ok (.create responder request (o.forPeer request.subject) now),
            { o with auditLog :=
                o.auditLog.insert request.requester (history ++ [now]) })

end AuditedObservations

end Intranet
