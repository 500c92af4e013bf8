import Intranet.Lib.Network
import Intranet.Ref.LedgerWire
import Intranet.Ref.Log
import Intranet.Ref.StorageWire

/-!
# A network of ledgers

The ledger handlers of `node.rs`, and nodes that run them with each other over
the codec of `sync.rs`. What travels is bytes. Each side reads no more than
`maxMessageBytes` of them, and what it cannot decode it does not take: a
request that fails so is not answered, a response is reported as a failed
sync.

A node takes advertisements under the state its log replays to. The log stays
as it is here, since no message of this protocol changes it.
-/

namespace Intranet

variable {C : Crypto} {validKey : Bytes 32 → Bool}

/-- A node's log and its ledger. -/
structure LedgerNode where
  log : GovernanceLog
  ledger : CapabilityLedger

namespace LedgerNode

/-- A node over a log, which has heard of nothing. -/
def new (network : NetworkId) (log : GovernanceLog) : LedgerNode :=
  ⟨log, .new network⟩

def governanceState (C : Crypto) (node : LedgerNode) :
    Option GovernanceState :=
  (node.log.replayCanonical C).toOption

/-- Publishes this node's own advertisement. -/
def advertise (C : Crypto) (node : LedgerNode) (a : CapabilityAdvertisement) :
    Except LedgerError LedgerNode := do
  match node.governanceState C with
  | none => throw (.notAMember a.node.short)
  | some state => return { node with ledger := ← node.ledger.insert C a state }

/-- What is reported of a response. -/
inductive Report where
  | ledgerSynced (accepted rejected : ℕ) (truncated : Bool)
  | syncFailed
deriving DecidableEq

/-- Bytes between two nodes, with the role they travel in. -/
inductive Frame where
  | request (bytes : List UInt8)
  | response (bytes : List UInt8)
deriving DecidableEq

def Frame.ofRequest (request : LedgerRequest) : Frame :=
  .request request.encode

def Frame.ofResponse (response : LedgerResponse) : Frame :=
  .response response.encode

/-- What is reported of a response that could be read. -/
def reported (C : Crypto) (node : LedgerNode) :
    LedgerResponse → Option Report
  | .digest _ => none
  | .advertisements ads truncated =>
      let batch := node.ledger.insertBatch C (node.governanceState C) ads
      some (.ledgerSynced batch.accepted batch.rejected truncated)

/-- Takes a response: what is reported, the node after it, and what the peer is
asked next. -/
def handleResponse (C : Crypto) (node : LedgerNode)
    (response : LedgerResponse) :
    Option Report × LedgerNode × Option LedgerRequest :=
  let done := node.ledger.handle C (node.governanceState C) response
  (node.reported C response, { node with ledger := done.1 }, done.2)

/-- What the caller of a node may ask for. -/
inductive Call (ι : Type) where
  | advertise (advertisement : CapabilityAdvertisement)
  | syncLedgerWith (peer : ι)

def call {ι : Type} (C : Crypto) (node : LedgerNode) :
    Call ι → LedgerNode × Option (ι × Frame)
  | .advertise a => ((node.advertise C a).toOption.getD node, none)
  | .syncLedgerWith peer => (node, some (peer, .ofRequest .digest))

def takeFrame (C : Crypto) (validKey : Bytes 32 → Bool) (node : LedgerNode) :
    Frame → Option Report × LedgerNode × Option Frame
  | .request bytes =>
      match LedgerRequest.decode validKey (bytes.take maxMessageBytes) with
      | .ok request =>
          (none, node, some (.ofResponse (node.ledger.answer request)))
      | .error _ => (none, node, none)
  | .response bytes =>
      match LedgerResponse.decode C validKey (bytes.take maxMessageBytes) with
      | .ok response =>
          let done := node.handleResponse C response
          (done.1, done.2.1, done.2.2.map .ofRequest)
      | .error _ => (some .syncFailed, node, none)

/-- The ledger protocol. -/
def protocol (ι : Type) (C : Crypto) (validKey : Bytes 32 → Bool) :
    Network.Protocol ι LedgerNode Frame (Call ι) (Option Report) where
  act _ asked node := node.call C asked
  receive _ _ frame node := node.takeFrame C validKey frame

end LedgerNode

end Intranet
