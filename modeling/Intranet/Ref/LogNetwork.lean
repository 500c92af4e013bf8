import Intranet.Lib.Network
import Intranet.Ref.Sync
import Intranet.Ref.Wire

/-!
# A network of logs

The log sync handlers of `node.rs`, and nodes that run them with each other. A
node appends entries of its own and asks a peer for its heads whenever it
likes. What follows is an exchange of up to four messages, and nothing about
it is remembered between them: a node may be in the middle of many, with many
peers, and its log may have grown when the next message comes.
-/

namespace Intranet

inductive SyncMessage where
  | request (request : SyncRequest)
  | response (response : SyncResponse)
deriving DecidableEq

namespace GovernanceLog

/-- The answer to a request of the sync protocol. -/
def answerSync (log : GovernanceLog) : SyncRequest → SyncResponse
  | .heads => .heads log.heads
  | .fetch wanted held =>
      let response := log.ancestorsFirst wanted held maxEntriesPerResponse
      .entries response.1 response.2

/-- What is reported of the entries of a response. -/
structure Synced where
  accepted : ℕ
  rejected : ℕ
  truncated : Bool
deriving DecidableEq

/-- Takes a response: what is reported, the log after it, and what the peer is
asked next. After a cut response the exchange starts over. -/
def handleSync (C : Crypto) (log : GovernanceLog) :
    SyncResponse → Option Synced × GovernanceLog × Option SyncRequest
  | .heads heads =>
      let wanted := log.wantedFrom heads
      (none, log,
        if !wanted.isEmpty then some (.fetch wanted log.heads) else none)
  | .entries entries truncated =>
      let received := receive C entries log 0 0
      (some ⟨received.2.1, received.2.2, truncated⟩, received.1,
        if truncated then some .heads else none)

/-- What the caller of a node may ask for. -/
inductive Asked (ι : Type) where
  | appendEntry (entry : LogEntry)
  | syncWith (peer : ι)

def ask {ι : Type} (C : Crypto) (log : GovernanceLog) :
    Asked ι → GovernanceLog × Option (ι × SyncMessage)
  | .appendEntry entry => (log.tryInsert C entry, none)
  | .syncWith peer => (log, some (peer, .request .heads))

def takeMessage (C : Crypto) (log : GovernanceLog) :
    SyncMessage → Option Synced × GovernanceLog × Option SyncMessage
  | .request request => (none, log, some (.response (log.answerSync request)))
  | .response response =>
      let done := log.handleSync C response
      (done.1, done.2.1, done.2.2.map .request)

/-- The log sync protocol. -/
def protocol (ι : Type) (C : Crypto) :
    Network.Protocol ι GovernanceLog SyncMessage (Asked ι) (Option Synced) where
  act _ asked log := log.ask C asked
  receive _ _ message log := log.takeMessage C message

end GovernanceLog

end Intranet
