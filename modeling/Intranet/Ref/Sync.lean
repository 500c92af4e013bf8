import Intranet.Ref.Log

/-!
# One round of log sync

The exchange `node.rs` runs with a peer, reduced to the two logs. The peer
announces its heads; the node asks for the ones it does not hold, naming its
own heads; the peer answers `ancestors_first`, cut at a fixed number of
entries; the node inserts what it got, in order, and starts over if the
answer was cut. Nothing is remembered between rounds.
-/

namespace Intranet

/-- `MAX_ENTRIES_PER_RESPONSE`. -/
def maxEntriesPerResponse : ℕ := 512

namespace GovernanceLog

/-- The announced heads this log does not hold. -/
def wantedFrom (log : GovernanceLog) (heads : List Hash) : List Hash :=
  heads.filter fun hash => (log.get hash).isNone

/-- The loop over a response, with the entries accepted and rejected so
far. -/
def receive (C : Crypto) :
    List LogEntry → GovernanceLog → ℕ → ℕ → GovernanceLog × ℕ × ℕ
  | [], log, accepted, rejected => (log, accepted, rejected)
  | entry :: rest, log, accepted, rejected =>
      match log.insert C entry with
      | .ok (_, next) => receive C rest next (accepted + 1) rejected
      | .error _ => receive C rest log accepted (rejected + 1)

/-- What a round leaves behind. -/
structure SyncOutcome where
  log : GovernanceLog
  accepted : ℕ
  rejected : ℕ
  truncated : Bool

/-- One round: heads, fetch, response. With no head to ask for, no fetch is
sent. -/
def syncRound (C : Crypto) (max : ℕ) (requester responder : GovernanceLog) :
    SyncOutcome :=
  let wanted := requester.wantedFrom responder.heads
  if wanted.isEmpty then ⟨requester, 0, 0, false⟩
  else
    let response := responder.ancestorsFirst wanted requester.heads max
    let received := receive C response.1 requester 0 0
    ⟨received.1, received.2.1, received.2.2, response.2⟩

/-- The requester's log after `n` rounds. -/
def afterRounds (C : Crypto) (max : ℕ) (responder : GovernanceLog) :
    ℕ → GovernanceLog → GovernanceLog
  | 0, requester => requester
  | n + 1, requester =>
      afterRounds C max responder n (syncRound C max requester responder).log

end GovernanceLog

end Intranet
