import Intranet.Lib.Network
import Intranet.Ref.Ballots
import Intranet.Ref.Pointer
import Intranet.Ref.Wire

/-!
# A network of ballot collections

The ballot handlers of `node.rs`, and nodes that run them with each other.
Ballots are no log entries: a node that wants those its peers hold asks for
them, vote by vote, naming the ones it has. The log of a node stays as it is
here, since no message of this protocol changes it.

A response is told apart by the request it answers, which the source keeps the
vote of. Here the vote comes with the response.
-/

namespace Intranet

variable {C : Crypto} {validKey : Bytes 32 → Bool}

/-- Casts and signs a ballot. -/
def Ballot.cast (voter : PerNetworkIdentity C validKey) (voteId : Hash)
    (approve : Bool) (castAt : Timestamp) : Ballot :=
  let unsigned : Ballot := ⟨voteId, voter.id, approve, castAt, voter.sign []⟩
  { unsigned with signature := voter.sign unsigned.payload }

def BallotRequest.create (requester : PerNetworkIdentity C validKey)
    (voteId : Hash) (held : List Hash) : BallotRequest :=
  let unsigned : BallotRequest :=
    ⟨voteId, held, requester.id, requester.sign []⟩
  { unsigned with signature := requester.sign unsigned.payload }

/-- What is reported of a response. -/
inductive BallotReport where
  | received (voteId : Hash) (accepted rejected : ℕ) (truncated : Bool)
  | refused (voteId : Hash) (reason : String)
deriving DecidableEq

namespace BallotNode

/-- Casts this node's own ballot and records it. -/
def castBallot (identity : PerNetworkIdentity C validKey) (node : BallotNode)
    (voteId : Hash) (approve : Bool) (now : Timestamp) : BallotNode :=
  (node.recordBallot C (Ballot.cast identity voteId approve now)).2

/-- The hashes of the ballots held for a vote. -/
def heldFor (node : BallotNode) (voteId : Hash) : List Hash :=
  (node.ballots[voteId]?.getD ∅).keys

/-- The request `sync_ballots_with` sends. -/
def askBallots (identity : PerNetworkIdentity C validKey) (node : BallotNode)
    (voteId : Hash) : BallotRequest :=
  .create identity voteId (node.heldFor voteId)

/-- The ballots a request asks for: those of its vote that it does not name. -/
def unnamed (node : BallotNode) (request : BallotRequest) : List Ballot :=
  ((node.ballots[request.voteId]?.getD ∅).toList.filter
    fun b => !request.held.contains b.1).map Prod.snd

/-- Answers a peer's ballot request. -/
def serveBallots (C : Crypto) (node : BallotNode) (request : BallotRequest) :
    BallotResponse :=
  match node.governanceState C with
  | none => .refused .cannotEvaluate
  | some state =>
      if !state.isMember request.requester then .refused .notAMember
      else if !state.openVotes.contains request.voteId then
        .refused .unknownVote
      else
        let ballots := node.unnamed request
        .ballots (ballots.take maxBallotsPerResponse)
          (decide (maxBallotsPerResponse < ballots.length))

/-- Answers a request that arrived from `peer`. A peer id is the key of an
identity, so that of the named requester is compared as the identity. -/
def answerBallots (C : Crypto) (node : BallotNode)
    (peer : PerNetworkIdentityId) (request : BallotRequest) : BallotResponse :=
  if request.requester ≠ peer then .refused .notAMember
  else node.serveBallots C request

/-- The loop over a response, with the ballots accepted so far. -/
def receiveBallots (C : Crypto) :
    List Ballot → BallotNode → ℕ → ℕ × BallotNode
  | [], node, accepted => (accepted, node)
  | ballot :: rest, node, accepted =>
      let recorded := node.recordBallot C ballot
      receiveBallots C rest recorded.2
        (if recorded.1 then accepted + 1 else accepted)

/-- Takes the response to a request for the ballots of a vote. -/
def handleBallots (C : Crypto) (node : BallotNode) (voteId : Hash) :
    BallotResponse → BallotReport × BallotNode
  | .ballots ballots truncated =>
      let done := receiveBallots C ballots node 0
      (.received voteId done.1 (ballots.length - done.1) truncated, done.2)
  | .refused .notAMember =>
      (.refused voteId "refused: requester is not a current member", node)
  | .refused .cannotEvaluate =>
      (.refused voteId "refused: responder cannot evaluate governance state",
        node)
  | .refused .unknownVote =>
      (.refused voteId "refused: responder knows of no such open vote", node)

inductive Message where
  | request (request : BallotRequest)
  | response (voteId : Hash) (response : BallotResponse)
deriving DecidableEq

/-- What the caller of a node may ask for. -/
inductive Call (ι : Type) where
  | castBallot (voteId : Hash) (approve : Bool) (now : Timestamp)
  | recordBallot (ballot : Ballot)
  | syncBallotsWith (peer : ι) (voteId : Hash)

variable {ι : Type} (identities : ι → PerNetworkIdentity C validKey)

def call (i : ι) (node : BallotNode) :
    Call ι → BallotNode × Option (ι × Message)
  | .castBallot voteId approve now =>
      (node.castBallot (identities i) voteId approve now, none)
  | .recordBallot ballot => ((node.recordBallot C ballot).2, none)
  | .syncBallotsWith peer voteId =>
      (node, some (peer, .request (node.askBallots (identities i) voteId)))

def takeMessage (peer : ι) (node : BallotNode) :
    Message → Option BallotReport × BallotNode × Option Message
  | .request request =>
      (none, node, some (.response request.voteId
        (node.answerBallots C (identities peer).id request)))
  | .response voteId response =>
      let done := node.handleBallots C voteId response
      (some done.1, done.2, none)

/-- The ballot protocol. -/
def protocol : Network.Protocol ι BallotNode Message (Call ι)
    (Option BallotReport) where
  act i asked node := node.call identities i asked
  receive _ peer message node := node.takeMessage identities peer message

end BallotNode

end Intranet
