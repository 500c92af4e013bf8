import Intranet.Ref.Log

/-!
# Collecting ballots

The ballot half of `node.rs` and `QuorumCertificate::assemble` of `vote.rs`.
A node keeps the ballots of every vote it knows is open, by their hashes, and
packs what it holds for one vote into a certificate when asked. What a ballot
has to satisfy is checked when it is recorded; a second ballot of one voter
is kept beside the first, and only assembly settles which of them counts.
-/

namespace Intranet

/-! ## Assembling a certificate -/

namespace Ballot

end Ballot

namespace QuorumCertificate

end QuorumCertificate

/-! ## The collection -/

/-- What the ballot handlers read and write of a node. -/
structure BallotNode where
  log : GovernanceLog
  ballots : BTreeMap Hash (BTreeMap Hash Ballot)

namespace BallotNode

/-- A node over `log` that has collected nothing. -/
def new (log : GovernanceLog) : BallotNode := ⟨log, ∅⟩

def governanceState (C : Crypto) (node : BallotNode) :
    Option GovernanceState :=
  (node.log.replayCanonical C).toOption

/-- Ballots collected for a vote, in the order of their hashes. -/
def ballotsFor (node : BallotNode) (voteId : Hash) : List Ballot :=
  match node.ballots[voteId]? with
  | some byHash => byHash.toList.map Prod.snd
  | none => []

/-- Records a ballot, if it qualifies for a vote this node knows is open. -/
def recordBallot (C : Crypto) (node : BallotNode) (ballot : Ballot) :
    Bool × BallotNode :=
  match ballot.verify C with
  | .error _ => (false, node)
  | .ok _ =>
      match node.governanceState C with
      | none => (false, node)
      | some state =>
          match state.openVotes[ballot.voteId]? with
          | none => (false, node)
          | some proposal =>
              if !proposal.electorateSnapshot.contains ballot.voter ||
                  decide (proposal.closeTime.millis < ballot.castAt.millis) then
                (false, node)
              else
                let byHash := node.ballots[ballot.voteId]?.getD ∅
                (true, { node with
                  ballots := node.ballots.insert ballot.voteId
                    (byHash.insert (ballot.hash C) ballot) })

/-- A sequence of `recordBallot` calls, accepted or not. -/
def recordAll (C : Crypto) (node : BallotNode) (offered : List Ballot) :
    BallotNode :=
  offered.foldl (fun node ballot => (node.recordBallot C ballot).2) node

end BallotNode

end Intranet
