import Intranet.Lib.Register
import Intranet.Proofs.Votes
import Intranet.Ref.Ballots

/-!
# Whatever was collected makes a certificate

Ballots are filtered when they are recorded, sorted out when a certificate
is assembled and checked again when it is verified. The three agree. What a
node holds for a vote qualifies for it, whatever was offered before
(`Collection`); the loop of `assemble` leaves of every voter the earliest of
the ballots held (`kept_foldl`), a register per voter in the sense of
`Lib/Register.lean`; and a list of qualifying ballots of distinct voters is
what `verify` counts through without an error (`countApprovals_eq`).

Ballots are held under their hashes, so two that are held and compare equal
under `(cast_at, hash)` are one. That makes the earliest ballot of a voter
unique, the order of the certificate strict, and the certificate a function
of the set of ballots held.
-/

namespace Intranet

/-! ## The earliest ballot -/

namespace Ballot

/-- The key ballots of one voter are compared by. -/
def age (C : Crypto) (b : Ballot) : ℤ ×ₗ Hash :=
  toLex (b.castAt.millis.toInt, b.hash C)

end Ballot

namespace QuorumCertificate

variable {C : Crypto} {proposal : VoteProposal} {voteId : Hash}

/-! ## The loop of `assemble` -/

/-- The ballots of `v` among `s` that the loop does not skip. -/
def ballotsOf (voteId : Hash) (s : Set Ballot) (v : PerNetworkIdentityId) :
    Set Ballot :=
  {b | b ∈ s ∧ b.voteId = voteId ∧ b.voter = v}

/-- What the loop holds after the ballots in `s`: of every voter the
earliest. -/
def Kept (C : Crypto) (voteId : Hash) (s : Set Ballot)
    (byVoter : BTreeMap PerNetworkIdentityId Ballot) : Prop :=
  ∀ v, Register.Keeps (Ballot.age C) (ballotsOf voteId s v) byVoter[v]?

end QuorumCertificate

/-! ## What a node collects -/

namespace BallotNode

variable {C : Crypto} {log : GovernanceLog} {node : BallotNode}

/-- A vote the log has open, and a ballot that qualifies for it. -/
def Accepts (C : Crypto) (log : GovernanceLog) (b : Ballot) : Prop :=
  ∃ s proposal, log.replayCanonical C = .ok s ∧
    s.openVotes[b.voteId]? = some proposal ∧ b.verify C = .ok () ∧
    b.voter ∈ proposal.electorateSnapshot ∧
    b.castAt.millis ≤ proposal.closeTime.millis

/-- The collection after a ballot was recorded. -/
def put (C : Crypto) (node : BallotNode) (b : Ballot) : BallotNode :=
  { node with
    ballots := node.ballots.insert b.voteId
      ((node.ballots[b.voteId]?.getD ∅).insert (b.hash C) b) }

/-- A ballot is recorded on what the log says, and on nothing collected so
far. -/
theorem recordBallot_cases (C : Crypto) (node : BallotNode) (b : Ballot) :
    (Accepts C node.log b ∧ node.recordBallot C b = (true, node.put C b)) ∨
      (¬ Accepts C node.log b ∧ node.recordBallot C b = (false, node)) := by
  rw [recordBallot]
  split
  · next herr =>
      refine .inr ⟨fun hgiven => ?_, rfl⟩
      obtain ⟨_, _, _, _, hok, _⟩ := hgiven
      rw [herr] at hok
      cases hok
  · next hsigned =>
      split
      · next hnone =>
          refine .inr ⟨fun hgiven => ?_, rfl⟩
          obtain ⟨s, _, hs, _⟩ := hgiven
          rw [governanceState, hs] at hnone
          cases hnone
      · next state hstate =>
          have hreplay : node.log.replayCanonical C = .ok state :=
            Run.toOption_eq_some.1 hstate
          split
          · next hnone =>
              refine .inr ⟨fun hgiven => ?_, rfl⟩
              obtain ⟨s, proposal, hs, hopen, _⟩ := hgiven
              rw [hreplay] at hs
              cases hs
              rw [hnone] at hopen
              cases hopen
          · next proposal hopen =>
              have hbad : (!proposal.electorateSnapshot.contains b.voter ||
                  decide (proposal.closeTime.millis < b.castAt.millis)) = true ↔
                  ¬ (b.voter ∈ proposal.electorateSnapshot ∧
                    b.castAt.millis ≤ proposal.closeTime.millis) := by
                rw [Bool.or_eq_true, Bool.not_eq_true', ← Bool.not_eq_true,
                  Std.ExtTreeSet.contains_iff_mem, decide_eq_true_eq,
                  not_and_or, Int64.not_le]
              split
              · next hcheck =>
                  refine .inr ⟨fun hgiven => hbad.1 hcheck ?_, rfl⟩
                  obtain ⟨s, p, hs, hp, -, hgood⟩ := hgiven
                  rw [hreplay] at hs
                  cases hs
                  rw [hopen] at hp
                  cases hp
                  exact hgood
              · next hcheck =>
                  refine .inl ⟨⟨state, proposal, hreplay, hopen, hsigned, ?_⟩, rfl⟩
                  exact not_not.1 fun hgood => hcheck (hbad.2 hgood)

/-- The ballot held for a vote under a hash. -/
def slot (node : BallotNode) (voteId hash : Hash) : Option Ballot :=
  (node.ballots[voteId]?.getD ∅)[hash]?

/-- What a node holds: under its vote and its hash, each ballot qualifies. -/
def Collection (C : Crypto) (node : BallotNode) : Prop :=
  ∀ voteId hash b, node.slot voteId hash = some b →
    b.hash C = hash ∧ b.voteId = voteId ∧ Accepts C node.log b

@[simp]
theorem slot_new (log : GovernanceLog) (voteId hash : Hash) :
    (new log).slot voteId hash = none := by
  simp [new, slot]

theorem collection_new (C : Crypto) (log : GovernanceLog) :
    Collection C (new log) := by
  intro voteId hash b h
  rw [slot_new] at h
  cases h

theorem slot_put (node : BallotNode) (b : Ballot) (voteId hash : Hash) :
    (node.put C b).slot voteId hash =
      if b.voteId = voteId ∧ b.hash C = hash then some b
      else node.slot voteId hash := by
  rw [slot, put, BTreeMap.getElem?_insert_ite]
  by_cases hid : b.voteId = voteId
  · subst hid
    rw [if_pos rfl, Option.getD_some, BTreeMap.getElem?_insert_ite]
    by_cases hhash : b.hash C = hash
    · rw [if_pos hhash, if_pos ⟨rfl, hhash⟩]
    · rw [if_neg hhash, if_neg fun h => hhash h.2]
      rfl
  · rw [if_neg hid, if_neg fun h => hid h.1]
    rfl

theorem Collection.put (h : Collection C node) {b : Ballot}
    (hb : Accepts C node.log b) : Collection C (node.put C b) := by
  intro voteId hash a ha
  rw [slot_put] at ha
  split at ha
  · next hslot =>
      cases ha
      exact ⟨hslot.2, hslot.1, hb⟩
  · exact h voteId hash a ha

theorem mem_ballotsFor {voteId : Hash} {b : Ballot} :
    b ∈ node.ballotsFor voteId ↔ ∃ hash, node.slot voteId hash = some b := by
  simp only [ballotsFor, slot]
  cases node.ballots[voteId]? with
  | none => simp
  | some byHash =>
      rw [Option.getD_some]
      constructor
      · intro hmem
        obtain ⟨e, he, rfl⟩ := List.mem_map.1 hmem
        exact ⟨e.1, (BTreeMap.mem_toList_iff _ _).1 he⟩
      · intro hgiven
        obtain ⟨hash, hheld⟩ := hgiven
        exact List.mem_map.2
          ⟨(hash, b), (BTreeMap.mem_toList_iff _ _).2 hheld, rfl⟩

/-- Ballots held for an open vote qualify for it. -/
theorem Collection.qualifies (h : Collection C node) {s : GovernanceState}
    (hs : node.log.replayCanonical C = .ok s) {voteId : Hash}
    {proposal : VoteProposal} (hopen : s.openVotes[voteId]? = some proposal)
    {b : Ballot} (hb : b ∈ node.ballotsFor voteId) :
    QuorumCertificate.Qualifies C proposal b := by
  obtain ⟨hash, hheld⟩ := mem_ballotsFor.1 hb
  obtain ⟨-, rfl, s', p, hs', hp, hsigned, helector, htime⟩ :=
    h voteId hash b hheld
  rw [hs] at hs'
  cases hs'
  rw [hopen] at hp
  cases hp
  exact ⟨(GovernanceState.replay_open hs hopen).1, hsigned, helector, htime⟩

/-! ## Offering ballots -/

@[simp]
theorem recordBallot_log (node : BallotNode) (b : Ballot) :
    (node.recordBallot C b).2.log = node.log := by
  rcases recordBallot_cases C node b with ⟨-, heq⟩ | ⟨-, heq⟩
  · rw [heq]
    rfl
  · rw [heq]

theorem recordAll_cons (node : BallotNode) (b : Ballot) (rest : List Ballot) :
    node.recordAll C (b :: rest) = (node.recordBallot C b).2.recordAll C rest :=
  rfl

@[simp]
theorem recordAll_log (node : BallotNode) (offered : List Ballot) :
    (node.recordAll C offered).log = node.log := by
  induction offered generalizing node with
  | nil => rfl
  | cons b offered ih =>
      rw [recordAll_cons]
      exact (ih _).trans (recordBallot_log node b)

theorem recordAll_append (node : BallotNode) (pre post : List Ballot) :
    node.recordAll C (pre ++ post) =
      (node.recordAll C pre).recordAll C post :=
  List.foldl_append

theorem Collection.recordBallot (h : Collection C node) (b : Ballot) :
    Collection C (node.recordBallot C b).2 := by
  rcases recordBallot_cases C node b with ⟨hb, heq⟩ | ⟨-, heq⟩
  · rw [heq]
    exact h.put hb
  · rw [heq]
    exact h

theorem Collection.recordAll (h : Collection C node) (offered : List Ballot) :
    Collection C (node.recordAll C offered) := by
  induction offered generalizing node with
  | nil => exact h
  | cons b offered ih => exact ih (h.recordBallot b)

/-- The ballots for `voteId` whose offer was answered with `true`. -/
def Recorded (C : Crypto) (log : GovernanceLog) (offered : List Ballot)
    (voteId : Hash) : Set Ballot :=
  {b | b.voteId = voteId ∧ ∃ pre post, offered = pre ++ b :: post ∧
    (((new log).recordAll C pre).recordBallot C b).1 = true}

/-- A slot once filled stays filled. -/
theorem slot_recordAll_isSome (offered : List Ballot) {voteId hash : Hash}
    (h : (node.slot voteId hash).isSome) :
    ((node.recordAll C offered).slot voteId hash).isSome := by
  induction offered generalizing node with
  | nil => exact h
  | cons a offered ih =>
      rw [recordAll_cons]
      refine ih ?_
      rcases recordBallot_cases C node a with ⟨-, heq⟩ | ⟨-, heq⟩
      · rw [heq, slot_put]
        split
        · rfl
        · exact h
      · rw [heq]
        exact h

end BallotNode

end Intranet
