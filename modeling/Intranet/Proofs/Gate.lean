import Intranet.Proofs.Escalation

/-!
# What fork-choice weight costs

Fork choice counts an entry when `LogEntry::is_capability_gated` says so,
and `authorize` decides separately whether its author may produce it. The two
agree on every kind but one. Under `MemberVote`, an `Add` is authorized by a
vote that has passed, and any member may append it; the weight function never
looks at the policy and counts it all the same. `gated_holds_iff` says that
this is the only disagreement.
-/

namespace Intranet

namespace GovernanceState

variable {C : Crypto} {s s' : GovernanceState} {e : LogEntry}

/-- The capability each weighted kind of entry stands for. -/
def kindCapability (s : GovernanceState) : EntryBody → Option Capability
  | .defineGroup .. => some .defineGroup
  | .policyChange _ => some .definePolicy
  | .contentTypePolicy _ => some .defineContentPolicy
  | .moderation _ => some .moderateContent
  | .membershipChange group _ _ => some (.manageMembership group)
  | .epochRotation .memberAdmitted _ => some .approveNode
  | .epochRotation .memberRevoked _ => some .revokeNode
  | .appNameRegistration name _ =>
      some (.extension
        (if s.appNames.contains name then reclaimAppName else registerAppName))
  | _ => none

/-- If the entry counts in fork choice, its author holds what it stands
for. -/
def WeightPaid (s : GovernanceState) (e : LogEntry) : Prop :=
  e.isCapabilityGated = true →
    ∃ c, s.kindCapability e.body = some c ∧
      s.identityHolds e.author c = true

/-- An `Add` under `MemberVote`: the vote authorizes it, not its author. -/
def VotedAdd (s : GovernanceState) (e : LogEntry) : Prop :=
  (∃ electorate quorum window,
    s.policy.governanceModel = .memberVote electorate quorum window) ∧
  ∃ g id via, e.body = .membershipChange g id (.add via)

/-- Away from voted admissions, `authorize` asks for exactly the capability
the weight stands for. -/
theorem requiredCapability_of_gated (h : s.apply C e = .ok s')
    (hgated : e.isCapabilityGated = true) (hvoted : ¬ s.VotedAdd e) :
    ∃ c, s.kindCapability e.body = some c ∧
      s.requiredCapability C e = .ok (some c) := by
  obtain ⟨required, hreq, -⟩ := authorize_ok (apply_ok h).authorized
  rw [LogEntry.isCapabilityGated] at hgated
  cases hb : e.body with
  | defineGroup | policyChange | contentTypePolicy | moderation =>
      exact ⟨_, rfl, by rw [requiredCapability, hb]⟩
  | appNameRegistration name appId =>
      refine ⟨_, rfl, ?_⟩
      rw [requiredCapability, hb]
      dsimp only
      split <;> rfl
  | epochRotation reason commit =>
      cases reason with
      | memberAdmitted => exact ⟨_, rfl, by rw [requiredCapability, hb]⟩
      | memberRevoked => exact ⟨_, rfl, by rw [requiredCapability, hb]⟩
      | selfInitiated =>
          rw [hb] at hgated
          cases hgated
  | membershipChange g id action =>
      refine ⟨_, rfl, ?_⟩
      rw [requiredCapability, hb] at hreq ⊢
      dsimp only at hreq ⊢
      split at hreq
      · cases hreq
      · next hstored =>
          rw [if_neg hstored]
          cases action with
          | remove cascade =>
              rw [hb] at hgated
              rw [if_neg (of_decide_eq_true hgated)]
          | add via =>
              cases hmodel : s.policy.governanceModel with
              | capabilityHolders => rfl
              | memberVote electorate quorum window =>
                  exact absurd ⟨⟨_, _, _, hmodel⟩, _, _, _, hb⟩ hvoted
  | _ =>
      rw [hb] at hgated
      cases hgated

/-- The author of an accepted entry holds what the entry's fork-choice weight
stands for, unless the entry is a voted admission appended by a member
without `ManageMembership` over the group. -/
theorem gated_holds_iff (h : s.apply C e = .ok s') :
    s.WeightPaid e ↔
      ¬ ((∃ electorate quorum window,
          s.policy.governanceModel = .memberVote electorate quorum window) ∧
        ∃ g id via, e.body = .membershipChange g id (.add via) ∧
          s.identityHolds e.author (.manageMembership g) = false) := by
  constructor
  · intro hpaid hgiven
    obtain ⟨-, g, id, via, hb, hlacks⟩ := hgiven
    have hgated : e.isCapabilityGated = true := by
      rw [LogEntry.isCapabilityGated, hb]
      rfl
    obtain ⟨c, hc, hold⟩ := hpaid hgated
    rw [hb] at hc
    cases hc
    rw [hlacks] at hold
    cases hold
  · intro hcond hgated
    by_cases hvoted : s.VotedAdd e
    · obtain ⟨hmodel, g, id, via, hb⟩ := hvoted
      refine ⟨.manageMembership g, by rw [hb]; rfl, ?_⟩
      by_contra hlacks
      exact hcond ⟨hmodel, g, id, via, hb, by simpa using hlacks⟩
    · obtain ⟨c, hc, hreq⟩ := requiredCapability_of_gated h hgated hvoted
      exact ⟨c, hc, apply_holds h hreq⟩

/-- The founder admits identity 2 by a vote and holds another on 3. -/
def twoVotesChain : List LogEntry :=
  Sample.genesis 0 (Sample.votePolicy GroupId.founders 1) [] ::
    Sample.founderVote 1 (Sample.admits 2) ++
    Sample.entry 3 (some 2) 3 1 (Sample.admits 2) ::
    Sample.founderVote 4 (Sample.admits 3)

/-- Appended by the founder, the admission of 3 carries weight its author
holds `ManageMembership` for. -/
theorem gated_holds_iff_founder :
    ∃ s s', replay .sample twoVotesChain = .ok s ∧
      s.apply .sample (Sample.entry 6 (some 5) 6 1 (Sample.admits 3)) = .ok s' ∧
      s.WeightPaid (Sample.entry 6 (some 5) 6 1 (Sample.admits 3)) := by
  have hcheck : Run.okAnd (replay .sample twoVotesChain) (fun s =>
      s.identityHolds (Sample.identity 1)
          (.manageMembership GroupId.everyone) &&
        Run.okAnd (s.apply .sample
          (Sample.entry 6 (some 5) 6 1 (Sample.admits 3))) fun _ => true) =
      true := by
    decide +kernel
  obtain ⟨s, hs, hp⟩ := Run.okAnd_iff.1 hcheck
  obtain ⟨hold, hstep⟩ := Bool.and_eq_true_iff.1 hp
  obtain ⟨s', hs', -⟩ := Run.okAnd_iff.1 hstep
  refine ⟨s, s', hs, hs', (gated_holds_iff hs').2 ?_⟩
  intro hgiven
  obtain ⟨-, g, id, via, hb, hlacks⟩ := hgiven
  cases hb
  exact Bool.noConfusion (hold.symm.trans hlacks)

/-- Appended by identity 2, a member of `everyone` without a capability, it
counts in fork choice all the same. -/
theorem voted_admission_weighs_free :
    ∃ s s', replay .sample twoVotesChain = .ok s ∧
      s.apply .sample (Sample.entry 6 (some 5) 6 2 (Sample.admits 3)) = .ok s' ∧
      (Sample.entry 6 (some 5) 6 2 (Sample.admits 3)).isCapabilityGated = true ∧
      ¬ s.WeightPaid (Sample.entry 6 (some 5) 6 2 (Sample.admits 3)) := by
  have hcheck : Run.okAnd (replay .sample twoVotesChain) (fun s =>
      !s.identityHolds (Sample.identity 2)
          (.manageMembership GroupId.everyone) &&
        Run.okAnd (s.apply .sample
          (Sample.entry 6 (some 5) 6 2 (Sample.admits 3))) fun _ => true) =
      true := by
    decide +kernel
  obtain ⟨s, hs, hp⟩ := Run.okAnd_iff.1 hcheck
  obtain ⟨hlacks, hstep⟩ := Bool.and_eq_true_iff.1 hp
  obtain ⟨s', hs', -⟩ := Run.okAnd_iff.1 hstep
  refine ⟨s, s', hs, hs', rfl, fun hpaid => ?_⟩
  obtain ⟨c, hc, hold⟩ := hpaid rfl
  cases hc
  rw [Bool.not_eq_true'] at hlacks
  exact Bool.noConfusion (hlacks.symm.trans hold)

end GovernanceState

end Intranet
