import Intranet.Proofs.Replay
import Intranet.Ref.Sample

/-!
# What a passed vote stands for

Under `MemberVote` an `Add` is authorized by `passed_votes`, a set of action
hashes that only ever grows. This file traces an element of that set back
through the log: to the accepted `VoteOutcome` that put it there, to the
proposal the certificate settled, and to the membership the electorate had
when that proposal was accepted (`replay_passed`). Counting the ballots of a
certificate that verified gives that many distinct approving members
(`verify_passed`).

Two things are *not* checked anywhere on that way. The proposal's electorate
and quorum are its own, the policy's are read by nobody, and a passed vote
stays passed after it was used. Both main results therefore carry the
condition under which the code still does what the policy promises.
-/

namespace Intranet

/-! ## Counting a certificate -/

namespace QuorumCertificate

variable {C : Crypto} {proposal : VoteProposal}

/-- What the ballot loop checks of one ballot. -/
structure Qualifies (C : Crypto) (proposal : VoteProposal) (b : Ballot) :
    Prop where
  voteId : b.voteId = proposal.voteId C
  signed : b.verify C = .ok ()
  elector : b.voter ∈ proposal.electorateSnapshot
  inTime : b.castAt.millis ≤ proposal.closeTime.millis

/-- One round of the ballot loop. -/
theorem countApprovals_cons {b : Ballot} {rest : List Ballot}
    {seen : BTreeSet PerNetworkIdentityId} {approvals total : ℕ} :
    countApprovals C proposal (b :: rest) seen approvals = .ok total ↔
      Qualifies C proposal b ∧ b.voter ∉ seen ∧
        countApprovals C proposal rest (seen.insert b.voter)
          (if b.approve then approvals + 1 else approvals) = .ok total := by
  rw [countApprovals]
  by_cases hid : b.voteId ≠ proposal.voteId C
  · rw [if_pos hid]
    exact iff_of_false nofun fun hgiven => hid hgiven.1.voteId
  rw [if_neg hid]
  by_cases hsig : b.verify C ≠ .ok ()
  · rw [if_pos hsig]
    exact iff_of_false nofun fun hgiven => hsig hgiven.1.signed
  rw [if_neg hsig]
  by_cases helect : b.voter ∉ proposal.electorateSnapshot
  · rw [if_pos (by rwa [Bool.not_eq_true', ← Bool.not_eq_true,
      Std.ExtTreeSet.contains_iff_mem])]
    exact iff_of_false nofun fun hgiven => helect hgiven.1.elector
  rw [if_neg (by simpa using helect)]
  by_cases htime : proposal.closeTime.millis < b.castAt.millis
  · rw [if_pos htime]
    exact iff_of_false nofun fun hgiven =>
      Int64.not_lt.2 hgiven.1.inTime htime
  rw [if_neg htime]
  by_cases hseen : b.voter ∈ seen
  · rw [if_pos (Std.ExtTreeSet.contains_iff_mem.2 hseen)]
    exact iff_of_false nofun fun hgiven => hgiven.2.1 hseen
  rw [if_neg (by simpa using hseen)]
  have hqual : Qualifies C proposal b :=
    ⟨not_not.1 hid, not_not.1 hsig, not_not.1 helect, Int64.not_lt.1 htime⟩
  exact ⟨fun h => ⟨hqual, hseen, h⟩, fun hgiven => hgiven.2.2⟩

theorem countApprovals_ok {ballots : List Ballot}
    {seen : BTreeSet PerNetworkIdentityId} {approvals total : ℕ}
    (h : countApprovals C proposal ballots seen approvals = .ok total) :
    (∀ b ∈ ballots, Qualifies C proposal b ∧ b.voter ∉ seen) ∧
      (ballots.map Ballot.voter).Nodup ∧
      total = approvals + (ballots.filter Ballot.approve).length := by
  induction ballots generalizing seen approvals with
  | nil =>
      cases h
      simp
  | cons b rest ih =>
      obtain ⟨hqual, hseen, hloop⟩ := countApprovals_cons.1 h
      obtain ⟨hrest, hnodup, htotal⟩ := ih hloop
      have hfresh : ∀ x ∈ rest, b.voter ≠ x.voter ∧ x.voter ∉ seen := by
        intro x hx
        have hnot := (hrest x hx).2
        rw [BTreeSet.mem_insert_iff, not_or] at hnot
        exact hnot
      refine ⟨?_, ?_, ?_⟩
      · intro x hx
        rcases List.mem_cons.1 hx with rfl | hx
        · exact ⟨hqual, hseen⟩
        · exact ⟨(hrest x hx).1, (hfresh x hx).2⟩
      · rw [List.map_cons, List.nodup_cons]
        refine ⟨fun hin => ?_, hnodup⟩
        obtain ⟨x, hx, hvoter⟩ := List.mem_map.1 hin
        exact (hfresh x hx).1 hvoter.symm
      · rw [htotal, List.filter_cons]
        split <;> simp +arith

/-- A certificate that passes carries qualifying, approving ballots of at
least the proposal's quorum of distinct electors. -/
theorem verify_passed {c : QuorumCertificate}
    (h : c.verify C proposal = .ok .passed) :
    ∃ voters : Finset PerNetworkIdentityId,
      proposal.quorum.toNat ≤ voters.card ∧
      ∀ v ∈ voters, ∃ b ∈ c.ballots, b.voter = v ∧ b.approve = true ∧
        Qualifies C proposal b := by
  unfold verify at h
  split at h
  · cases h
  · split at h
    · cases h
    · split at h
      · cases h
      · next approvals hcount =>
          split at h
          · cases h
          · split at h
            · next hquorum =>
                obtain ⟨hall, hnodup, htotal⟩ := countApprovals_ok hcount
                have happroving :
                    ((c.ballots.filter Ballot.approve).map Ballot.voter).Nodup :=
                  hnodup.sublist (List.filter_sublist.map Ballot.voter)
                refine ⟨((c.ballots.filter Ballot.approve).map
                  Ballot.voter).toFinset, ?_, ?_⟩
                · rw [List.toFinset_card_of_nodup happroving, List.length_map]
                  omega
                · intro v hv
                  rw [List.mem_toFinset, List.mem_map] at hv
                  obtain ⟨b, hb, rfl⟩ := hv
                  obtain ⟨hb, happrove⟩ := List.mem_filter.1 hb
                  exact ⟨b, hb, rfl, happrove, (hall b hb).1⟩
            · cases h

end QuorumCertificate

namespace GovernanceState

variable {C : Crypto} {s s' : GovernanceState} {e : LogEntry}

/-! ## Positions in an accepted chain -/

/-- The entry at position `i` of the chain, and the state it was applied
to. -/
def AppliedAt (C : Crypto) (chain : List LogEntry) (i : ℕ) (e : LogEntry)
    (s : GovernanceState) : Prop :=
  chain[i]? = some e ∧ replay C (chain.take i) = .ok s

theorem AppliedAt.lt {chain : List LogEntry} {i : ℕ}
    (h : AppliedAt C chain i e s) : i < chain.length :=
  (List.getElem?_eq_some_iff.1 h.1).1

theorem AppliedAt.append {pre : List LogEntry} {i : ℕ}
    (h : AppliedAt C pre i e s) (rest : List LogEntry) :
    AppliedAt C (pre ++ rest) i e s := by
  refine ⟨?_, ?_⟩
  · rw [List.getElem?_append_left h.lt, h.1]
  · rw [List.take_append_of_le_length h.lt.le, h.2]

theorem AppliedAt.of_take {chain : List LogEntry} {i n : ℕ}
    (h : AppliedAt C (chain.take n) i e s) : AppliedAt C chain i e s := by
  have := h.append (chain.drop n)
  rwa [List.take_append_drop] at this

theorem appliedAt_length {pre : List LogEntry} (h : replay C pre = .ok s) :
    AppliedAt C (pre ++ [e]) pre.length e s := by
  refine ⟨by simp, ?_⟩
  rw [List.take_left, h]

theorem take_ne_nil {chain : List LogEntry} {i : ℕ}
    (h : replay C (chain.take i) = .ok s) : chain.take i ≠ [] := by
  intro hnil
  rw [hnil] at h
  cases h

/-- Every entry of an accepted chain but the first was applied. -/
theorem AppliedAt.apply_ok {chain : List LogEntry} {i : ℕ}
    {last : GovernanceState} (hchain : replay C chain = .ok last)
    (h : AppliedAt C chain i e s) :
    ∃ s', s.apply C e = .ok s' ∧ replay C (chain.take (i + 1)) = .ok s' := by
  have hsplit : chain.take (i + 1) = chain.take i ++ [e] := by
    rw [List.take_add_one, h.1]
    rfl
  rw [← List.take_append_drop (i + 1) chain, hsplit, List.append_assoc,
    replay_append (take_ne_nil h.2)] at hchain
  obtain ⟨m, hm, hrun⟩ := hchain
  rw [h.2] at hm
  cases hm
  obtain ⟨s', hs', -⟩ := Run.foldlM_ok_cons.1 hrun
  exact ⟨s', hs', hsplit ▸ (replay_snoc (take_ne_nil h.2)).2 ⟨s, h.2, hs'⟩⟩

/-- Only the founding entry was not applied to a state. -/
theorem appliedAt_of_getElem? {chain : List LogEntry} {last : GovernanceState}
    (hchain : replay C chain = .ok last) {i : ℕ} (he : chain[i]? = some e)
    (hbody : e.body.isGenesis = false) : ∃ s, AppliedAt C chain i e s := by
  have hne : chain.take i ≠ [] := by
    intro hnil
    rcases List.take_eq_nil_iff.1 hnil with rfl | rfl
    · obtain ⟨rest, rfl⟩ : ∃ rest, chain = e :: rest := by
        cases chain with
        | nil => cases he
        | cons first rest => exact ⟨rest, by cases he; rfl⟩
      obtain ⟨s₀, hgen, -⟩ := replay_cons.1 hchain
      rw [(genesis_ok hgen).1] at hbody
      cases hbody
    · cases hchain
  rw [← List.take_append_drop i chain, replay_append hne] at hchain
  obtain ⟨s, hs, -⟩ := hchain
  exact ⟨s, he, hs⟩

/-! ## Tracing a passed vote -/

/-- `proposal` was accepted at position `i`, over the membership its
electorate had at that point. -/
def ProposedAt (C : Crypto) (chain : List LogEntry) (i : ℕ)
    (proposal : VoteProposal) : Prop :=
  ∃ e s group, AppliedAt C chain i e s ∧ e.body = .voteProposed proposal ∧
    s.groups[proposal.electorate]? = some group ∧
    proposal.electorateSnapshot =
      Std.ExtTreeSet.ofList group.members.keys compare

/-- The outcome accepted at position `o` settled `proposal`. -/
def SettledAt (C : Crypto) (chain : List LogEntry) (o : ℕ)
    (proposal : VoteProposal) : Prop :=
  ∃ e s certificate, AppliedAt C chain o e s ∧
    e.body = .voteOutcome certificate ∧
    s.openVotes[certificate.voteId]? = some proposal ∧
    certificate.verify C proposal = .ok .passed

theorem ProposedAt.append {pre : List LogEntry} {i : ℕ}
    {proposal : VoteProposal} (h : ProposedAt C pre i proposal)
    (rest : List LogEntry) : ProposedAt C (pre ++ rest) i proposal := by
  obtain ⟨e, s, group, hat, hrest⟩ := h
  exact ⟨e, s, group, hat.append rest, hrest⟩

theorem SettledAt.append {pre : List LogEntry} {o : ℕ}
    {proposal : VoteProposal} (h : SettledAt C pre o proposal)
    (rest : List LogEntry) : SettledAt C (pre ++ rest) o proposal := by
  obtain ⟨e, s, certificate, hat, hrest⟩ := h
  exact ⟨e, s, certificate, hat.append rest, hrest⟩

/-- One outcome settles one proposal. -/
theorem SettledAt.unique {chain : List LogEntry} {o : ℕ}
    {p q : VoteProposal} (hp : SettledAt C chain o p)
    (hq : SettledAt C chain o q) : p = q := by
  obtain ⟨e, s, certificate, ⟨he, hs⟩, hbody, hopen, -⟩ := hp
  obtain ⟨e', s', certificate', ⟨he', hs'⟩, hbody', hopen', -⟩ := hq
  rw [he] at he'
  cases he'
  rw [hs] at hs'
  cases hs'
  rw [hbody] at hbody'
  cases hbody'
  rw [hopen] at hopen'
  exact Option.some.inj hopen'

/-- Every open vote was proposed, under its own identifier. -/
theorem replay_open {chain : List LogEntry} (h : replay C chain = .ok s)
    {voteId : Hash} {proposal : VoteProposal}
    (hopen : s.openVotes[voteId]? = some proposal) :
    voteId = proposal.voteId C ∧
      ∃ i, i < chain.length ∧ ProposedAt C chain i proposal := by
  revert hopen
  refine replay_history (P := fun chain s =>
    s.openVotes[voteId]? = some proposal → voteId = proposal.voteId C ∧
      ∃ i, i < chain.length ∧ ProposedAt C chain i proposal) ?_ ?_ h
  · intro first s₀ hgen hopen
    obtain ⟨-, -, hnone, -⟩ := genesis_ok hgen
    rw [hnone] at hopen
    simp at hopen
  · intro pre s e s' hpre ih happ hopen
    have hkeep : s.openVotes[voteId]? = some proposal →
        voteId = proposal.voteId C ∧ ∃ i, i < (pre ++ [e]).length ∧
          ProposedAt C (pre ++ [e]) i proposal := by
      intro hold
      obtain ⟨hid, i, hi, hprop⟩ := ih hold
      exact ⟨hid, i, by simp; omega, hprop.append [e]⟩
    rcases mutate_votes (apply_ok happ).mutated with
      ⟨p, group, hbody, hgroup, hsnap, hvotes, -⟩ |
      ⟨certificate, p, hbody, -, -, hvotes, -⟩ | ⟨hvotes, -⟩
    · rw [hvotes, BTreeMap.getElem?_insert_ite] at hopen
      split at hopen
      · next hid =>
          cases hopen
          exact ⟨hid.symm, pre.length, by simp, e, s, group,
            appliedAt_length hpre, hbody, hgroup, hsnap⟩
      · exact hkeep hopen
    · rw [hvotes, BTreeMap.getElem?_erase_ite] at hopen
      split at hopen
      · cases hopen
      · exact hkeep hopen
    · exact hkeep (hvotes ▸ hopen)

/-- Every passed vote was settled by an accepted outcome. -/
theorem replay_passed {chain : List LogEntry} (h : replay C chain = .ok s)
    {subject : Hash} (hpassed : subject ∈ s.passedVotes) :
    ∃ o proposal, o < chain.length ∧ SettledAt C chain o proposal ∧
      proposal.subject = subject := by
  revert hpassed
  refine replay_history (P := fun chain s => subject ∈ s.passedVotes →
    ∃ o proposal, o < chain.length ∧ SettledAt C chain o proposal ∧
      proposal.subject = subject) ?_ ?_ h
  · intro first s₀ hgen hpassed
    obtain ⟨-, -, -, hnone, -⟩ := genesis_ok hgen
    rw [hnone] at hpassed
    simp at hpassed
  · intro pre s e s' hpre ih happ hpassed
    have hkeep : subject ∈ s.passedVotes → ∃ o proposal,
        o < (pre ++ [e]).length ∧ SettledAt C (pre ++ [e]) o proposal ∧
          proposal.subject = subject := by
      intro hold
      obtain ⟨o, proposal, ho, hsettled, hsubject⟩ := ih hold
      exact ⟨o, proposal, by simp; omega, hsettled.append [e], hsubject⟩
    rcases mutate_votes (apply_ok happ).mutated with
      ⟨-, -, -, -, -, -, hvotes⟩ |
      ⟨certificate, proposal, hbody, hopen, hverify, -, hvotes⟩ | ⟨-, hvotes⟩
    · exact hkeep (hvotes ▸ hpassed)
    · rw [hvotes, BTreeSet.mem_insert_iff] at hpassed
      rcases hpassed with rfl | hpassed
      · exact ⟨pre.length, proposal, by simp, ⟨e, s, certificate,
          appliedAt_length hpre, hbody, hopen, hverify⟩, rfl⟩
      · exact hkeep hpassed
    · exact hkeep (hvotes ▸ hpassed)

/-- The policy admits by vote. -/
def IsMemberVote (s : GovernanceState) : Prop :=
  ∃ electorate quorum window,
    s.policy.governanceModel = .memberVote electorate quorum window

/-- An `Add` accepted under `MemberVote` was preceded by an outcome for
exactly its action. -/
theorem AppliedAt.add_settled {chain : List LogEntry} {j : ℕ} {g : GroupId}
    {id : PerNetworkIdentityId} {via : Option InviteProvenance}
    {last : GovernanceState} (hchain : replay C chain = .ok last)
    (hat : AppliedAt C chain j e s) (hmodel : s.IsMemberVote)
    (hbody : e.body = .membershipChange g id (.add via)) :
    ∃ o proposal, o < j ∧ SettledAt C chain o proposal ∧
      proposal.subject = e.body.actionHash C := by
  obtain ⟨s', happ, -⟩ := hat.apply_ok hchain
  obtain ⟨required, hreq, -⟩ :=
    authorize_ok (GovernanceState.apply_ok happ).authorized
  obtain ⟨electorate, quorum, window, hmodel⟩ := hmodel
  rw [requiredCapability] at hreq
  split at hreq <;> rename_i hb <;> rw [hbody] at hb <;> cases hb
  split at hreq
  · cases hreq
  · rw [hmodel] at hreq
    dsimp only at hreq
    split at hreq
    · next hpassed =>
        obtain ⟨o, proposal, ho, hsettled, hsubject⟩ :=
          replay_passed hat.2 (Std.ExtTreeSet.contains_iff_mem.1 hpassed)
        have := hsettled.append (chain.drop j)
        rw [List.take_append_drop] at this
        exact ⟨o, proposal, ho.trans_le (List.length_take_le j chain), this,
          hsubject⟩
    · cases hreq

/-! ## Admissions reach the policy's quorum -/

/-- Before position `j` a vote on `subject` was proposed to `electorate` and
passed, with `quorum` distinct members of it approving in time. -/
def QuorumReached (C : Crypto) (chain : List LogEntry) (j : ℕ) (subject : Hash)
    (electorate : GroupId) (quorum : ℕ) : Prop :=
  ∃ (p o : ℕ) (proposed outcome : LogEntry) (sp : GovernanceState)
      (proposal : VoteProposal) (certificate : QuorumCertificate)
      (group : Group) (voters : Finset PerNetworkIdentityId),
    p < o ∧ o < j ∧
    AppliedAt C chain p proposed sp ∧
    proposed.body = .voteProposed proposal ∧
    proposal.subject = subject ∧ proposal.electorate = electorate ∧
    chain[o]? = some outcome ∧ outcome.body = .voteOutcome certificate ∧
    certificate.voteId = proposal.voteId C ∧
    sp.groups[electorate]? = some group ∧
    quorum ≤ voters.card ∧
    ∀ v ∈ voters, v ∈ group.members ∧ ∃ b ∈ certificate.ballots,
      b.voter = v ∧ b.approve = true ∧ b.verify C = .ok () ∧
      b.castAt.millis ≤ proposal.closeTime.millis

/-- Every vote on `subject` that was proposed and then settled before `j` was
put to `electorate` and asked for at least `quorum` approvals. -/
def VotesFollow (C : Crypto) (chain : List LogEntry) (j : ℕ) (subject : Hash)
    (electorate : GroupId) (quorum : UInt32) : Prop :=
  ∀ (p o : ℕ) (proposed outcome : LogEntry) (proposal : VoteProposal)
      (certificate : QuorumCertificate), p < o → o < j →
    chain[p]? = some proposed → proposed.body = .voteProposed proposal →
    chain[o]? = some outcome → outcome.body = .voteOutcome certificate →
    certificate.voteId = proposal.voteId C → proposal.subject = subject →
    proposal.electorate = electorate ∧ quorum ≤ proposal.quorum

/-- A member-vote admission reaches the policy's quorum in the policy's
electorate, provided the settled proposals for it ask for that. -/
theorem admission_reaches_quorum {chain : List LogEntry}
    {last : GovernanceState} (hchain : replay C chain = .ok last) {j : ℕ}
    (hat : AppliedAt C chain j e s) {g : GroupId} {id : PerNetworkIdentityId}
    {via : Option InviteProvenance}
    (hbody : e.body = .membershipChange g id (.add via))
    {electorate : GroupId} {quorum : UInt32} {window : Int64}
    (hmodel : s.policy.governanceModel = .memberVote electorate quorum window)
    (hvotes : VotesFollow C chain j (e.body.actionHash C) electorate quorum) :
    QuorumReached C chain j (e.body.actionHash C) electorate quorum.toNat := by
  obtain ⟨o, proposal, hoj, hsettled, hsubject⟩ :=
    hat.add_settled hchain ⟨_, _, _, hmodel⟩ hbody
  obtain ⟨outcome, so, certificate, ho, hcert, hopen, hverify⟩ := hsettled
  obtain ⟨hid, p, hpo, proposed, sp, group, hp, hprop, hgroup, hsnap⟩ :=
    replay_open ho.2 hopen
  have hpo : p < o := hpo.trans_le (List.length_take_le o chain)
  obtain ⟨rfl, hquorum⟩ := hvotes p o proposed outcome proposal certificate hpo
    hoj hp.of_take.1 hprop ho.1 hcert hid hsubject
  obtain ⟨voters, hcard, hballots⟩ := QuorumCertificate.verify_passed hverify
  refine ⟨p, o, proposed, outcome, sp, proposal, certificate, group, voters, hpo,
    hoj, hp.of_take, hprop, hsubject, rfl, ho.1, hcert, hid, hgroup,
    (UInt32.le_iff_toNat_le.1 hquorum).trans hcard, fun v hv => ?_⟩
  obtain ⟨b, hb, rfl, happrove, hqual⟩ := hballots v hv
  refine ⟨?_, b, hb, rfl, happrove, hqual.signed, hqual.inTime⟩
  have helector := hqual.elector
  rw [hsnap, Std.ExtTreeSet.mem_ofList, List.contains_iff_mem] at helector
  exact Std.ExtTreeMap.mem_keys.1 helector

/-- Identity 1 proposes the admission of 2 to `Founders`, alone approves it
and appends it. -/
def founderAdmits (policy : NetworkPolicy) : List LogEntry :=
  Sample.genesis 0 policy [] :: Sample.founderVote 1 (Sample.admits 2) ++
    [Sample.entry 3 (some 2) 3 1 (Sample.admits 2)]

theorem founderAdmits_proposal {policy : NetworkPolicy} {p : ℕ}
    {proposed : LogEntry} {proposal : VoteProposal} (hp : p < 3)
    (hentry : (founderAdmits policy)[p]? = some proposed)
    (hbody : proposed.body = .voteProposed proposal) :
    proposal = Sample.founderProposal (Sample.admits 2) 0 := by
  interval_cases p <;> cases hentry <;> cases hbody
  rfl

theorem admission_reaches_quorum_founder :
    ∃ last s, replay .sample
        (founderAdmits (Sample.votePolicy GroupId.founders 1)) = .ok last ∧
      AppliedAt .sample (founderAdmits (Sample.votePolicy GroupId.founders 1)) 3
        (Sample.entry 3 (some 2) 3 1 (Sample.admits 2)) s ∧
      QuorumReached .sample
        (founderAdmits (Sample.votePolicy GroupId.founders 1)) 3
        ((Sample.admits 2).actionHash .sample) GroupId.founders 1 := by
  have hcheck : Run.okAnd (replay .sample
      (founderAdmits (Sample.votePolicy GroupId.founders 1))) (fun _ =>
        Run.okAnd (replay .sample
          ((founderAdmits (Sample.votePolicy GroupId.founders 1)).take 3)) fun s =>
            decide (s.policy.governanceModel =
              .memberVote GroupId.founders 1 1000)) = true := by
    decide +kernel
  obtain ⟨last, hlast, hp⟩ := Run.okAnd_iff.1 hcheck
  obtain ⟨s, hs, hmodel⟩ := Run.okAnd_iff.1 hp
  refine ⟨last, s, hlast, ⟨rfl, hs⟩, ?_⟩
  refine admission_reaches_quorum hlast ⟨rfl, hs⟩ rfl (of_decide_eq_true hmodel) ?_
  intro p o proposed outcome proposal certificate hpo hoj hp hbody _ _ _ _
  rw [founderAdmits_proposal (by omega) hp hbody]
  exact ⟨rfl, by decide⟩

/-- Under a policy that asks for three approvals among `everyone`, the
founder's own vote admits. -/
theorem founder_admits_without_quorum :
    ∃ last s, replay .sample
        (founderAdmits (Sample.votePolicy GroupId.everyone 3)) = .ok last ∧
      AppliedAt .sample (founderAdmits (Sample.votePolicy GroupId.everyone 3)) 3
        (Sample.entry 3 (some 2) 3 1 (Sample.admits 2)) s ∧
      s.policy.governanceModel = .memberVote GroupId.everyone 3 1000 ∧
      ¬ QuorumReached .sample
        (founderAdmits (Sample.votePolicy GroupId.everyone 3)) 3
        ((Sample.admits 2).actionHash .sample) GroupId.everyone 3 := by
  have hcheck : Run.okAnd (replay .sample
      (founderAdmits (Sample.votePolicy GroupId.everyone 3))) (fun _ =>
        Run.okAnd (replay .sample
          ((founderAdmits (Sample.votePolicy GroupId.everyone 3)).take 3)) fun s =>
            decide (s.policy.governanceModel =
              .memberVote GroupId.everyone 3 1000)) = true := by
    decide +kernel
  obtain ⟨last, hlast, hp⟩ := Run.okAnd_iff.1 hcheck
  obtain ⟨s, hs, hmodel⟩ := Run.okAnd_iff.1 hp
  refine ⟨last, s, hlast, ⟨rfl, hs⟩, of_decide_eq_true hmodel, ?_⟩
  intro hgiven
  obtain ⟨p, o, proposed, outcome, sp, proposal, certificate, group, voters,
    hpo, hoj, hp, hbody, -, helectorate, -⟩ := hgiven
  rw [founderAdmits_proposal (by omega) hp.1 hbody] at helectorate
  exact absurd helectorate (by decide)

/-! ## One vote, one admission -/

/-- The outcome accepted at `o` settled a vote on `subject`. -/
def OutcomeFor (C : Crypto) (chain : List LogEntry) (o : ℕ) (subject : Hash) :
    Prop :=
  ∃ proposal, SettledAt C chain o proposal ∧ proposal.subject = subject

/-- The entry at `j` admits `id` to `g`. -/
def AdmitsAt (chain : List LogEntry) (j : ℕ) (e : LogEntry) (g : GroupId)
    (id : PerNetworkIdentityId) : Prop :=
  chain[j]? = some e ∧ ∃ via, e.body = .membershipChange g id (.add via)

/-- The entry at `r` took `id` out of `g`. -/
def TakenOutAt (C : Crypto) (chain : List LogEntry) (r : ℕ) (g : GroupId)
    (id : PerNetworkIdentityId) : Prop :=
  ∃ e s s', AppliedAt C chain r e s ∧ s.apply C e = .ok s' ∧
    s.inGroup g id = true ∧ s'.inGroup g id = false

/-- Each admission can be charged to an outcome of its own, for its own
action; and nobody taken out of a group is back in it unless an outcome for
admitting them was accepted since. -/
structure OneVoteOneAdmission (C : Crypto) (chain : List LogEntry) : Prop where
  once : ∃ used : ℕ → ℕ,
    (∀ j e g id, AdmitsAt chain j e g id →
      used j < j ∧ OutcomeFor C chain (used j) (e.body.actionHash C)) ∧
    ∀ i j e e' g g' id id', AdmitsAt chain i e g id →
      AdmitsAt chain j e' g' id' → used i = used j → i = j
  readmitted : ∀ r j g id s, TakenOutAt C chain r g id → r < j →
    replay C (chain.take j) = .ok s → s.inGroup g id = true →
    ∃ o via, r < o ∧ o < j ∧ OutcomeFor C chain o
      ((EntryBody.membershipChange g id (.add via)).actionHash C)

/-- Between an admission and anything before it that used the same action or
took the admitted identity out of the group, an outcome for that action was
accepted. -/
def FreshVotes (C : Crypto) (chain : List LogEntry) : Prop :=
  ∀ r j e g id, AdmitsAt chain j e g id → r < j →
    (∃ e' g' id', AdmitsAt chain r e' g' id' ∧
      e'.body.actionHash C = e.body.actionHash C) ∨
    TakenOutAt C chain r g id →
    ∃ o, r < o ∧ o < j ∧ OutcomeFor C chain o (e.body.actionHash C)

/-- Who is in a group at `b` and was not at `a` was admitted in between. -/
theorem admitted_between {chain : List LogEntry} {last : GovernanceState}
    (hchain : replay C chain = .ok last) {a b : ℕ} {sa sb : GovernanceState}
    {g : GroupId} {id : PerNetworkIdentityId} (hab : a ≤ b)
    (ha : replay C (chain.take a) = .ok sa)
    (hb : replay C (chain.take b) = .ok sb) (hout : sa.inGroup g id = false)
    (hin : sb.inGroup g id = true) :
    ∃ k e, a ≤ k ∧ k < b ∧ AdmitsAt chain k e g id := by
  induction b, hab using Nat.le_induction generalizing sb with
  | base =>
      rw [ha] at hb
      cases hb
      rw [hout] at hin
      cases hin
  | succ b hab ih =>
      by_cases hlt : b < chain.length
      · -- the entry at `b` either admitted them or found them inside
        obtain ⟨e, he⟩ : ∃ e, chain[b]? = some e :=
          ⟨_, List.getElem?_eq_getElem hlt⟩
        have hne : chain.take b ≠ [] := by
          intro hnil
          rcases List.take_eq_nil_iff.1 hnil with rfl | rfl
          · rw [Nat.le_zero.1 hab] at ha
            cases ha
          · cases hchain
        have hsplit : chain.take (b + 1) = chain.take b ++ [e] := by
          rw [List.take_add_one, he]
          rfl
        rw [hsplit, replay_snoc hne] at hb
        obtain ⟨s, hs, happ⟩ := hb
        rcases mutate_inGroup (apply_ok happ).mutated hin with hold | ⟨via, hbody⟩
        · obtain ⟨k, e', hak, hkb, hadd⟩ := ih hs hold
          exact ⟨k, e', hak, by omega, hadd⟩
        · exact ⟨b, e, hab, by omega, he, via, hbody⟩
      · rw [List.take_of_length_le (by omega)] at hb
        rw [List.take_of_length_le (i := b) (by omega)] at ih
        obtain ⟨k, e', hak, hkb, hadd⟩ := ih hb hin
        exact ⟨k, e', hak, by omega, hadd⟩

/-- Under `MemberVote` throughout, a run in which every admission comes after
a fresh vote uses each vote once. -/
theorem fresh_votes_used_once {chain : List LogEntry} {last : GovernanceState}
    (hchain : replay C chain = .ok last)
    (hmodel : ∀ n s, replay C (chain.take n) = .ok s → s.IsMemberVote)
    (hfresh : FreshVotes C chain) : OneVoteOneAdmission C chain := by
  classical
  refine ⟨?_, ?_⟩
  · -- charge each admission to the last outcome for its action
    let settles : ℕ → ℕ → Prop := fun j o => o < j ∧ ∃ e, chain[j]? = some e ∧
      OutcomeFor C chain o (e.body.actionHash C)
    let used : ℕ → ℕ := fun j => Nat.findGreatest (settles j) j
    have hused : ∀ j e g id, AdmitsAt chain j e g id → settles j (used j) := by
      intro j e g id hgiven
      obtain ⟨he, via, hbody⟩ := hgiven
      obtain ⟨s, hat⟩ := appliedAt_of_getElem? hchain he (by rw [hbody]; rfl)
      obtain ⟨o, proposal, hoj, hsettled, hsubject⟩ :=
        hat.add_settled hchain (hmodel j s hat.2) hbody
      exact Nat.findGreatest_spec (P := settles j) hoj.le
        ⟨hoj, e, he, proposal, hsettled, hsubject⟩
    have hlater : ∀ i j e e' g g' id id', AdmitsAt chain i e g id →
        AdmitsAt chain j e' g' id' → i < j → used i ≠ used j := by
      intro i j e e' g g' id id' hi hj hij heq
      obtain ⟨hui, x, hx, p, hp, hsubi⟩ := hused i e g id hi
      obtain ⟨huj, y, hy, q, hq, hsubj⟩ := hused j e' g' id' hj
      rw [hi.1] at hx
      cases hx
      rw [hj.1] at hy
      cases hy
      -- one outcome, one subject: the two admissions are of one action
      rw [heq] at hp
      have hsame : e.body.actionHash C = e'.body.actionHash C := by
        rw [← hsubi, ← hsubj, hp.unique hq]
      obtain ⟨o, hio, hoj, hfor⟩ :=
        hfresh i j e' g' id' hj hij (.inl ⟨e, g, id, hi, hsame⟩)
      have hle : o ≤ used j :=
        Nat.le_findGreatest hoj.le ⟨hoj, e', hj.1, hfor⟩
      omega
    refine ⟨used, fun j e g id hj => ?_, ?_⟩
    · obtain ⟨hlt, x, hx, hfor⟩ := hused j e g id hj
      rw [hj.1] at hx
      cases hx
      exact ⟨hlt, hfor⟩
    · intro i j e e' g g' id id' hi hj heq
      rcases lt_trichotomy i j with hij | rfl | hji
      · exact absurd heq (hlater i j e e' g g' id id' hi hj hij)
      · rfl
      · exact absurd heq.symm (hlater j i e' e g' g id' id hj hi hji)
  · intro r j g id s hout hrj hs hin
    have hgone := hout
    obtain ⟨e, sr, sr', hat, happ, -, hgone⟩ := hgone
    obtain ⟨s', happ', hs'⟩ := hat.apply_ok hchain
    rw [happ] at happ'
    cases happ'
    obtain ⟨k, e', hrk, hkj, hadd⟩ :=
      admitted_between hchain (Nat.succ_le_of_lt hrj) hs' hs hgone hin
    obtain ⟨o, hro, hok, hfor⟩ := hfresh r k e' g id hadd hrk (.inr hout)
    obtain ⟨-, via, hbody⟩ := hadd
    exact ⟨o, via, hro, by omega, hbody ▸ hfor⟩

/-- Identity 2 is admitted by a vote and removed, `again` follows. -/
def removedThen (again : List LogEntry) : List LogEntry :=
  founderAdmits (Sample.votePolicy GroupId.founders 1) ++
    Sample.entry 4 (some 3) 4 1 (.membershipChange GroupId.everyone
      (Sample.identity 2) (.remove none)) :: again

/-- A second vote, then the second admission. -/
def secondVote : List LogEntry :=
  Sample.founderVote 5 (Sample.admits 2) ++
    [Sample.entry 7 (some 6) 7 1 (Sample.admits 2)]

/-- The second admission on the strength of the first vote. -/
def staleVote : List LogEntry := [Sample.entry 5 (some 4) 5 1 (Sample.admits 2)]

def votesAtFounders (s : GovernanceState) : Bool :=
  decide (s.policy.governanceModel = .memberVote GroupId.founders 1 1000)

/-- A test of every prefix of a chain covers every prefix. -/
theorem memberVote_of_range {chain : List LogEntry}
    (h : ∀ n ∈ List.range (chain.length + 1),
      n = 0 ∨ Run.okAnd (replay C (chain.take n)) votesAtFounders = true) :
    ∀ n s, replay C (chain.take n) = .ok s → s.IsMemberVote := by
  have hshort : ∀ n ≤ chain.length, ∀ s, replay C (chain.take n) = .ok s →
      s.IsMemberVote := by
    intro n hn s hs
    rcases h n (List.mem_range.2 (by omega)) with rfl | hok
    · cases hs
    · obtain ⟨s', hs', hmodel⟩ := Run.okAnd_iff.1 hok
      rw [hs] at hs'
      cases hs'
      exact ⟨_, _, _, of_decide_eq_true hmodel⟩
  intro n s hs
  rcases Nat.le_total n chain.length with hn | hn
  · exact hshort n hn s hs
  · rw [List.take_of_length_le hn, ← List.take_length (l := chain)] at hs
    exact hshort _ le_rfl s hs

theorem fresh_votes_used_once_second :
    OneVoteOneAdmission .sample (removedThen secondVote) := by
  have hreplay : Run.okAnd (replay .sample (removedThen secondVote))
      (fun _ => true) = true := by
    decide +kernel
  -- each admission directly follows an outcome for it, and the identity is
  -- outside the group when that outcome is accepted
  have hvote : ∀ j ∈ [3, 7],
      Run.okAnd (replay .sample ((removedThen secondVote).take (j - 1))) (fun s =>
        !s.inGroup GroupId.everyone (Sample.identity 2) &&
        decide (s.openVotes[(Sample.founderProposal (Sample.admits 2)
          (j - 3)).voteId .sample]? =
            some (Sample.founderProposal (Sample.admits 2) (j - 3))) &&
        decide ((Sample.founderCertificate (Sample.founderProposal
          (Sample.admits 2) (j - 3))).verify .sample
            (Sample.founderProposal (Sample.admits 2) (j - 3)) =
              .ok .passed)) = true := by
    decide +kernel
  have hentry : ∀ j ∈ [3, 7], ∃ e, (removedThen secondVote)[j - 1]? = some e ∧
      e.body = .voteOutcome (Sample.founderCertificate
        (Sample.founderProposal (Sample.admits 2) (j - 3))) := by
    intro j hj
    fin_cases hj <;> exact ⟨_, rfl, rfl⟩
  obtain ⟨last, hlast, -⟩ := Run.okAnd_iff.1 hreplay
  refine fresh_votes_used_once hlast
    (memberVote_of_range (by decide +kernel)) ?_
  intro r j e g id hgiven hrj hearlier
  obtain ⟨he, via, hbody⟩ := hgiven
  have hlen : j < 8 := (List.getElem?_eq_some_iff.1 he).1
  obtain ⟨hj, hadmits⟩ : j ∈ [3, 7] ∧ e.body = Sample.admits 2 := by
    interval_cases j <;> cases he <;> cases hbody <;> exact ⟨by simp, rfl⟩
  obtain ⟨s, hs, hp⟩ := Run.okAnd_iff.1 (hvote j hj)
  simp only [Bool.and_eq_true, Bool.not_eq_true', decide_eq_true_eq] at hp
  obtain ⟨⟨hout, hopen⟩, hverify⟩ := hp
  obtain ⟨outcome, houtcome, hcert⟩ := hentry j hj
  have hne : r ≠ j - 1 := by
    intro heq
    subst heq
    rcases hearlier with ⟨e', g', id', ⟨he', via', hbody'⟩, -⟩ | htaken
    · rw [houtcome] at he'
      cases he'
      rw [hcert] at hbody'
      cases hbody'
    · obtain ⟨_, s', _, ⟨_, hs'⟩, _, hin, _⟩ := htaken
      rw [hs] at hs'
      cases hs'
      rw [hadmits] at hbody
      cases hbody
      rw [hout] at hin
      cases hin
  refine ⟨j - 1, by omega, by omega, _, ⟨outcome, s, _, ⟨houtcome, hs⟩, hcert,
    hopen, hverify⟩, ?_⟩
  rw [hadmits]
  rfl

/-- Without the second vote the run is accepted just the same: the first
outcome pays for both admissions. -/
theorem vote_used_twice :
    (∃ last, replay .sample (removedThen staleVote) = .ok last) ∧
      (∀ n s, replay .sample ((removedThen staleVote).take n) = .ok s →
        s.IsMemberVote) ∧
      ¬ OneVoteOneAdmission .sample (removedThen staleVote) := by
  have hreplay : Run.okAnd (replay .sample (removedThen staleVote))
      (fun _ => true) = true := by
    decide +kernel
  obtain ⟨last, hlast, -⟩ := Run.okAnd_iff.1 hreplay
  refine ⟨⟨last, hlast⟩, memberVote_of_range (by decide +kernel), ?_⟩
  intro hgiven
  obtain ⟨⟨used, hused, hinj⟩, -⟩ := hgiven
  have honly : ∀ o subject, OutcomeFor .sample (removedThen staleVote) o subject →
      o < 5 → o = 2 := by
    intro o subject hgiven ho
    obtain ⟨proposal, ⟨e, s, certificate, ⟨he, -⟩, hbody, -⟩, -⟩ := hgiven
    have hkind : e.body.kind = "vote-outcome" := by
      rw [hbody]
      rfl
    interval_cases o <;> cases he
    · exact absurd hkind (by decide)
    · exact absurd hkind (by decide)
    · rfl
    · exact absurd hkind (by decide)
    · exact absurd hkind (by decide)
  have hadd : ∀ j ∈ [3, 5], ∃ e, AdmitsAt (removedThen staleVote) j e
      GroupId.everyone (Sample.identity 2) := by
    intro j hj
    fin_cases hj <;> exact ⟨_, rfl, none, rfl⟩
  obtain ⟨e, he⟩ := hadd 3 (by simp)
  obtain ⟨e', he'⟩ := hadd 5 (by simp)
  obtain ⟨hlt, hfor⟩ := hused 3 e _ _ he
  obtain ⟨hlt', hfor'⟩ := hused 5 e' _ _ he'
  have h3 := honly _ _ hfor (by omega)
  have h5 := honly _ _ hfor' hlt'
  exact absurd (hinj 3 5 e e' _ _ _ _ he he' (h3.trans h5.symm)) (by decide)

end GovernanceState

end Intranet
