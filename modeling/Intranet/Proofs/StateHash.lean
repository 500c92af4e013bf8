import Intranet.Proofs.Encoding
import Intranet.Proofs.Escalation
import Intranet.Proofs.Votes

/-!
# What the state hash covers

The encoding under `state_hash` is self-delimiting, so two replayed states
with one hash agree on every field that went into it (`SameHashed`). Three
things did not: the certificates themselves, of which only the device keys
are encoded, the open votes and the passed votes. `apply` never reads a
certificate. It does read the votes, in two places, and there two states with
one hash can part: `VoteGrants` says what each of them answers.

The step lemma `apply_agree` walks `SameHashed` through an accepted entry, for
states whose votes give the same answer to it; the equivalence at the end is
that lemma in both directions, and a converse for the entries that are decided
by a vote.
-/

namespace Intranet

/-! ## The encoding -/

theorem MembershipRecord.delimited :
    SelfDelimiting MembershipRecord.encodeMember := by
  intro v w r s hlen h
  simp only [encodeMember, List.append_assoc] at hlen h
  obtain ⟨hid, h, hlen⟩ := PerNetworkIdentityId.delimited.split hlen h
  obtain ⟨hby, h, hlen⟩ :=
    (Enc.option_delimited PerNetworkIdentityId.delimited).split hlen h
  obtain ⟨hat, h, hlen⟩ := Timestamp.delimited.split hlen h
  obtain ⟨hvia, h, -⟩ :=
    (Enc.option_delimited InviteProvenance.delimited).split hlen h
  obtain ⟨_, _, _, _⟩ := v
  obtain ⟨_, _, _, _⟩ := w
  dsimp only at *
  subst_vars
  exact ⟨rfl, rfl⟩

theorem MembershipRecord.encodeMember_ne_nil
    (m : PerNetworkIdentityId × MembershipRecord) : encodeMember m ≠ [] := by
  simp only [encodeMember, List.append_assoc]
  exact List.append_ne_nil_of_left_ne_nil m.1.encode_ne_nil _

theorem Group.delimited : SelfDelimiting Group.encode := by
  intro v w r s hlen h
  simp only [encode, List.append_assoc] at hlen h
  obtain ⟨hid, h, hlen⟩ := GroupId.delimited.split hlen h
  obtain ⟨hcaps, h, hlen⟩ := CapabilitySet.delimited.split hlen h
  obtain ⟨hmembers, h, -⟩ := (Enc.map_delimited MembershipRecord.delimited
    MembershipRecord.encodeMember_ne_nil).split hlen h
  obtain ⟨_, _, _⟩ := v
  obtain ⟨_, _, _⟩ := w
  dsimp only at *
  subst_vars
  exact ⟨rfl, rfl⟩

theorem Group.encode_ne_nil (g : Group) : g.encode ≠ [] := by
  simp only [encode, List.append_assoc]
  exact List.append_ne_nil_of_left_ne_nil (Enc.str_ne_nil _) _

theorem GovernanceState.encodeAppName_delimited :
    SelfDelimiting GovernanceState.encodeAppName := by
  intro v w r s hlen h
  simp only [encodeAppName, List.append_assoc] at hlen h
  obtain ⟨hname, h, hlen⟩ := AppName.delimited.split hlen h
  obtain ⟨happ, h, hlen⟩ := PointerId.delimited.split hlen h
  obtain ⟨howner, h, hlen⟩ := PerNetworkIdentityId.delimited.split hlen h
  obtain ⟨hat, h, -⟩ := Timestamp.delimited.split hlen h
  obtain ⟨_, _, _, _⟩ := v
  obtain ⟨_, _, _, _⟩ := w
  dsimp only at *
  subst_vars
  exact ⟨rfl, rfl⟩

theorem GovernanceState.encodeAppName_ne_nil (r : AppName × AppNameRecord) :
    GovernanceState.encodeAppName r ≠ [] := by
  simp only [encodeAppName, List.append_assoc]
  exact List.append_ne_nil_of_left_ne_nil (Enc.str_ne_nil _) _

namespace GovernanceState

variable {C : Crypto} {s t s' : GovernanceState} {e : LogEntry}

/-- Every group is stored under its own name. -/
def GroupsNamed (s : GovernanceState) : Prop :=
  ∀ (g : GroupId) (group : Group), s.groups[g]? = some group → group.id = g

/-- Two states agree on everything the state hash covers. -/
structure SameHashed (s t : GovernanceState) : Prop where
  network : s.network = t.network
  policy : s.policy = t.policy
  groups : s.groups = t.groups
  devices : ∀ d, d ∈ s.deviceCertificates ↔ d ∈ t.deviceCertificates
  revoked : s.revokedDevices = t.revokedDevices
  delisted : s.delisted = t.delisted
  epoch : s.epoch = t.epoch
  appNames : s.appNames = t.appNames
  rotation : s.epochRotationRef = t.epochRotationRef

theorem SameHashed.symm (h : SameHashed s t) : SameHashed t s :=
  ⟨h.network.symm, h.policy.symm, h.groups.symm, fun d => (h.devices d).symm,
    h.revoked.symm, h.delisted.symm, h.epoch.symm, h.appNames.symm,
    h.rotation.symm⟩

/-- Groups stored under their own names are determined by their list. -/
theorem groups_eq_of_values (hs : s.GroupsNamed) (ht : t.GroupsNamed)
    (h : s.groups.toList.map Prod.snd = t.groups.toList.map Prod.snd) :
    s.groups = t.groups := by
  have hpairs : ∀ {u : GovernanceState}, u.GroupsNamed →
      u.groups.toList =
        (u.groups.toList.map Prod.snd).map fun g => (g.id, g) := by
    intro u hu
    rw [List.map_map]
    conv_lhs => rw [← List.map_id u.groups.toList]
    refine List.map_congr_left fun p hp => ?_
    have hid := hu p.1 p.2 (Std.ExtTreeMap.mem_toList_iff_getElem?_eq_some.1 hp)
    exact Prod.ext hid.symm rfl
  rw [← Std.ExtTreeMap.toList_inj, hpairs hs, hpairs ht, h]

theorem keys_eq_of_mem_iff {V W : Type} {m : BTreeMap DevicePublicKey V}
    {n : BTreeMap DevicePublicKey W} (h : ∀ d, d ∈ m ↔ d ∈ n) :
    m.keys = n.keys := by
  have hsorted : ∀ {U : Type} (u : BTreeMap DevicePublicKey U),
      u.keys.Pairwise fun a b => a < b := by
    intro U u
    exact u.ordered_keys.imp fun hab => compare_lt_iff_lt.1 hab
  refine SortedList.eq_of_mem_iff (fun d => d) (hsorted m) (hsorted n) ?_
  intro d
  rw [Std.ExtTreeMap.mem_keys, Std.ExtTreeMap.mem_keys, h]

theorem SameHashed.stateEncoding_eq (h : SameHashed s t) :
    s.stateEncoding = t.stateEncoding := by
  rw [stateEncoding, stateEncoding, h.network, h.policy, h.groups,
    keys_eq_of_mem_iff h.devices, h.revoked, h.delisted, h.epoch, h.appNames,
    h.rotation]

theorem sameHashed_of_stateEncoding (hs : s.GroupsNamed) (ht : t.GroupsNamed)
    (hlen : s.stateEncoding.length < 2 ^ 64)
    (h : s.stateEncoding = t.stateEncoding) : SameHashed s t := by
  rw [← List.append_nil s.stateEncoding] at hlen
  rw [← List.append_nil s.stateEncoding, ← List.append_nil t.stateEncoding] at h
  simp only [stateEncoding, List.append_assoc] at hlen h
  obtain ⟨-, h, hlen⟩ := Enc.str_delimited.split hlen h
  obtain ⟨hnet, h, hlen⟩ := NetworkId.delimited.split hlen h
  obtain ⟨hpolicy, h, hlen⟩ := NetworkPolicy.delimited.split hlen h
  obtain ⟨hgroups, h, hlen⟩ :=
    (Enc.seq_delimited Group.delimited Group.encode_ne_nil).split hlen h
  obtain ⟨hdevices, h, hlen⟩ := (Enc.seq_delimited DevicePublicKey.delimited
    fun d => Enc.fixed_ne_nil d.key.bytes).split hlen h
  obtain ⟨hrevoked, h, hlen⟩ := (Enc.set_delimited DevicePublicKey.delimited
    fun d => Enc.fixed_ne_nil d.key.bytes).split hlen h
  obtain ⟨hdelisted, h, hlen⟩ := (Enc.set_delimited PointerId.delimited
    fun p => Enc.fixed_ne_nil p.bytes).split hlen h
  obtain ⟨hnames, h, hlen⟩ := (Enc.map_delimited encodeAppName_delimited
    encodeAppName_ne_nil).split hlen h
  obtain ⟨hepoch, h, hlen⟩ := Enc.u64_delimited.split hlen h
  obtain ⟨hrotation, -, -⟩ :=
    (Enc.option_delimited Hash.delimited).split hlen h
  refine ⟨hnet, hpolicy, groups_eq_of_values hs ht hgroups, fun d => ?_,
    hrevoked, hdelisted, hepoch, hnames, hrotation⟩
  rw [← Std.ExtTreeMap.mem_keys, hdevices, Std.ExtTreeMap.mem_keys]

/-! ## What holds in every replayed state -/

theorem GroupsNamed.insert (hs : s.GroupsNamed) {g : GroupId} (group : Group)
    (hid : group.id = g) :
    GroupsNamed { s with groups := s.groups.insert g group } := by
  intro a stored hstored
  simp only [BTreeMap.getElem?_insert_ite] at hstored
  split at hstored
  · next hga =>
      cases hstored
      rw [hid, hga]
  · exact hs a stored hstored

theorem GroupsNamed.mutate (hs : s.GroupsNamed)
    (h : s.mutate C e = .ok s') : s'.GroupsNamed := by
  by_cases hm : ∃ g id action, e.body = .membershipChange g id action
  · obtain ⟨g, id, action, hb⟩ := hm
    obtain ⟨group, members, hgroup, -, rfl⟩ := mutate_membershipChange h hb
    exact hs.insert { group with members } (hs g group hgroup)
  · by_cases hd : ∃ g caps, e.body = .defineGroup g caps
    · obtain ⟨g, caps, hb⟩ := hd
      rw [GovernanceState.mutate, hb] at h
      cases h
      refine hs.insert _ ?_
      cases hold : s.groups[g]? with
      | none => rfl
      | some existing => exact hs g existing hold
    · intro g group hgroup
      rw [mutate_groups h (fun g caps hb => hd ⟨g, caps, hb⟩)
        (fun g id action hb => hm ⟨g, id, action, hb⟩)] at hgroup
      exact hs g group hgroup

theorem genesis_groupsNamed {s₀ : GovernanceState}
    (h : genesis C e = .ok s₀) :
    s₀.GroupsNamed ∧ s₀.checkPolicyCoherence = .ok () := by
  unfold genesis at h
  obtain ⟨_, -, h⟩ := Run.bind_ok.1 h
  dsimp only at h
  split at h
  · cases h
  · split at h
    · obtain ⟨_, -, h⟩ := Run.bind_ok.1 h
      obtain ⟨_, hcoherent, h⟩ := Run.bind_ok.1 h
      cases h
      refine ⟨?_, hcoherent⟩
      intro g group hgroup
      simp only [BTreeMap.getElem?_insert_ite] at hgroup
      split at hgroup
      · next hg =>
          cases hgroup
          exact hg
      · split at hgroup
        · next hg =>
            cases hgroup
            exact hg
        · simp at hgroup
    · cases h

/-- Groups under their own names, and both checks of `apply` passed. -/
structure Sound (s : GovernanceState) : Prop where
  named : s.GroupsNamed
  ceiling : s.checkEveryoneInvariant = .ok ()
  coherent : s.checkPolicyCoherence = .ok ()

theorem replay_sound {chain : List LogEntry} (h : replay C chain = .ok s) :
    s.Sound := by
  refine replay_history (P := fun _ s => s.Sound) (fun first s₀ hgen => ?_)
    (fun pre m e m' _ hm happ => ?_) h
  · obtain ⟨hnamed, hcoherent⟩ := genesis_groupsNamed hgen
    obtain ⟨-, -, -, -, hceiling⟩ := genesis_ok hgen
    exact ⟨hnamed, hceiling, hcoherent⟩
  · have hacc := apply_ok happ
    exact ⟨hm.named.mutate hacc.mutated, hacc.everyone, hacc.coherent⟩

/-! ## The checks of a candidate state -/

theorem tierOfInner_sameCapabilities (hpolicy : t.policy = s.policy)
    (hcaps : SameCapabilities s t) (fuel : ℕ) (c : Capability)
    (visiting : BTreeSet GroupId) :
    t.tierOfInner fuel c visiting = s.tierOfInner fuel c visiting := by
  induction fuel generalizing c visiting with
  | zero => rfl
  | succ fuel ih =>
      cases c with
      | extension name => simp only [tierOfInner, hpolicy]
      | manageMembership g =>
          have hg := hcaps g
          simp only [tierOfInner, ih]
          split
          · rfl
          · cases hs : s.groups[g]? with
            | none =>
                rw [hs, Option.map_none, Option.map_eq_none_iff] at hg
                rw [hg]
            | some group =>
                rw [hs, Option.map_some, Option.map_eq_some_iff] at hg
                obtain ⟨group', hgroup', hcap⟩ := hg
                rw [hgroup']
                simp only [hcap]
      | _ => simp only [tierOfInner]

/-- The ceiling looks at capabilities and policy, and at how many groups
there are. -/
theorem checkEveryoneInvariant_congr (hpolicy : t.policy = s.policy)
    (hcaps : SameCapabilities s t) (hsize : t.groups.size = s.groups.size) :
    t.checkEveryoneInvariant = s.checkEveryoneInvariant := by
  have htier : ∀ c, t.tierOf c = s.tierOf c := by
    intro c
    rw [tierOf, tierOf, hsize, tierOfInner_sameCapabilities hpolicy hcaps]
  have hheld : ∀ held, t.checkHeld held = s.checkHeld held := by
    intro held
    induction held with
    | nil => rfl
    | cons c rest ih => rw [checkHeld, checkHeld, htier, ih]
  have hg := hcaps GroupId.everyone
  rw [checkEveryoneInvariant, checkEveryoneInvariant]
  cases hs : s.groups[GroupId.everyone]? with
  | none =>
      rw [hs, Option.map_none, Option.map_eq_none_iff] at hg
      rw [hg]
  | some group =>
      rw [hs, Option.map_some, Option.map_eq_some_iff] at hg
      obtain ⟨group', hgroup', hcap⟩ := hg
      rw [hgroup']
      simp only [hcap, hheld]

theorem checkPolicyCoherence_congr (hpolicy : t.policy = s.policy) :
    t.checkPolicyCoherence = s.checkPolicyCoherence := by
  rw [checkPolicyCoherence, checkPolicyCoherence, hpolicy]

theorem SameHashed.checkEveryoneInvariant (h : SameHashed s t) :
    t.checkEveryoneInvariant = s.checkEveryoneInvariant := by
  refine checkEveryoneInvariant_congr h.policy.symm (fun g => ?_) ?_
  · rw [h.groups]
  · rw [h.groups]

/-! ## The two places that read the votes -/

/-- What the votes of `s` say to `e`: a certificate settles the open vote it
names, an admission was voted for. Every other entry they let pass. -/
def VoteGrants (C : Crypto) (s : GovernanceState) (e : LogEntry) : Prop :=
  match e.body with
  | .voteOutcome certificate => ∃ proposal,
      s.openVotes[certificate.voteId]? = some proposal ∧
        certificate.verify C proposal = .ok .passed
  | .membershipChange _ _ (.add _) => e.body.actionHash C ∈ s.passedVotes
  | _ => True

/-- `e` comes far enough in `s` to be decided by the votes: signed, chained,
by a member, and either an outcome or an admission to a group of a network
that admits by vote. -/
def ConsultsVotes (C : Crypto) (s : GovernanceState) (e : LogEntry) : Prop :=
  e.verifySignature C = .ok () ∧ e.parent.isSome ∧
    s.isMember e.author = true ∧
    ((∃ certificate, e.body = .voteOutcome certificate) ∨
      s.IsMemberVote ∧ ∃ g id via,
        e.body = .membershipChange g id (.add via) ∧ g ∈ s.groups)

theorem SameHashed.consultsVotes (h : SameHashed s t)
    (hc : ConsultsVotes C s e) : ConsultsVotes C t e := by
  rw [ConsultsVotes, isMember, IsMemberVote, ← h.groups, ← h.policy]
  exact hc

/-- The effect of a vote's outcome, where both states grant it. -/
theorem mutate_voteOutcome_agree {certificate : QuorumCertificate}
    (hsame : SameHashed s t) (hb : e.body = .voteOutcome certificate)
    (hvotes : VoteGrants C s e → VoteGrants C t e)
    (h : s.mutate C e = .ok s') :
    ∃ t', t.mutate C e = .ok t' ∧ SameHashed s' t' := by
  simp only [mutate, hb] at h ⊢
  split at h
  · cases h
  · next proposal hopen =>
      split at h
      · cases h
      · cases h
      · next hverify =>
          cases h
          have hgrant : VoteGrants C s e := by
            rw [VoteGrants, hb]
            exact ⟨proposal, hopen, hverify⟩
          have hother := hvotes hgrant
          rw [VoteGrants, hb] at hother
          obtain ⟨other, hopen', hverify'⟩ := hother
          simp only [hopen', hverify']
          exact ⟨_, rfl, { hsame with }⟩

/-- Effects agree on what is hashed. -/
theorem mutate_agree (hsame : SameHashed s t)
    (hvotes : (∃ certificate, e.body = .voteOutcome certificate) →
      VoteGrants C s e → VoteGrants C t e)
    (h : s.mutate C e = .ok s') :
    ∃ t', t.mutate C e = .ok t' ∧ SameHashed s' t' := by
  cases hb : e.body with
  | genesis network policy caps =>
      simp only [mutate, hb] at h
      cases h
  | defineGroup g caps =>
      simp only [mutate, hb, ← hsame.groups] at h ⊢
      cases h
      exact ⟨_, rfl, { hsame with groups := rfl }⟩
  | membershipChange g id action =>
      cases action with
      | add via =>
          simp only [mutate, hb, ← hsame.groups] at h ⊢
          split at h
          · cases h
          · cases h
            exact ⟨_, rfl, { hsame with groups := rfl }⟩
      | remove cascade =>
          simp only [mutate, hb, removeMembership, ← hsame.groups] at h ⊢
          split at h
          · cases h
          · split at h
            · cases h
            · next hin =>
                cases h
                rw [if_neg hin]
                exact ⟨_, rfl, { hsame with groups := rfl }⟩
  | policyChange policy =>
      simp only [mutate, hb] at h ⊢
      cases h
      exact ⟨_, rfl, { hsame with policy := rfl }⟩
  | contentTypePolicy allowlist =>
      simp only [mutate, hb, ← hsame.policy] at h ⊢
      cases h
      exact ⟨_, rfl, { hsame with policy := rfl }⟩
  | voteProposed proposal =>
      simp only [mutate, hb, ← hsame.groups] at h ⊢
      split at h
      · cases h
      · split at h
        · cases h
        · next hsnap =>
            cases h
            rw [if_neg hsnap]
            exact ⟨_, rfl, { hsame with groups := rfl }⟩
  | voteOutcome certificate =>
      exact mutate_voteOutcome_agree hsame hb (hvotes ⟨certificate, hb⟩) h
  | epochRotation reason commit =>
      simp only [mutate, hb, ← hsame.epoch] at h ⊢
      cases h
      exact ⟨_, rfl, { hsame with epoch := rfl, rotation := rfl }⟩
  | deviceEnrollment cert =>
      simp only [mutate, hb, ← hsame.revoked] at h ⊢
      split at h
      · next hrevoked =>
          cases h
          rw [if_pos hrevoked]
          exact ⟨t, rfl, hsame⟩
      · next hrevoked =>
          cases h
          rw [if_neg hrevoked]
          refine ⟨_, rfl, { hsame with devices := fun d => ?_, revoked := rfl }⟩
          simp only [BTreeMap.mem_insert_iff, hsame.devices]
  | deviceRevocation revocation =>
      simp only [mutate, hb, ← hsame.revoked] at h ⊢
      cases h
      refine ⟨_, rfl, { hsame with devices := fun d => ?_, revoked := rfl }⟩
      simp only [Std.ExtTreeMap.mem_erase, hsame.devices]
  | moderation m =>
      simp only [mutate, hb, ← hsame.delisted] at h ⊢
      split at h
      · cases h
        exact ⟨_, rfl, { hsame with delisted := rfl }⟩
      · cases h
        exact ⟨_, rfl, { hsame with delisted := rfl }⟩
  | appNameRegistration name appId =>
      simp only [mutate, hb, ← hsame.appNames] at h ⊢
      cases h
      exact ⟨_, rfl, { hsame with appNames := rfl }⟩
  | appEntry space kind required payload =>
      simp only [mutate, hb] at h ⊢
      cases h
      exact ⟨t, rfl, hsame⟩

/-- Authorization agrees where the votes do. -/
theorem authorize_agree (hsame : SameHashed s t)
    (hvotes : ∀ g id via, e.body = .membershipChange g id (.add via) →
      s.IsMemberVote → g ∈ s.groups → s.isMember e.author = true →
        VoteGrants C s e → VoteGrants C t e)
    (h : s.authorize C e = .ok ()) : t.authorize C e = .ok () := by
  have hholds : ∀ c, t.identityHolds e.author c = s.identityHolds e.author c := by
    intro c
    rw [identityHolds, identityHolds, hsame.groups]
  have hmember : t.isMember e.author = s.isMember e.author := by
    rw [isMember, isMember, hsame.groups]
  have hreq : ∀ required, s.requiredCapability C e = .ok required →
      t.requiredCapability C e = .ok required := by
    intro required hs
    cases hb : e.body with
    | membershipChange g id action =>
        cases action with
        | add via =>
            simp only [requiredCapability, hb, ← hsame.groups, ← hsame.policy,
              requireMember, hmember] at hs ⊢
            split at hs
            · cases hs
            · next hin =>
                rw [if_neg hin]
                split at hs
                · next hmodel =>
                    split at hs
                    · next hpassed =>
                        split at hs
                        · next hmem =>
                            have hgrant : VoteGrants C t e := by
                              refine hvotes g id via hb ⟨_, _, _, hmodel⟩
                                (by simpa using hin) hmem ?_
                              rw [VoteGrants, hb]
                              exact Std.ExtTreeSet.contains_iff_mem.1 hpassed
                            rw [VoteGrants, hb] at hgrant
                            rw [if_pos (Std.ExtTreeSet.contains_iff_mem.2
                              hgrant), if_pos hmem]
                            exact hs
                        · cases hs
                    · cases hs
                · exact hs
        | remove cascade =>
            simpa only [requiredCapability, hb, ← hsame.groups, requireMember,
              hmember] using hs
    | _ =>
        simpa only [requiredCapability, hb, ← hsame.appNames, ← hsame.network,
          requireMember, authorizeDeviceRecord, hmember] using hs
  obtain ⟨required, hs, hold⟩ := authorize_ok h
  rw [authorize, hreq required hs]
  cases required with
  | none => rfl
  | some c =>
      dsimp only
      rw [hholds, if_pos (hold c rfl)]

/-- An entry one state accepts, the other accepts with the same hash, if the
votes answer alike where they are asked. -/
theorem apply_agree (hsame : SameHashed s t)
    (hvotes : ConsultsVotes C s e → VoteGrants C s e → VoteGrants C t e)
    (h : s.apply C e = .ok s') :
    ∃ t', t.apply C e = .ok t' ∧ SameHashed s' t' := by
  have hacc := apply_ok h
  have hmember : ∀ certificate, e.body = .voteOutcome certificate →
      s.isMember e.author = true := by
    intro certificate hb
    obtain ⟨required, hreq, -⟩ := authorize_ok hacc.authorized
    simp only [requiredCapability, hb, requireMember] at hreq
    split at hreq
    · next hm => exact hm
    · cases hreq
  have hauth : t.authorize C e = .ok () := by
    refine authorize_agree hsame (fun g id via hb hmodel hin hmem => ?_)
      hacc.authorized
    exact hvotes ⟨hacc.signed, hacc.hasParent, hmem,
      Or.inr ⟨hmodel, g, id, via, hb, hin⟩⟩
  obtain ⟨t', hmut, hsame'⟩ := mutate_agree hsame (fun hb => by
    obtain ⟨certificate, hb⟩ := hb
    exact hvotes ⟨hacc.signed, hacc.hasParent, hmember certificate hb,
      Or.inl ⟨certificate, hb⟩⟩) hacc.mutated
  refine ⟨t', Accepted.apply ⟨hacc.signed, hacc.notGenesis, hacc.hasParent,
    hauth, hmut, ?_, ?_⟩, hsame'⟩
  · rw [hsame'.checkEveryoneInvariant]
    exact hacc.everyone
  · rw [checkPolicyCoherence_congr hsame'.policy.symm]
    exact hacc.coherent

/-! ## Entries decided by a vote -/

/-- An entry that consults the votes and is granted is accepted. -/
theorem apply_of_granted (hs : s.Sound) (hc : ConsultsVotes C s e)
    (hgrant : VoteGrants C s e) : ∃ s', s.apply C e = .ok s' := by
  obtain ⟨hsig, hparent, hmember, hkind⟩ := hc
  rcases hkind with ⟨certificate, hb⟩ | ⟨hmodel, g, id, via, hb, hin⟩
  · rw [VoteGrants, hb] at hgrant
    obtain ⟨proposal, hopen, hverify⟩ := hgrant
    refine ⟨{ s with
      openVotes := s.openVotes.erase certificate.voteId
      passedVotes := s.passedVotes.insert proposal.subject },
      Accepted.apply ⟨hsig, by rw [hb]; rfl, hparent, ?_, ?_, ?_, ?_⟩⟩
    · rw [authorize, requiredCapability, hb]
      simp only [requireMember, hmember, if_pos]
    · rw [mutate, hb]
      simp only [hopen, hverify]
    · rw [← hs.ceiling]
      exact checkEveryoneInvariant_congr rfl (SameCapabilities.refl s) rfl
    · exact hs.coherent
  · rw [VoteGrants, hb] at hgrant
    obtain ⟨electorate, quorum, window, hmodel⟩ := hmodel
    obtain ⟨target, htarget⟩ := (BTreeMap.mem_iff_exists _ _).1 hin
    refine ⟨{ s with groups := s.groups.insert g { target with
      members := target.members.insert id
        ⟨some e.author, e.timestamp, via⟩ } },
      Accepted.apply ⟨hsig, by rw [hb]; rfl, hparent, ?_, ?_, ?_, ?_⟩⟩
    · have hcontains : s.groups.contains g = true :=
        Std.ExtTreeMap.contains_iff_mem.2 hin
      have hpassed := Std.ExtTreeSet.contains_iff_mem.2 hgrant
      simp only [authorize, requiredCapability, hb, hcontains, hmodel,
        requireMember, hmember, hpassed, Bool.not_true, Bool.false_eq_true,
        if_true, if_false]
    · rw [mutate, hb]
      simp only [htarget]
    · rw [← hs.ceiling]
      refine checkEveryoneInvariant_congr rfl
        (sameCapabilities_insert htarget _) ?_
      rw [Std.ExtTreeMap.size_insert]
      exact if_pos (Std.ExtTreeMap.contains_iff_mem.2 hin)
    · exact hs.coherent

/-- And an accepted one was granted. -/
theorem granted_of_apply (hc : ConsultsVotes C s e)
    (h : s.apply C e = .ok s') : VoteGrants C s e := by
  obtain ⟨-, -, -, hkind⟩ := hc
  rcases hkind with ⟨certificate, hb⟩ | ⟨hmodel, g, id, via, hb, -⟩
  · have hmut := (apply_ok h).mutated
    rw [VoteGrants, hb]
    rw [mutate, hb] at hmut
    dsimp only at hmut
    split at hmut
    · cases hmut
    · next proposal hopen =>
        split at hmut
        · cases hmut
        · cases hmut
        · next hverify => exact ⟨proposal, hopen, hverify⟩
  · obtain ⟨required, hreq, -⟩ := authorize_ok (apply_ok h).authorized
    obtain ⟨electorate, quorum, window, hmodel⟩ := hmodel
    simp only [requiredCapability, hb, hmodel] at hreq
    rw [VoteGrants, hb]
    split at hreq
    · cases hreq
    · split at hreq
      · next hpassed => exact Std.ExtTreeSet.contains_iff_mem.1 hpassed
      · cases hreq

/-- Two states answer `e` alike: both accept it, with equal hashes after, or
neither does. -/
def AnswerAlike (C : Crypto) (s t : GovernanceState) (e : LogEntry) : Prop :=
  ((∃ s', s.apply C e = .ok s') ↔ ∃ t', t.apply C e = .ok t') ∧
    ∀ s' t', s.apply C e = .ok s' → t.apply C e = .ok t' →
      s'.stateHash C = t'.stateHash C

/-- Two replayed states with one hash answer an entry alike exactly when
their votes do, if the entry comes as far as the votes. The hash is asked not
to collide on the two encodings. -/
theorem state_hash_answers_iff {chain₁ chain₂ : List LogEntry}
    (hs : replay C chain₁ = .ok s) (ht : replay C chain₂ = .ok t)
    (hcollision : C.hashBytes s.stateEncoding = C.hashBytes t.stateEncoding →
      s.stateEncoding = t.stateEncoding)
    (hlen : s.stateEncoding.length < 2 ^ 64)
    (heq : s.stateHash C = t.stateHash C) (e : LogEntry) :
    AnswerAlike C s t e ↔
      (ConsultsVotes C s e → (VoteGrants C s e ↔ VoteGrants C t e)) := by
  have hsound := replay_sound hs
  have htound := replay_sound ht
  have hsame : SameHashed s t := sameHashed_of_stateEncoding hsound.named
    htound.named hlen (hcollision heq)
  constructor
  · intro halike hc
    have hct := hsame.consultsVotes hc
    constructor
    · intro hgrant
      obtain ⟨t', ht'⟩ := halike.1.1 (apply_of_granted hsound hc hgrant)
      exact granted_of_apply hct ht'
    · intro hgrant
      obtain ⟨s', hs'⟩ := halike.1.2 (apply_of_granted htound hct hgrant)
      exact granted_of_apply hc hs'
  · intro hvotes
    have hforward : ∀ {s'}, s.apply C e = .ok s' →
        ∃ t', t.apply C e = .ok t' ∧ SameHashed s' t' := fun h =>
      apply_agree hsame (fun hc => (hvotes hc).1) h
    have hback : ∀ {t'}, t.apply C e = .ok t' →
        ∃ s', s.apply C e = .ok s' ∧ SameHashed t' s' := fun h =>
      apply_agree hsame.symm
        (fun hc => (hvotes (hsame.symm.consultsVotes hc)).2) h
    refine ⟨⟨fun h => ?_, fun h => ?_⟩, fun s' t' hs' ht' => ?_⟩
    · obtain ⟨s', hs'⟩ := h
      obtain ⟨t', ht', -⟩ := hforward hs'
      exact ⟨t', ht'⟩
    · obtain ⟨t', ht'⟩ := h
      obtain ⟨s', hs', -⟩ := hback ht'
      exact ⟨s', hs'⟩
    · obtain ⟨found, hfound, hsame'⟩ := hforward hs'
      rw [ht'] at hfound
      cases hfound
      rw [stateHash, stateHash, hsame'.stateEncoding_eq]

/-- A network that admits by a vote among its founders. -/
def votingGenesis : LogEntry :=
  Sample.genesis 0 (Sample.votePolicy GroupId.founders 1) []

/-- The founder puts the admission of 2 to the vote. -/
def proposedEntry : LogEntry :=
  Sample.entry 1 (some 0) 1 1
    (.voteProposed (Sample.founderProposal (Sample.admits 2) 0))

/-- The founder's own ballot closes it. -/
def settledEntry : LogEntry :=
  Sample.entry 2 (some 1) 2 1 (.voteOutcome
    (Sample.founderCertificate (Sample.founderProposal (Sample.admits 2) 0)))

theorem voting_encodings :
    ∃ s t, replay .sample [votingGenesis] = .ok s ∧
      replay .sample [votingGenesis, proposedEntry] = .ok t ∧
      s.stateEncoding = t.stateEncoding ∧
      s.stateEncoding.length < 2 ^ 64 ∧
      Run.okAnd (t.apply .sample settledEntry) (fun _ => true) = true ∧
      Run.okAnd (s.apply .sample settledEntry) (fun _ => true) = false := by
  have hcheck : Run.okAnd (replay .sample [votingGenesis]) (fun s =>
      Run.okAnd (replay .sample [votingGenesis, proposedEntry]) fun t =>
        decide (s.stateEncoding = t.stateEncoding ∧
          s.stateEncoding.length < 2 ^ 64 ∧
          Run.okAnd (t.apply .sample settledEntry) (fun _ => true) = true ∧
          Run.okAnd (s.apply .sample settledEntry) (fun _ => true) =
            false)) = true := by
    decide +kernel
  obtain ⟨s, hs, hp⟩ := Run.okAnd_iff.1 hcheck
  obtain ⟨t, ht, hp⟩ := Run.okAnd_iff.1 hp
  exact ⟨s, t, hs, ht, of_decide_eq_true hp⟩

/-- The founder's rotation, which no vote decides, they answer alike. -/
theorem state_hash_answers_iff_rotation :
    ∃ s t, replay .sample [votingGenesis] = .ok s ∧
      replay .sample [votingGenesis, proposedEntry] = .ok t ∧
      s.stateHash .sample = t.stateHash .sample ∧
      AnswerAlike .sample s t
        (Sample.entry 2 (some 1) 2 1 (.epochRotation .selfInitiated [])) := by
  obtain ⟨s, t, hs, ht, hencoding, hlen, -, -⟩ := voting_encodings
  have hhash : s.stateHash .sample = t.stateHash .sample := by
    rw [stateHash, stateHash, hencoding]
  refine ⟨s, t, hs, ht, hhash, (state_hash_answers_iff hs ht
    (fun _ => hencoding) hlen hhash _).2 fun hc => ?_⟩
  rcases hc.2.2.2 with ⟨certificate, hb⟩ | ⟨-, g, id, via, hb, -⟩
  · cases hb
  · cases hb

/-- With and without an open vote the hash is the same, and only one of the
two states accepts the outcome. -/
theorem state_hash_omits_votes :
    ∃ s t, replay .sample [votingGenesis] = .ok s ∧
      replay .sample [votingGenesis, proposedEntry] = .ok t ∧
      s.stateHash .sample = t.stateHash .sample ∧
      (∃ t', t.apply .sample settledEntry = .ok t') ∧
      ¬ ∃ s', s.apply .sample settledEntry = .ok s' := by
  obtain ⟨s, t, hs, ht, hencoding, -, hgranted, hrefused⟩ := voting_encodings
  refine ⟨s, t, hs, ht, by rw [stateHash, stateHash, hencoding], ?_, ?_⟩
  · obtain ⟨t', ht', -⟩ := Run.okAnd_iff.1 hgranted
    exact ⟨t', ht'⟩
  · intro h
    obtain ⟨s', hs'⟩ := h
    rw [hs'] at hrefused
    cases hrefused

end GovernanceState

end Intranet
