import Intranet.Ref.Entry

/-!
# Governance state and the replay engine

`state.rs`, `group.rs` and the verifying half of `vote.rs`. A state is what
replaying a chain of entries from genesis produces; `apply` validates one
entry against the rules in effect at its point of the chain and returns the
next state, so a refused entry leaves no state behind at all.

Two recursions of the source are not structural and run on fuel here:
`tier_of_inner`, whose visiting set grows at every level, and the cascade of
`remove_membership`, which takes a member out per push. The fuel each call
passes covers the recursion; `Proofs/Tier.lean` shows it for the first.
-/

namespace Intranet

/-! ## Groups -/

/-- Provenance for one identity's membership in one group. -/
structure MembershipRecord where
  addedBy : Option PerNetworkIdentityId
  addedAt : Timestamp
  viaInvite : Option InviteProvenance
deriving DecidableEq

/-- A flat collection of identities holding a shared capability set. -/
structure Group where
  id : GroupId
  capabilities : CapabilitySet
  members : BTreeMap PerNetworkIdentityId MembershipRecord
deriving DecidableEq

/-- An empty group with the given capability set. -/
def Group.new (id : GroupId) (capabilities : CapabilitySet) : Group :=
  ⟨id, capabilities, ∅⟩

def Group.contains (g : Group) (identity : PerNetworkIdentityId) : Bool :=
  g.members.contains identity

/-- One member of a group's encoding, in the order of the identity keys. -/
def MembershipRecord.encodeMember
    (m : PerNetworkIdentityId × MembershipRecord) : List UInt8 :=
  m.1.encode ++ Enc.option m.2.addedBy PerNetworkIdentityId.encode ++
    Enc.i64 m.2.addedAt.millis ++
    Enc.option m.2.viaInvite InviteProvenance.encode

def Group.encode (g : Group) : List UInt8 :=
  Enc.str g.id.name ++ g.capabilities.encode ++
    Enc.seq g.members.toList MembershipRecord.encodeMember

/-! ## Quorum certificates -/

/-- The result of checking a quorum certificate. -/
inductive VoteOutcome where
  | passed
  | failed
deriving DecidableEq

namespace QuorumCertificate

/-- The ballot loop of `verify`, with the voters seen and the approvals
counted so far. -/
def countApprovals (C : Crypto) (proposal : VoteProposal) :
    List Ballot → BTreeSet PerNetworkIdentityId → Nat →
      Except GovernanceError Nat
  | [], _, approvals => .ok approvals
  | ballot :: rest, seen, approvals =>
      if ballot.voteId ≠ proposal.voteId C then
        .error (.invalidQuorumCertificate
          "certificate contains a ballot for a different proposal")
      else if ballot.verify C ≠ .ok () then
        .error (.invalidQuorumCertificate
          ("ballot from " ++ ballot.voter.short ++ " has an invalid signature"))
      else if !proposal.electorateSnapshot.contains ballot.voter then
        .error (.invalidQuorumCertificate
          (ballot.voter.short ++ " is not in the frozen electorate"))
      else if proposal.closeTime.millis < ballot.castAt.millis then
        .error (.invalidQuorumCertificate
          ("ballot from " ++ ballot.voter.short ++ " was cast after close"))
      else if seen.contains ballot.voter then
        .error (.invalidQuorumCertificate
          (ballot.voter.short ++ " appears more than once"))
      else
        countApprovals C proposal rest (seen.insert ballot.voter)
          (if ballot.approve then approvals + 1 else approvals)

/-- Verifies a certificate against the proposal it claims to settle. -/
def verify (C : Crypto) (c : QuorumCertificate) (proposal : VoteProposal) :
    Except GovernanceError VoteOutcome :=
  if c.voteId ≠ proposal.voteId C then
    .error (.invalidQuorumCertificate "certificate is for a different proposal")
  else if c.ballots.isEmpty then
    .error (.invalidQuorumCertificate "certificate contains no ballots")
  else
    match countApprovals C proposal c.ballots ∅ 0 with
    | .error err => .error err
    | .ok approvals =>
        if Intranet.merkleRoot C (c.ballots.map (Ballot.hash C)) ≠
            c.merkleRoot then
          .error (.invalidQuorumCertificate
            "merkle root does not match the included ballots")
        else if proposal.quorum.toNat ≤ approvals then .ok .passed
        else .ok .failed

end QuorumCertificate

/-! ## The state -/

/-- Who owns an application name, and what it resolves to. -/
structure AppNameRecord where
  appId : PointerId
  owner : PerNetworkIdentityId
  registeredAt : Timestamp
deriving DecidableEq

/-- The authorization state produced by replaying a governance log. -/
structure GovernanceState where
  network : NetworkId
  policy : NetworkPolicy
  groups : BTreeMap GroupId Group
  deviceCertificates : BTreeMap DevicePublicKey DeviceCertificate
  revokedDevices : BTreeSet DevicePublicKey
  delisted : BTreeSet PointerId
  epoch : UInt64
  appNames : BTreeMap AppName AppNameRecord
  openVotes : BTreeMap Hash VoteProposal
  passedVotes : BTreeSet Hash
  epochRotationRef : Option Hash
deriving DecidableEq

namespace GovernanceState

/-! ### Tiers -/

/-- The scan over a group's explicit set: `governance` at the first held
capability that resolves to it, an error at the first that does not
resolve. -/
def scanHeld (tierOf : Capability → Except GovernanceError Tier) :
    List Capability → Except GovernanceError Tier
  | [] => .ok .ordinary
  | held :: rest =>
      match tierOf held with
      | .error err => .error err
      | .ok .governance => .ok .governance
      | .ok .ordinary => scanHeld tierOf rest

/-- `tier_of_inner`. The source inserts the group into `visiting` before the
scan and removes it after, so every capability of one scan sees the same
set; that set is passed down here. A re-entrant group answers `ordinary`. -/
def tierOfInner (s : GovernanceState) :
    Nat → Capability → BTreeSet GroupId → Except GovernanceError Tier
  | 0, _, _ => .ok .ordinary
  | fuel + 1, capability, visiting =>
      match capability with
      | .extension name =>
          match s.policy.extensionTier name with
          | some tier => .ok tier
          | none => .error (.unregisteredExtensionCapability name)
      | .manageMembership group =>
          if visiting.contains group then .ok .ordinary
          else
            match s.groups[group]? with
            | none => .error (.unknownGroup group)
            | some target =>
                match target.capabilities with
                | .all => .ok .governance
                | .explicit set =>
                    scanHeld (fun held =>
                      s.tierOfInner fuel held (visiting.insert group))
                      set.toList
      -- every other capability has an intrinsic tier
      | other => .ok (other.intrinsicTier.getD .ordinary)

/-- Resolves a capability's governance tier against the current state. -/
def tierOf (s : GovernanceState) (capability : Capability) :
    Except GovernanceError Tier :=
  s.tierOfInner (s.groups.size + 1) capability ∅

/-- The loop of `check_everyone_invariant` over what `everyone` holds. -/
def checkHeld (s : GovernanceState) :
    List Capability → Except GovernanceError Unit
  | [] => .ok ()
  | capability :: rest =>
      match s.tierOf capability with
      | .error err => .error err
      | .ok .governance => .error (.everyoneGovernanceTier capability)
      | .ok .ordinary => s.checkHeld rest

/-- The `everyone` ceiling, checked against a whole candidate state. -/
def checkEveryoneInvariant (s : GovernanceState) :
    Except GovernanceError Unit :=
  match s.groups[GroupId.everyone]? with
  | none => .ok ()
  | some everyone =>
      match everyone.capabilities with
      | .all => .error .everyoneUnrestricted
      | .explicit held => s.checkHeld held.toList

/-- Refuses member-vote paired with auto-admit. -/
def checkPolicyCoherence (s : GovernanceState) : Except GovernanceError Unit :=
  match s.policy.governanceModel, s.policy.admissionMode with
  | .memberVote .., .autoAdmit =>
      .error (.incoherentPolicy
        ("auto-admit grants membership on a valid invite, but member-vote " ++
          "requires a quorum to approve admission — a network cannot do " ++
          "both, so pair member-vote with explicit intake"))
  | _, _ => .ok ()

/-! ### Queries -/

/-- Whether `identity` holds `capability` through any group it belongs to. -/
def identityHolds (s : GovernanceState) (identity : PerNetworkIdentityId)
    (capability : Capability) : Bool :=
  s.groups.toList.any fun g =>
    g.2.contains identity && g.2.capabilities.grants capability

/-- Whether `identity` belongs to any group in this network. -/
def isMember (s : GovernanceState) (identity : PerNetworkIdentityId) : Bool :=
  s.groups.toList.any fun g => g.2.contains identity

/-- Whether `device` currently has signing authority for `identity`. -/
def deviceIsAuthorized (s : GovernanceState) (device : DevicePublicKey)
    (identity : PerNetworkIdentityId) : Bool :=
  if s.revokedDevices.contains device then false
  else s.deviceCertificates[device]?.any fun cert =>
    decide (cert.identity = identity)

/-! ### The state hash -/

/-- One application name of the state's encoding. -/
def encodeAppName (r : AppName × AppNameRecord) : List UInt8 :=
  Enc.str r.1.name ++ Enc.fixed r.2.appId.bytes ++ r.2.owner.encode ++
    Enc.i64 r.2.registeredAt.millis

/-- The bytes `state_hash` hashes. -/
def stateEncoding (s : GovernanceState) : List UInt8 :=
  Enc.domain "intranet.governance-state.v1" ++ s.network.encode ++
    s.policy.encode ++
    Enc.seq (s.groups.toList.map Prod.snd) Group.encode ++
    Enc.seq s.deviceCertificates.keys DevicePublicKey.encode ++
    Enc.seq s.revokedDevices.toList DevicePublicKey.encode ++
    Enc.seq s.delisted.toList (fun p => Enc.fixed p.bytes) ++
    Enc.seq s.appNames.toList encodeAppName ++
    Enc.u64 s.epoch ++
    Enc.option s.epochRotationRef (fun h => Enc.fixed h.bytes)

/-- The hash two nodes compare their replayed states by. -/
def stateHash (C : Crypto) (s : GovernanceState) : Hash :=
  C.hashBytes s.stateEncoding

/-! ### Genesis -/

/-- The initial state: `Founders` with the creator and every capability, and
`everyone` with what the creator configured. -/
def genesis (C : Crypto) (entry : LogEntry) :
    Except GovernanceError GovernanceState := do
  entry.verifySignature C
  if entry.parent.isSome then
    throw .unexpectedGenesis
  match entry.body with
  | .genesis network policy everyoneCapabilities =>
      let founders : Group :=
        { Group.new GroupId.founders .all with
          members := (∅ : BTreeMap PerNetworkIdentityId MembershipRecord).insert
            entry.author ⟨none, entry.timestamp, none⟩ }
      let everyone := Group.new GroupId.everyone (.explicit everyoneCapabilities)
      let state : GovernanceState :=
        { network, policy
          groups := ((∅ : BTreeMap GroupId Group).insert
            GroupId.founders founders).insert GroupId.everyone everyone
          deviceCertificates := ∅
          revokedDevices := ∅
          delisted := ∅
          epoch := 0
          appNames := ∅
          openVotes := ∅
          passedVotes := ∅
          epochRotationRef := none }
      state.checkEveryoneInvariant
      state.checkPolicyCoherence
      return state
  | _ => throw .expectedGenesis

/-! ### Authorization -/

/-- Current membership, the floor under the capability-free entries. -/
def requireMember (s : GovernanceState) (author : PerNetworkIdentityId) :
    Except GovernanceError (Option Capability) :=
  if s.isMember author then .ok none else .error (.notAMember author.short)

/-- A device record must be submitted by the identity it concerns, and that
identity must be a current member. -/
def authorizeDeviceRecord (s : GovernanceState)
    (author subject : PerNetworkIdentityId) :
    Except GovernanceError (Option Capability) :=
  if author ≠ subject then
    .error (.deviceRecordAuthorMismatch subject.short author.short)
  else s.requireMember author

/-- The `match` of `authorize`: the capability the entry needs in this
state, `none` where the source returns `Ok(())` without consulting one. -/
def requiredCapability (C : Crypto) (s : GovernanceState) (entry : LogEntry) :
    Except GovernanceError (Option Capability) :=
  match entry.body with
  | .genesis .. => .error .unexpectedGenesis
  | .defineGroup .. => .ok (some .defineGroup)
  | .policyChange _ => .ok (some .definePolicy)
  | .contentTypePolicy _ => .ok (some .defineContentPolicy)
  | .moderation _ => .ok (some .moderateContent)
  | .appEntry _ _ required _ => .ok (some required)
  | .appNameRegistration name _ =>
      if s.appNames.contains name then .ok (some (.extension reclaimAppName))
      else .ok (some (.extension registerAppName))
  | .membershipChange group identity action =>
      if !s.groups.contains group then .error (.unknownGroup group)
      else
        match action with
        | .remove _ =>
            -- a removal naming its own author needs no capability
            if identity = entry.author then s.requireMember entry.author
            else .ok (some (.manageMembership group))
        | .add _ =>
            match s.policy.governanceModel with
            | .memberVote .. =>
                if s.passedVotes.contains (entry.body.actionHash C) then
                  s.requireMember entry.author
                else
                  .error (.invalidQuorumCertificate
                    "no passing vote authorizes this admission")
            | .capabilityHolders => .ok (some (.manageMembership group))
  | .voteProposed _ | .voteOutcome _ => s.requireMember entry.author
  | .epochRotation reason _ =>
      match reason with
      | .memberAdmitted => .ok (some .approveNode)
      | .memberRevoked => .ok (some .revokeNode)
      | .selfInitiated => s.requireMember entry.author
  | .deviceEnrollment cert =>
      match cert.verifyForNetwork C s.network with
      | .error reason => .error (.badDeviceRecord reason)
      | .ok () => s.authorizeDeviceRecord entry.author cert.identity
  | .deviceRevocation revocation =>
      match revocation.verify C with
      | .error reason => .error (.badDeviceRecord reason)
      | .ok () =>
          if revocation.network ≠ s.network then
            .error (.networkMismatch revocation.network.short s.network.short)
          else s.authorizeDeviceRecord entry.author revocation.identity

/-- Checks that the acting identity is authorized to produce `entry`. -/
def authorize (C : Crypto) (s : GovernanceState) (entry : LogEntry) :
    Except GovernanceError Unit :=
  match s.requiredCapability C entry with
  | .error err => .error err
  | .ok none => .ok ()
  | .ok (some required) =>
      if s.identityHolds entry.author required then .ok ()
      else .error (.unauthorized entry.author.short required)

/-! ### Effects -/

/-- The members one step of the cascade dooms: those `remover` added, not
before the cutoff. -/
def doomedBy (cutoff : Option Timestamp) (remover : PerNetworkIdentityId)
    (members : BTreeMap PerNetworkIdentityId MembershipRecord) :
    List PerNetworkIdentityId :=
  (members.toList.filter fun m =>
    decide (m.2.addedBy = some remover) &&
      (match cutoff with
        | none => true
        | some cutoff => decide (cutoff.millis ≤ m.2.addedAt.millis))).map
    Prod.fst

/-- The worklist loop of `remove_membership`. The head of the list is the
end of the source's vector, the element `pop` takes. -/
def cascadeLoop (cutoff : Option Timestamp) :
    Nat → List PerNetworkIdentityId →
      BTreeMap PerNetworkIdentityId MembershipRecord →
        BTreeMap PerNetworkIdentityId MembershipRecord
  | 0, _, members => members
  | _ + 1, [], members => members
  | fuel + 1, remover :: pending, members =>
      let doomed := doomedBy cutoff remover members
      cascadeLoop cutoff fuel (doomed.reverse ++ pending)
        (doomed.foldl (fun m id => m.erase id) members)

/-- Removes a membership, optionally cascading. -/
def removeMembership (s : GovernanceState) (groupId : GroupId)
    (identity : PerNetworkIdentityId) (cascade : Option Cascade)
    (removedAt : Timestamp) : Except GovernanceError GovernanceState :=
  match s.groups[groupId]? with
  | none => .error (.unknownGroup groupId)
  | some group =>
      if !group.members.contains identity then
        .error (.notInGroup identity.short groupId)
      else
        let members := group.members.erase identity
        let members :=
          match cascade with
          | none => members
          | some cascade =>
              let cutoff := cascade.windowMillis.map fun window =>
                removedAt.plusMillis (-window)
              cascadeLoop cutoff (members.size + 1) [identity] members
        .ok { s with groups := s.groups.insert groupId { group with members } }

/-- Applies an already-authorized entry's effects. -/
def mutate (C : Crypto) (s : GovernanceState) (entry : LogEntry) :
    Except GovernanceError GovernanceState :=
  match entry.body with
  | .genesis .. => .error .unexpectedGenesis
  | .defineGroup group capabilities =>
      let updated :=
        match s.groups[group]? with
        | some existing => { existing with capabilities }
        | none => Group.new group capabilities
      .ok { s with groups := s.groups.insert group updated }
  | .membershipChange group identity action =>
      match action with
      | .add viaInvite =>
          match s.groups[group]? with
          | none => .error (.unknownGroup group)
          | some target =>
              let members := target.members.insert identity
                ⟨some entry.author, entry.timestamp, viaInvite⟩
              .ok { s with
                groups := s.groups.insert group { target with members } }
      | .remove cascade =>
          s.removeMembership group identity cascade entry.timestamp
  | .policyChange policy => .ok { s with policy }
  | .contentTypePolicy allowlist =>
      .ok { s with policy := { s.policy with contentTypeAllowlist := allowlist } }
  | .voteProposed proposal =>
      match s.groups[proposal.electorate]? with
      | none => .error (.unknownGroup proposal.electorate)
      | some group =>
          if proposal.electorateSnapshot ≠
              Std.ExtTreeSet.ofList group.members.keys compare then
            .error (.invalidQuorumCertificate
              ("proposal's electorate does not match the membership at this " ++
                "point in the log"))
          else
            .ok { s with
              openVotes := s.openVotes.insert (proposal.voteId C) proposal }
  | .voteOutcome certificate =>
      match s.openVotes[certificate.voteId]? with
      | none =>
          .error (.invalidQuorumCertificate
            "no open vote matches this certificate")
      | some proposal =>
          match certificate.verify C proposal with
          | .error err => .error err
          | .ok .failed =>
              .error (.invalidQuorumCertificate
                "certificate does not reach quorum")
          | .ok .passed =>
              .ok { s with
                openVotes := s.openVotes.erase certificate.voteId
                passedVotes := s.passedVotes.insert proposal.subject }
  | .epochRotation .. =>
      .ok { s with
        epoch := s.epoch + 1
        epochRotationRef := some (entry.hash C) }
  | .deviceEnrollment cert =>
      if s.revokedDevices.contains cert.device then .ok s
      else
        .ok { s with
          deviceCertificates := s.deviceCertificates.insert cert.device cert }
  | .deviceRevocation revocation =>
      .ok { s with
        deviceCertificates := s.deviceCertificates.erase revocation.device
        revokedDevices := s.revokedDevices.insert revocation.device }
  | .appEntry .. => .ok s
  | .appNameRegistration name appId =>
      .ok { s with
        appNames := s.appNames.insert name
          ⟨appId, entry.author, entry.timestamp⟩ }
  | .moderation m =>
      match m.action with
      | .delist => .ok { s with delisted := s.delisted.insert m.targetPointerId }
      | .relist => .ok { s with delisted := s.delisted.erase m.targetPointerId }

/-! ### Replay -/

/-- Validates `entry` against this state and returns the resulting state. -/
def apply (C : Crypto) (s : GovernanceState) (entry : LogEntry) :
    Except GovernanceError GovernanceState := do
  entry.verifySignature C
  if entry.body.isGenesis then
    throw .unexpectedGenesis
  if entry.parent.isNone then
    throw .missingParent
  s.authorize C entry
  let next ← s.mutate C entry
  next.checkEveryoneInvariant
  next.checkPolicyCoherence
  return next

/-- Replays an ordered chain of entries into a state. -/
def replay (C : Crypto) (entries : List LogEntry) :
    Except GovernanceError GovernanceState :=
  match entries with
  | [] => .error .expectedGenesis
  | first :: rest => do
      let state ← genesis C first
      rest.foldlM (apply C) state

end GovernanceState

end Intranet
