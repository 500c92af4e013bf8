import Intranet.Ref.Policy

/-!
# Governance log entries

`entry.rs`, the record types of `vote.rs` and `device.rs` an entry can carry,
and `error.rs`. An entry is identified by the hash of its signed payload and
its signature; the payload in turn covers the parent hash, so the entries of
a log form a tree by construction. What an entry *does* is `State.lean`'s
business; this file only says what it is, how it is signed and hashed, and
whether it counts towards fork-choice weight.
-/

namespace Intranet

/-- A refusal of the governance layer. -/
inductive GovernanceError where
  | expectedGenesis
  | unexpectedGenesis
  | unknownParent (parent : String)
  | missingParent
  | incoherentPolicy (reason : String)
  | unauthorized (identity : String) (capability : Capability)
  | notAMember (identity : String)
  | unknownGroup (group : GroupId)
  | unregisteredExtensionCapability (name : String)
  | everyoneGovernanceTier (capability : Capability)
  | everyoneUnrestricted
  | badSignature
  | badDeviceRecord (reason : String)
  | deviceRecordAuthorMismatch (subject author : String)
  | networkMismatch (entryNetwork logNetwork : String)
  | notInGroup (identity : String) (group : GroupId)
  | invalidQuorumCertificate (reason : String)
deriving DecidableEq

/-! ## Device records -/

/-- A certificate binding a device key to an identity, for one network. -/
structure DeviceCertificate where
  network : NetworkId
  identity : PerNetworkIdentityId
  device : DevicePublicKey
  label : String
  issuedAt : Timestamp
  signature : Signature
deriving DecidableEq

namespace DeviceCertificate

def payload (cert : DeviceCertificate) : List UInt8 :=
  Enc.domain "intranet.device-certificate.v1" ++ cert.network.encode ++
    cert.identity.encode ++ cert.device.encode ++ Enc.str cert.label ++
    Enc.i64 cert.issuedAt.millis

/-- `verify_for_network`, with the text of the `IdentityError` it fails
with. -/
def verifyForNetwork (C : Crypto) (cert : DeviceCertificate)
    (network : NetworkId) : Except String Unit :=
  if cert.network ≠ network then
    .error ("certificate is for network " ++ cert.network.short ++
      ", not " ++ network.short)
  else if C.verify cert.identity.key cert.payload cert.signature then .ok ()
  else .error "signature verification failed for device certificate"

end DeviceCertificate

/-- A revocation cutting off a device's future signing authority. -/
structure DeviceCertificateRevocation where
  network : NetworkId
  identity : PerNetworkIdentityId
  device : DevicePublicKey
  revokedAt : Timestamp
  signature : Signature
deriving DecidableEq

namespace DeviceCertificateRevocation

def payload (r : DeviceCertificateRevocation) : List UInt8 :=
  Enc.domain "intranet.device-revocation.v1" ++ r.network.encode ++
    r.identity.encode ++ r.device.encode ++ Enc.i64 r.revokedAt.millis

def verify (C : Crypto) (r : DeviceCertificateRevocation) :
    Except String Unit :=
  if C.verify r.identity.key r.payload r.signature then .ok ()
  else .error "signature verification failed for device certificate revocation"

end DeviceCertificateRevocation

/-! ## Votes -/

/-- An open vote, defined against a frozen electorate. -/
structure VoteProposal where
  subject : Hash
  electorate : GroupId
  electorateSnapshot : BTreeSet PerNetworkIdentityId
  snapshotRef : Hash
  closeTime : Timestamp
  quorum : UInt32
deriving DecidableEq

namespace VoteProposal

def encode (p : VoteProposal) : List UInt8 :=
  Enc.fixed p.subject.bytes ++ Enc.str p.electorate.name ++
    Enc.seq p.electorateSnapshot.toList PerNetworkIdentityId.encode ++
    Enc.fixed p.snapshotRef.bytes ++ Enc.i64 p.closeTime.millis ++
    Enc.u32 p.quorum

/-- The proposal's identifier, derived from its own contents. -/
@[irreducible]
def voteId (C : Crypto) (p : VoteProposal) : Hash :=
  C.hashBytes (Enc.domain "intranet.vote-proposal.v1" ++ p.encode)

end VoteProposal

/-- One voter's signed ballot. -/
structure Ballot where
  voteId : Hash
  voter : PerNetworkIdentityId
  approve : Bool
  castAt : Timestamp
  signature : Signature
deriving DecidableEq

namespace Ballot

def payload (b : Ballot) : List UInt8 :=
  Enc.domain "intranet.ballot.v1" ++ Enc.fixed b.voteId.bytes ++
    b.voter.encode ++ Enc.bool b.approve ++ Enc.i64 b.castAt.millis

def verify (C : Crypto) (b : Ballot) : Except GovernanceError Unit :=
  if C.verify b.voter.key b.payload b.signature then .ok ()
  else .error .badSignature

/-- The ballot's hash, used as a Merkle leaf. -/
def hash (C : Crypto) (b : Ballot) : Hash :=
  C.hashBytes (b.payload ++ Enc.fixed b.signature.bytes)

def encode (b : Ballot) : List UInt8 :=
  Enc.fixed b.voteId.bytes ++ b.voter.encode ++ Enc.bool b.approve ++
    Enc.i64 b.castAt.millis ++ Enc.fixed b.signature.bytes

end Ballot

/-- An independently verifiable bundle of qualifying ballots. -/
structure QuorumCertificate where
  voteId : Hash
  ballots : List Ballot
  merkleRoot : Hash
deriving DecidableEq

def QuorumCertificate.encode (c : QuorumCertificate) : List UInt8 :=
  Enc.fixed c.voteId.bytes ++ Enc.seq c.ballots Ballot.encode ++
    Enc.fixed c.merkleRoot.bytes

/-! ## Bodies -/

/-- Whether a moderation action delists or restores content. -/
inductive ModerationAction where
  | delist
  | relist
deriving DecidableEq

/-- A moderation action against a published pointer. -/
structure ModerationEntry where
  action : ModerationAction
  targetPointerId : PointerId
deriving DecidableEq

/-- Which invite a membership came from. -/
structure InviteProvenance where
  inviteId : Hash
  issuer : PerNetworkIdentityId
deriving DecidableEq

def InviteProvenance.encode (p : InviteProvenance) : List UInt8 :=
  Enc.fixed p.inviteId.bytes ++ p.issuer.encode

/-- Scope of a cascading removal. -/
structure Cascade where
  windowMillis : Option Int64
deriving DecidableEq

/-- How a membership change alters a group. -/
inductive MembershipAction where
  | add (viaInvite : Option InviteProvenance)
  | remove (cascade : Option Cascade)
deriving DecidableEq

/-- Why an epoch rotation was triggered. -/
inductive RotationReason where
  | memberAdmitted
  | memberRevoked
  | selfInitiated
deriving DecidableEq

/-- The action an entry records. -/
inductive EntryBody where
  | genesis (network : NetworkId) (policy : NetworkPolicy)
      (everyoneCapabilities : BTreeSet Capability)
  | defineGroup (group : GroupId) (capabilities : CapabilitySet)
  | membershipChange (group : GroupId) (identity : PerNetworkIdentityId)
      (action : MembershipAction)
  | policyChange (policy : NetworkPolicy)
  | contentTypePolicy (allowlist : BTreeSet ContentType)
  | epochRotation (reason : RotationReason) (commit : List UInt8)
  | voteProposed (proposal : VoteProposal)
  | voteOutcome (certificate : QuorumCertificate)
  | deviceEnrollment (cert : DeviceCertificate)
  | deviceRevocation (revocation : DeviceCertificateRevocation)
  | moderation (entry : ModerationEntry)
  | appNameRegistration (name : AppName) (appId : PointerId)
  | appEntry (space kind : String) (required : Capability)
      (payload : List UInt8)
deriving DecidableEq

namespace EntryBody

def isGenesis : EntryBody → Bool
  | genesis .. => true
  | _ => false

/-- Whether producing this body requires holding a capability: what the
fork-choice metric counts, before `LogEntry.isCapabilityGated` looks at the
author. -/
def isCapabilityGated : EntryBody → Bool
  | genesis .. => false
  | deviceEnrollment _ | deviceRevocation _ => false
  | voteProposed _ | voteOutcome _ => false
  | epochRotation reason _ =>
      match reason with
      | .memberAdmitted | .memberRevoked => true
      | .selfInitiated => false
  | defineGroup .. | membershipChange .. | policyChange _
  | contentTypePolicy _ | moderation _ | appNameRegistration .. => true
  | appEntry .. => false

/-- A short label, for voided-action reports. -/
def kind : EntryBody → String
  | genesis .. => "genesis"
  | defineGroup .. => "define-group"
  | membershipChange _ _ (.add _) => "membership-add"
  | membershipChange _ _ (.remove _) => "membership-remove"
  | policyChange _ => "policy-change"
  | contentTypePolicy _ => "content-type-policy"
  | epochRotation .. => "epoch-rotation"
  | voteProposed _ => "vote-proposed"
  | voteOutcome _ => "vote-outcome"
  | deviceEnrollment _ => "device-enrollment"
  | deviceRevocation _ => "device-revocation"
  | moderation _ => "moderation"
  | appNameRegistration .. => "app-name-registration"
  | appEntry .. => "app-entry"

def encode : EntryBody → List UInt8
  | genesis network policy everyoneCapabilities =>
      Enc.variant 0 ++ network.encode ++ policy.encode ++
        Enc.seq everyoneCapabilities.toList Capability.encode
  | defineGroup group capabilities =>
      Enc.variant 1 ++ Enc.str group.name ++ capabilities.encode
  | membershipChange group identity action =>
      Enc.variant 2 ++ Enc.str group.name ++ identity.encode ++
        match action with
        | .add viaInvite =>
            Enc.variant 0 ++ Enc.option viaInvite InviteProvenance.encode
        | .remove cascade =>
            Enc.variant 1 ++ Enc.option cascade fun c =>
              Enc.option c.windowMillis Enc.i64
  | policyChange policy => Enc.variant 3 ++ policy.encode
  | contentTypePolicy allowlist =>
      Enc.variant 4 ++ Enc.seq allowlist.toList fun t => Enc.str t.tag
  | epochRotation reason commit =>
      Enc.variant 5 ++
        Enc.u8 (match reason with
          | .memberRevoked => 0
          | .selfInitiated => 1
          | .memberAdmitted => 2) ++
        Enc.bytes commit
  | voteProposed proposal => Enc.variant 10 ++ proposal.encode
  | voteOutcome certificate => Enc.variant 11 ++ certificate.encode
  | deviceEnrollment cert =>
      Enc.variant 6 ++ cert.network.encode ++ cert.identity.encode ++
        cert.device.encode ++ Enc.str cert.label ++
        Enc.i64 cert.issuedAt.millis ++ Enc.fixed cert.signature.bytes
  | deviceRevocation revocation =>
      Enc.variant 7 ++ revocation.network.encode ++
        revocation.identity.encode ++ revocation.device.encode ++
        Enc.i64 revocation.revokedAt.millis ++
        Enc.fixed revocation.signature.bytes
  | appNameRegistration name appId =>
      Enc.variant 9 ++ Enc.str name.name ++ Enc.fixed appId.bytes
  | appEntry space kind required payload =>
      Enc.variant 12 ++ Enc.str space ++ Enc.str kind ++ required.encode ++
        Enc.bytes payload
  | moderation m =>
      Enc.variant 8 ++
        Enc.u8 (match m.action with
          | .delist => 0
          | .relist => 1) ++
        Enc.fixed m.targetPointerId.bytes

/-- The body's hash, as a vote's `subject`. -/
@[irreducible]
def actionHash (C : Crypto) (body : EntryBody) : Hash :=
  C.hashBytes (Enc.domain "intranet.governance-action-hash.v1" ++ body.encode)

end EntryBody

/-! ## Entries -/

/-- A signed, hash-chained governance log entry. -/
structure LogEntry where
  parent : Option Hash
  timestamp : Timestamp
  author : PerNetworkIdentityId
  body : EntryBody
  signature : Signature
deriving DecidableEq

namespace LogEntry

def payload (e : LogEntry) : List UInt8 :=
  Enc.domain "intranet.governance-entry.v1" ++
    Enc.option e.parent (fun h => Enc.fixed h.bytes) ++
    Enc.i64 e.timestamp.millis ++ e.author.encode ++ e.body.encode

/-- The entry's hash: its identity, and the fork-choice tie-break key. -/
@[irreducible]
def hash (C : Crypto) (e : LogEntry) : Hash :=
  C.hashBytes (Enc.domain "intranet.governance-entry-hash.v1" ++
    Enc.bytes e.payload ++ Enc.fixed e.signature.bytes)

def verifySignature (C : Crypto) (e : LogEntry) : Except GovernanceError Unit :=
  if C.verify e.author.key e.payload e.signature then .ok ()
  else .error .badSignature

/-- Whether this entry counts towards fork-choice branch length. Asked of
the entry and not of its body, because a removal naming its own author needs
no capability. -/
def isCapabilityGated (e : LogEntry) : Bool :=
  match e.body with
  | .membershipChange _ identity (.remove _) => decide (identity ≠ e.author)
  | body => body.isCapabilityGated

end LogEntry

end Intranet
