import Intranet.Ref.Dec
import Intranet.Ref.Entry

/-!
# Entries and messages on the wire

`wire.rs` of the governance crate. The encoding of an entry is the signed
encoding again under another domain tag, so the `put_` functions are `encode`
of `Entry.lean`; what is new here is the way back, with the bounds it
enforces and the signature check at the end of it.

Two things are parameters. Whether 32 bytes are a public key is decided by
curve arithmetic in a third-party crate: `validKey` answers it. And where the
source collects a decoded sequence into a set or a map, a `Collect` does it:
`Collect.sorting` is the source's `into_iter().collect()`, which takes the
items in any order and any number of times. `decodeEntry` is the decoder with
that one.
-/

namespace Intranet

/-- Why a message could not be turned into a value. -/
inductive WireError where
  | malformed (err : DecodeError)
  | invalidKey
  | badSignature
  | tooManyEntries (got limit : ℕ)
  | unnamespacedPolicyKey (key : String)
  | malformedAppEntry (space kind : String)
  | appPayloadTooLarge (got : ℕ)
  | commitTooLarge (got : ℕ)
deriving DecidableEq

instance : FromDecodeError WireError := ⟨.malformed⟩

/-! ## Bounds -/

/-- `MAX_COMMIT_BYTES`. -/
def maxCommitBytes : ℕ := 128 * 1024

/-- `MAX_APP_ENTRY_PAYLOAD_BYTES`. -/
def maxAppEntryPayloadBytes : ℕ := 8 * 1024

/-- `MAX_BOOTSTRAP_RELAYS`. -/
def maxBootstrapRelays : ℕ := 8

/-- `MAX_RELAY_ADDRESS_BYTES`. -/
def maxRelayAddressBytes : ℕ := 256

/-- `MAX_ELECTORATE`. -/
def maxElectorate : ℕ := 65536

/-- `MAX_BALLOTS`. -/
def maxBallots : ℕ := maxElectorate

/-- `MAX_BALLOTS_PER_RESPONSE`. -/
def maxBallotsPerResponse : ℕ := 512

/-- `<namespace>:<name>`, split at the first colon, neither part empty. -/
def isValidAppPolicyKey (key : String) : Bool :=
  match key.toList.span (· != ':') with
  | (_, []) => false
  | (space, _ :: name) => !space.isEmpty && !name.isEmpty

def isValidAppEntryName (space kind : String) : Bool :=
  !space.isEmpty && !kind.isEmpty && !space.toList.contains ':'

/-! ## Collecting a sequence -/

/-- How the items of a decoded sequence become a set or a map. Whatever the
way, a sequence in ascending order is taken, and what is taken is the set or
map of the items, a later item of a map replacing an earlier one. -/
structure Collect where
  set : {α : Type} → [LinearOrder α] → List α → Except WireError (BTreeSet α)
  map : {K V : Type} → [LinearOrder K] → List (K × V) →
    Except WireError (BTreeMap K V)
  set_toList : ∀ {α : Type} [LinearOrder α] (s : BTreeSet α),
    set s.toList = .ok s
  map_toList : ∀ {K V : Type} [LinearOrder K] (m : BTreeMap K V),
    map m.toList = .ok m
  set_ok : ∀ {α : Type} [LinearOrder α] {items : List α} {s : BTreeSet α},
    set items = .ok s → s = Std.ExtTreeSet.ofList items compare
  map_ok : ∀ {K V : Type} [LinearOrder K] {items : List (K × V)}
    {m : BTreeMap K V}, map items = .ok m →
      m = Std.ExtTreeMap.ofList items compare

/-- `into_iter().collect()`. -/
def Collect.sorting : Collect where
  set items := .ok (Std.ExtTreeSet.ofList items compare)
  map items := .ok (Std.ExtTreeMap.ofList items compare)
  set_toList s := by rw [BTreeSet.ofList_toList]
  map_toList m := by rw [BTreeMap.ofList_toList]
  set_ok h := (Except.ok.inj h).symm
  map_ok h := (Except.ok.inj h).symm

namespace Wire

def unknown {α : Type} (typeName : String) (discriminant : UInt8) :
    Reader WireError α :=
  Dec.fail (.unknownVariant typeName discriminant)

/-! ## Identity primitives -/

section Keys

variable (validKey : Bytes 32 → Bool)

/-- `VerifyingKey::from_bytes` on the next 32 bytes. -/
def getKey : Reader WireError VerifyingKey := do
  let b ← Dec.fixed 32
  Reader.check (validKey b = true) .invalidKey
  return ⟨b⟩

def getIdentity : Reader WireError PerNetworkIdentityId := do
  let key ← getKey validKey
  return ⟨key⟩

def getDeviceKey : Reader WireError DevicePublicKey := do
  let key ← getKey validKey
  return ⟨key⟩

def getHash : Reader WireError Hash := do
  let b ← Dec.fixed 32
  return ⟨b⟩

def getSignature : Reader WireError Signature := do
  let b ← Dec.fixed 64
  return ⟨b⟩

def getTimestamp : Reader WireError Timestamp := do
  let millis ← Dec.i64
  return ⟨millis⟩

def getGroupId : Reader WireError GroupId := do
  let name ← Dec.str
  return ⟨name⟩

def getContentType : Reader WireError ContentType := do
  let tag ← Dec.str
  return ⟨tag⟩

def getNetworkId : Reader WireError NetworkId := do
  let b ← Dec.fixed 32
  return ⟨b⟩

def getPointerId : Reader WireError PointerId := do
  let b ← Dec.fixed 32
  return ⟨b⟩

def getInviteProvenance : Reader WireError InviteProvenance := do
  let inviteId ← getHash
  let issuer ← getIdentity validKey
  return ⟨inviteId, issuer⟩

end Keys

/-! ## Policy and capabilities -/

section Collections

variable (L : Collect)

def getCapability : Reader WireError Capability := do
  match ← Dec.variant with
  | 0 => return .approveNode
  | 1 => return .revokeNode
  | 2 => return .defineGroup
  | 3 => return .definePolicy
  | 4 => return .defineContentPolicy
  | 5 => return .moderateContent
  | 6 => return .auditReputation
  | 7 => return .readContent
  | 8 => do
      let group ← getGroupId
      return .manageMembership group
  | 9 => do
      let contentType ← getContentType
      return .publish contentType
  | 10 => do
      let name ← Dec.str
      return .extension name
  | other => unknown "Capability" other

/-- A sequence collected into a set. -/
def getSet {α : Type} [LinearOrder α] (p : Reader WireError α) :
    Reader WireError (BTreeSet α) := do
  let items ← Dec.seq p
  Reader.ofExcept (L.set items)

/-- A sequence of pairs collected into a map. -/
def getMap {K V : Type} [LinearOrder K] (p : Reader WireError (K × V)) :
    Reader WireError (BTreeMap K V) := do
  let items ← Dec.seq p
  Reader.ofExcept (L.map items)

def getCapabilitySet : Reader WireError CapabilitySet := do
  match ← Dec.variant with
  | 0 => return .all
  | 1 => do
      let set ← getSet L getCapability
      return .explicit set
  | other => unknown "CapabilitySet" other

def getAdmissionMode : Reader WireError AdmissionMode := do
  match ← Dec.variant with
  | 0 => return .autoAdmit
  | 1 => return .explicitIntake
  | other => unknown "AdmissionMode" other

def getGovernanceModel : Reader WireError GovernanceModel := do
  match ← Dec.variant with
  | 0 => return .capabilityHolders
  | 1 => do
      let electorate ← getGroupId
      let quorum ← Dec.u32
      let windowMillis ← Dec.i64
      return .memberVote electorate quorum windowMillis
  | other => unknown "GovernanceModel" other

def getHistoryAccess : Reader WireError HistoryAccess := do
  match ← Dec.variant with
  | 0 => return .currentEpochForward
  | 1 => return .fullHistory
  | other => unknown "HistoryAccess" other

def getTier : Reader WireError Tier := do
  match ← Dec.u8 with
  | 0 => return .ordinary
  | 1 => return .governance
  | other => unknown "Tier" other

def getExtension : Reader WireError (String × Tier) := do
  let name ← Dec.str
  let tier ← getTier
  return (name, tier)

def getPolicyValue : Reader WireError PolicyValue := do
  match ← Dec.variant with
  | 0 => do
      let v ← Dec.i64
      return .int v
  | 1 => do
      let v ← Dec.str
      return .text v
  | 2 => do
      let v ← Dec.bool
      return .flag v
  | other => unknown "PolicyValue" other

def getAppPolicyItem : Reader WireError (String × PolicyValue) := do
  let key ← Dec.str
  Reader.check (isValidAppPolicyKey key = true) (.unnamespacedPolicyKey key)
  let value ← getPolicyValue
  return (key, value)

def getRelayAddress : Reader WireError String := do
  let address ← Dec.str
  Reader.check (address.utf8ByteSize ≤ maxRelayAddressBytes)
    (.malformed (.implausibleLength (UInt64.ofNat address.utf8ByteSize)
      maxRelayAddressBytes))
  return address

def getPolicy : Reader WireError NetworkPolicy := do
  let admissionMode ← getAdmissionMode
  let governanceModel ← getGovernanceModel
  let historyAccess ← getHistoryAccess
  let contentTypeAllowlist ← getSet L getContentType
  let extensionCapabilities ← getMap L getExtension
  let appPolicy ← getMap L getAppPolicyItem
  let bootstrapRelays ← Dec.seq getRelayAddress
  Reader.check (bootstrapRelays.length ≤ maxBootstrapRelays)
    (.malformed (.implausibleLength (UInt64.ofNat bootstrapRelays.length)
      maxBootstrapRelays))
  let k ← Dec.u32
  let tMillis ← Dec.i64
  let replicationFactor ← Dec.u32
  -- written as a `u32`; a value no `u16` holds is not truncated
  Reader.check (replicationFactor.toNat < 2 ^ 16)
    (.malformed (.implausibleLength (UInt64.ofNat (2 ^ 32 - 1)) 0))
  let meshRelayThreshold ← Dec.u8
  let targetChunkSize ← Dec.u32
  return {
    admissionMode, governanceModel, historyAccess, contentTypeAllowlist
    extensionCapabilities, appPolicy, bootstrapRelays
    finality := ⟨k, tMillis⟩
    replicationFactor := replicationFactor.toUInt16
    meshRelayThreshold, targetChunkSize }

/-! ## Vote proposals and certificates -/

variable (validKey : Bytes 32 → Bool)

def getProposal : Reader WireError VoteProposal := do
  let subject ← getHash
  let electorate ← getGroupId
  let voters ← Dec.seq (getIdentity validKey)
  Reader.check (voters.length ≤ maxElectorate)
    (.tooManyEntries voters.length maxElectorate)
  let electorateSnapshot ← Reader.ofExcept (L.set voters)
  let snapshotRef ← getHash
  let closeTime ← getTimestamp
  let quorum ← Dec.u32
  return ⟨subject, electorate, electorateSnapshot, snapshotRef, closeTime,
    quorum⟩

def getBallot : Reader WireError Ballot := do
  let voteId ← getHash
  let voter ← getIdentity validKey
  let approve ← Dec.bool
  let castAt ← getTimestamp
  let signature ← getSignature
  return ⟨voteId, voter, approve, castAt, signature⟩

def getCertificate : Reader WireError QuorumCertificate := do
  let voteId ← getHash
  let ballots ← Dec.seq (getBallot validKey)
  Reader.check (ballots.length ≤ maxBallots)
    (.tooManyEntries ballots.length maxBallots)
  let merkleRoot ← getHash
  return ⟨voteId, ballots, merkleRoot⟩

/-! ## Entry bodies -/

def getCascade : Reader WireError Cascade := do
  let windowMillis ← Dec.option Dec.i64
  return ⟨windowMillis⟩

def getMembershipAction : Reader WireError MembershipAction := do
  match ← Dec.variant with
  | 0 => do
      let viaInvite ← Dec.option (getInviteProvenance validKey)
      return .add viaInvite
  | 1 => do
      let cascade ← Dec.option getCascade
      return .remove cascade
  | other => unknown "MembershipAction" other

def getRotationReason : Reader WireError RotationReason := do
  match ← Dec.u8 with
  | 0 => return .memberRevoked
  | 1 => return .selfInitiated
  | 2 => return .memberAdmitted
  | other => unknown "RotationReason" other

def getModerationAction : Reader WireError ModerationAction := do
  match ← Dec.u8 with
  | 0 => return .delist
  | 1 => return .relist
  | other => unknown "ModerationAction" other

def getDeviceCertificate : Reader WireError DeviceCertificate := do
  let network ← getNetworkId
  let identity ← getIdentity validKey
  let device ← getDeviceKey validKey
  let label ← Dec.str
  let issuedAt ← getTimestamp
  let signature ← getSignature
  return ⟨network, identity, device, label, issuedAt, signature⟩

def getDeviceRevocation : Reader WireError DeviceCertificateRevocation := do
  let network ← getNetworkId
  let identity ← getIdentity validKey
  let device ← getDeviceKey validKey
  let revokedAt ← getTimestamp
  let signature ← getSignature
  return ⟨network, identity, device, revokedAt, signature⟩

def getBody : Reader WireError EntryBody := do
  match ← Dec.variant with
  | 0 => do
      let network ← getNetworkId
      let policy ← getPolicy L
      let everyoneCapabilities ← getSet L getCapability
      return .genesis network policy everyoneCapabilities
  | 1 => do
      let group ← getGroupId
      let capabilities ← getCapabilitySet L
      return .defineGroup group capabilities
  | 2 => do
      let group ← getGroupId
      let identity ← getIdentity validKey
      let action ← getMembershipAction validKey
      return .membershipChange group identity action
  | 3 => do
      let policy ← getPolicy L
      return .policyChange policy
  | 4 => do
      let allowlist ← getSet L getContentType
      return .contentTypePolicy allowlist
  | 5 => do
      let reason ← getRotationReason
      let commit ← Dec.bytes
      Reader.check (commit.length ≤ maxCommitBytes)
        (.commitTooLarge commit.length)
      return .epochRotation reason commit
  | 10 => do
      let proposal ← getProposal L validKey
      return .voteProposed proposal
  | 11 => do
      let certificate ← getCertificate validKey
      return .voteOutcome certificate
  | 6 => do
      let cert ← getDeviceCertificate validKey
      return .deviceEnrollment cert
  | 7 => do
      let revocation ← getDeviceRevocation validKey
      return .deviceRevocation revocation
  | 8 => do
      let action ← getModerationAction
      let targetPointerId ← getPointerId
      return .moderation ⟨action, targetPointerId⟩
  | 9 => do
      let name ← Dec.str
      let appId ← getPointerId
      return .appNameRegistration ⟨name⟩ appId
  | 12 => do
      let space ← Dec.str
      let kind ← Dec.str
      Reader.check (isValidAppEntryName space kind = true)
        (.malformedAppEntry space kind)
      let required ← getCapability
      let payload ← Dec.bytes
      Reader.check (payload.length ≤ maxAppEntryPayloadBytes)
        (.appPayloadTooLarge payload.length)
      return .appEntry space kind required payload
  | other => unknown "EntryBody" other

/-! ## Entries -/

def getEntry : Reader WireError LogEntry := do
  let parent ← Dec.option getHash
  let timestamp ← getTimestamp
  let author ← getIdentity validKey
  let body ← getBody L validKey
  let signature ← getSignature
  return ⟨parent, timestamp, author, body, signature⟩

end Collections

def putEntry (e : LogEntry) : List UInt8 :=
  Enc.option e.parent (fun h => Enc.fixed h.bytes) ++
    Enc.i64 e.timestamp.millis ++ e.author.encode ++ e.body.encode ++
    Enc.fixed e.signature.bytes

/-- `ENTRY_WIRE_DOMAIN`. -/
def entryWireDomain : String := "intranet.wire.entry.v1"

/-- Encodes an entry for transmission. -/
def encodeEntry (e : LogEntry) : List UInt8 :=
  Enc.domain entryWireDomain ++ putEntry e

/-- `decode_entry`, with the way its sequences are collected open. -/
def decodeEntryWith (L : Collect) (C : Crypto) (validKey : Bytes 32 → Bool)
    (bytes : List UInt8) : Except WireError LogEntry :=
  Dec.decode (do
    Dec.domain entryWireDomain
    let entry ← getEntry L validKey
    Dec.finish
    Reader.check (entry.verifySignature C = .ok ()) .badSignature
    return entry) bytes

/-- Decodes an entry and verifies its signature. -/
def decodeEntry (C : Crypto) (validKey : Bytes 32 → Bool)
    (bytes : List UInt8) : Except WireError LogEntry :=
  decodeEntryWith .sorting C validKey bytes

end Wire

/-! ## The sync protocol -/

open Wire

/-- A request in the pull-based sync protocol. `held` is the source's `have`,
the tips the requester already holds. -/
inductive SyncRequest where
  | heads
  | fetch (wanted held : List Hash)
deriving DecidableEq

def encodeHashes (hashes : List Hash) : List UInt8 :=
  Enc.seq hashes fun h => Enc.fixed h.bytes

namespace SyncRequest

def wireDomain : String := "intranet.wire.sync-request.v1"

def encode (r : SyncRequest) : List UInt8 :=
  Enc.domain wireDomain ++
    match r with
    | heads => Enc.variant 0
    | fetch wanted held =>
        Enc.variant 1 ++ encodeHashes wanted ++ encodeHashes held

def get : Reader WireError SyncRequest := do
  match ← Dec.variant with
  | 0 => return .heads
  | 1 => do
      let wanted ← Dec.seq getHash
      let held ← Dec.seq getHash
      return .fetch wanted held
  | other => unknown "SyncRequest" other

def decode (bytes : List UInt8) : Except WireError SyncRequest :=
  Dec.decode (do
    Dec.domain wireDomain
    let request ← get
    Dec.finish
    return request) bytes

end SyncRequest

/-- A response in the pull-based sync protocol. -/
inductive SyncResponse where
  | heads (heads : List Hash)
  | entries (entries : List LogEntry) (truncated : Bool)
deriving DecidableEq

namespace SyncResponse

def wireDomain : String := "intranet.wire.sync-response.v1"

/-- Every entry sits inside a length prefix of its own. -/
def encode (r : SyncResponse) : List UInt8 :=
  Enc.domain wireDomain ++
    match r with
    | heads tips => Enc.variant 0 ++ encodeHashes tips
    | entries sent truncated =>
        Enc.variant 1 ++ Enc.seq sent (fun e => Enc.bytes (encodeEntry e)) ++
          Enc.bool truncated

def get (C : Crypto) (validKey : Bytes 32 → Bool) :
    Reader WireError SyncResponse := do
  match ← Dec.variant with
  | 0 => do
      let heads ← Dec.seq getHash
      return .heads heads
  | 1 => do
      let items ← Dec.seq Dec.bytes
      let entries ← Reader.ofExcept (items.mapM (decodeEntry C validKey))
      let truncated ← Dec.bool
      return .entries entries truncated
  | other => unknown "SyncResponse" other

/-- Decodes a response, verifying every entry's signature. -/
def decode (C : Crypto) (validKey : Bytes 32 → Bool) (bytes : List UInt8) :
    Except WireError SyncResponse :=
  Dec.decode (do
    Dec.domain wireDomain
    let response ← get C validKey
    Dec.finish
    return response) bytes

end SyncResponse

/-! ## Ballot collection -/

/-- A request for ballots cast under one vote. `held` is the source's
`have`. -/
structure BallotRequest where
  voteId : Hash
  held : List Hash
  requester : PerNetworkIdentityId
  signature : Signature
deriving DecidableEq

namespace BallotRequest

def wireDomain : String := "intranet.wire.ballot-request.v1"

def payload (r : BallotRequest) : List UInt8 :=
  Enc.domain "intranet.ballot-request.v1" ++ Enc.fixed r.voteId.bytes ++
    encodeHashes r.held ++ r.requester.encode

def verify (C : Crypto) (r : BallotRequest) : Except WireError Unit :=
  if C.verify r.requester.key r.payload r.signature then .ok ()
  else .error .badSignature

def put (r : BallotRequest) : List UInt8 :=
  Enc.fixed r.voteId.bytes ++ encodeHashes r.held ++ r.requester.encode ++
    Enc.fixed r.signature.bytes

def encode (r : BallotRequest) : List UInt8 := Enc.domain wireDomain ++ r.put

def get (validKey : Bytes 32 → Bool) : Reader WireError BallotRequest := do
  let voteId ← getHash
  let held ← Dec.seq getHash
  Reader.check (held.length ≤ maxBallots)
    (.tooManyEntries held.length maxBallots)
  let requester ← getIdentity validKey
  let signature ← getSignature
  return ⟨voteId, held, requester, signature⟩

/-- Decodes a request and verifies its signature. -/
def decode (C : Crypto) (validKey : Bytes 32 → Bool) (bytes : List UInt8) :
    Except WireError BallotRequest :=
  Dec.decode (do
    Dec.domain wireDomain
    let request ← get validKey
    Dec.finish
    Reader.ofExcept (request.verify C)
    return request) bytes

end BallotRequest

/-- Why a node would not serve ballots. -/
inductive BallotRefusal where
  | notAMember
  | cannotEvaluate
  | unknownVote
deriving DecidableEq

/-- A response carrying ballots. -/
inductive BallotResponse where
  | ballots (ballots : List Ballot) (truncated : Bool)
  | refused (reason : BallotRefusal)
deriving DecidableEq

namespace BallotResponse

def wireDomain : String := "intranet.wire.ballot-response.v1"

def encode (r : BallotResponse) : List UInt8 :=
  Enc.domain wireDomain ++
    match r with
    | ballots sent truncated =>
        Enc.variant 0 ++ Enc.seq sent Ballot.encode ++ Enc.bool truncated
    | refused reason =>
        Enc.variant 1 ++
          Enc.u8 (match reason with
            | .notAMember => 0
            | .cannotEvaluate => 1
            | .unknownVote => 2)

/-- A ballot, verified while it is decoded. -/
def getVerifiedBallot (C : Crypto) (validKey : Bytes 32 → Bool) :
    Reader WireError Ballot := do
  let ballot ← getBallot validKey
  Reader.check (ballot.verify C = .ok ()) .badSignature
  return ballot

def getRefusal : Reader WireError BallotRefusal := do
  match ← Dec.u8 with
  | 0 => return .notAMember
  | 1 => return .cannotEvaluate
  | 2 => return .unknownVote
  | other => unknown "BallotRefusal" other

def get (C : Crypto) (validKey : Bytes 32 → Bool) :
    Reader WireError BallotResponse := do
  match ← Dec.variant with
  | 0 => do
      let ballots ← Dec.seq (getVerifiedBallot C validKey)
      Reader.check (ballots.length ≤ maxBallotsPerResponse)
        (.tooManyEntries ballots.length maxBallotsPerResponse)
      let truncated ← Dec.bool
      return .ballots ballots truncated
  | 1 => do
      let reason ← getRefusal
      return .refused reason
  | other => unknown "BallotResponse" other

/-- Decodes a response, verifying every ballot's signature. -/
def decode (C : Crypto) (validKey : Bytes 32 → Bool) (bytes : List UInt8) :
    Except WireError BallotResponse :=
  Dec.decode (do
    Dec.domain wireDomain
    let response ← get C validKey
    Dec.finish
    return response) bytes

end BallotResponse

end Intranet
