import Intranet.Ref.Bytes

/-!
# Groups, capabilities and network policy

`capability.rs`, `policy.rs` and the names of `group.rs`. A capability is
held by groups only; its tier is fixed for most, read off the policy's
registry for an extension, and resolved against the group graph for
`manageMembership` (that recursion needs a state and lives in `State.lean`).
-/

namespace Intranet

/-- A group's name. -/
@[ext]
structure GroupId where
  name : String
deriving DecidableEq

instance : LinearOrder GroupId :=
  LinearOrder.lift' GroupId.name fun _ _ => GroupId.ext

def GroupId.founders : GroupId := ⟨"Founders"⟩

def GroupId.everyone : GroupId := ⟨"everyone"⟩

/-- A declared content type, e.g. `text` or `app-bundle`. -/
@[ext]
structure ContentType where
  tag : String
deriving DecidableEq

instance : LinearOrder ContentType :=
  LinearOrder.lift' ContentType.tag fun _ _ => ContentType.ext

/-- A human-shareable application name, compared exactly as given. -/
@[ext]
structure AppName where
  name : String
deriving DecidableEq

instance : LinearOrder AppName :=
  LinearOrder.lift' AppName.name fun _ _ => AppName.ext

/-- Whether a capability confers governance power. -/
inductive Tier where
  | ordinary
  | governance
deriving DecidableEq

/-- A discrete, grantable capability. -/
inductive Capability where
  | approveNode
  | revokeNode
  | defineGroup
  | definePolicy
  | defineContentPolicy
  | moderateContent
  | auditReputation
  | readContent
  | manageMembership (group : GroupId)
  | publish (contentType : ContentType)
  | extension (name : String)
deriving DecidableEq

def registerAppName : String := "register-app-name"

def reclaimAppName : String := "reclaim-app-name"

namespace Capability

/-- The wire discriminant and the payload: together they are the derived
`Ord` of the source, which compares variants in declaration order first. -/
def key : Capability → ℕ ×ₗ String
  | approveNode => toLex (0, "")
  | revokeNode => toLex (1, "")
  | defineGroup => toLex (2, "")
  | definePolicy => toLex (3, "")
  | defineContentPolicy => toLex (4, "")
  | moderateContent => toLex (5, "")
  | auditReputation => toLex (6, "")
  | readContent => toLex (7, "")
  | manageMembership group => toLex (8, group.name)
  | publish contentType => toLex (9, contentType.tag)
  | extension name => toLex (10, name)

theorem key_injective : Function.Injective key := by
  intro a b h
  cases a <;> cases b <;>
    simp_all [key, GroupId.ext_iff, ContentType.ext_iff]

instance : LinearOrder Capability := LinearOrder.lift' key key_injective

/-- The tier of a capability whose tier is fixed at definition. -/
def intrinsicTier : Capability → Option Tier
  | approveNode | revokeNode | defineGroup | definePolicy
  | defineContentPolicy | moderateContent | auditReputation =>
      some .governance
  | readContent | publish _ => some .ordinary
  | manageMembership _ | extension _ => none

def encode : Capability → List UInt8
  | approveNode => Enc.variant 0
  | revokeNode => Enc.variant 1
  | defineGroup => Enc.variant 2
  | definePolicy => Enc.variant 3
  | defineContentPolicy => Enc.variant 4
  | moderateContent => Enc.variant 5
  | auditReputation => Enc.variant 6
  | readContent => Enc.variant 7
  | manageMembership group => Enc.variant 8 ++ Enc.str group.name
  | publish contentType => Enc.variant 9 ++ Enc.str contentType.tag
  | extension name => Enc.variant 10 ++ Enc.str name

end Capability

/-- The set of capabilities a group holds. -/
inductive CapabilitySet where
  | all
  | explicit (set : BTreeSet Capability)
deriving DecidableEq

namespace CapabilitySet

/-- Whether this set confers `capability`. -/
def grants : CapabilitySet → Capability → Bool
  | all, _ => true
  | explicit set, capability => set.contains capability

def encode : CapabilitySet → List UInt8
  | all => Enc.variant 0
  | explicit set => Enc.variant 1 ++ Enc.seq set.toList Capability.encode

end CapabilitySet

/-! ## Policy -/

/-- How a network admits new members. -/
inductive AdmissionMode where
  | autoAdmit
  | explicitIntake
deriving DecidableEq

/-- How much history a brand-new member can read. -/
inductive HistoryAccess where
  | currentEpochForward
  | fullHistory
deriving DecidableEq

/-- How admission and other governance decisions are authorized. -/
inductive GovernanceModel where
  | capabilityHolders
  | memberVote (electorate : GroupId) (quorum : UInt32) (windowMillis : Int64)
deriving DecidableEq

/-- Bounded-finality thresholds. -/
structure FinalityParams where
  k : UInt32
  tMillis : Int64
deriving DecidableEq

/-- k = 10 actions, T = 30 minutes. -/
def FinalityParams.default : FinalityParams := ⟨10, 30 * 60000⟩

def FinalityParams.isFinal (p : FinalityParams) (depth : UInt32)
    (ageMillis : Int64) : Bool :=
  decide (p.k ≤ depth) && decide (p.tMillis ≤ ageMillis)

/-- A value an application layer stores in network policy. -/
inductive PolicyValue where
  | int (v : Int64)
  | text (v : String)
  | flag (v : Bool)
deriving DecidableEq

def PolicyValue.encode : PolicyValue → List UInt8
  | int v => Enc.variant 0 ++ Enc.i64 v
  | text v => Enc.variant 1 ++ Enc.str v
  | flag v => Enc.variant 2 ++ Enc.bool v

/-- A network's complete governance configuration. -/
structure NetworkPolicy where
  admissionMode : AdmissionMode
  governanceModel : GovernanceModel
  historyAccess : HistoryAccess
  contentTypeAllowlist : BTreeSet ContentType
  extensionCapabilities : BTreeMap String Tier
  finality : FinalityParams
  replicationFactor : UInt16
  meshRelayThreshold : UInt8
  appPolicy : BTreeMap String PolicyValue
  bootstrapRelays : List String
  targetChunkSize : UInt32
deriving DecidableEq

def starterContentTypes : BTreeSet ContentType :=
  Std.ExtTreeSet.ofList
    [⟨"text"⟩, ⟨"image"⟩, ⟨"video"⟩, ⟨"audio"⟩, ⟨"app-bundle"⟩] compare

namespace NetworkPolicy

def conservativeDefault : NetworkPolicy where
  admissionMode := .explicitIntake
  governanceModel := .capabilityHolders
  historyAccess := .currentEpochForward
  contentTypeAllowlist := starterContentTypes
  extensionCapabilities := ∅
  finality := FinalityParams.default
  replicationFactor := 3
  meshRelayThreshold := 4
  appPolicy := ∅
  bootstrapRelays := []
  targetChunkSize := 32 * 1024

/-- Whether a registration covers `name` as a namespace: it ends in the
separator and `name` starts with it. -/
def coversName (registered name : String) : Bool :=
  registered.toList.getLast? == some ':' &&
    registered.toList.isPrefixOf name.toList

/-- The longer of two registrations, the later one on equal length, as
`max_by_key` keeps it. -/
def longerRegistration (best : Option (String × Tier))
    (candidate : String × Tier) : Option (String × Tier) :=
  match best with
  | none => some candidate
  | some b =>
      if b.1.utf8ByteSize ≤ candidate.1.utf8ByteSize then some candidate
      else some b

/-- A registered extension's tier: the exact name, or else the longest
namespace registration that covers it. -/
def extensionTier (p : NetworkPolicy) (name : String) : Option Tier :=
  match p.extensionCapabilities[name]? with
  | some tier => some tier
  | none =>
      ((p.extensionCapabilities.toList.filter
        fun r => coversName r.1 name).foldl longerRegistration none).map
          Prod.snd

def encode (p : NetworkPolicy) : List UInt8 :=
  (match p.admissionMode with
    | .autoAdmit => Enc.variant 0
    | .explicitIntake => Enc.variant 1) ++
  (match p.governanceModel with
    | .capabilityHolders => Enc.variant 0
    | .memberVote electorate quorum windowMillis =>
        Enc.variant 1 ++ Enc.str electorate.name ++ Enc.u32 quorum ++
          Enc.i64 windowMillis) ++
  (match p.historyAccess with
    | .currentEpochForward => Enc.variant 0
    | .fullHistory => Enc.variant 1) ++
  Enc.seq p.contentTypeAllowlist.toList (fun t => Enc.str t.tag) ++
  Enc.seq p.extensionCapabilities.toList (fun e => Enc.str e.1 ++
    Enc.u8 (match e.2 with
      | .ordinary => 0
      | .governance => 1)) ++
  Enc.seq p.appPolicy.toList (fun e => Enc.str e.1 ++ e.2.encode) ++
  Enc.seq p.bootstrapRelays Enc.str ++
  Enc.u32 p.finality.k ++ Enc.i64 p.finality.tMillis ++
  Enc.u32 p.replicationFactor.toUInt32 ++ Enc.u8 p.meshRelayThreshold ++
  Enc.u32 p.targetChunkSize

end NetworkPolicy

end Intranet
