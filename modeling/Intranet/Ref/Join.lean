import Intranet.Ref.Log
import Intranet.Ref.Pointer

/-!
# Invites, the waiting room and the join handshake

`intranet-invite`, the join half of `node.rs`, and `invite_use_count` of
`state.rs`. A joiner presents an invite. The request is screened when it
arrives and held until the node's operator answers it; the answer validates
the invite against the replayed state, and then either appends a membership
entry or notes the joiner in the waiting room, by the network's admission
mode.

How often an invite was used is stored nowhere. It is counted off the
provenance of the members present, each time it is asked.
-/

namespace Intranet

/-- The identities whose membership, in any group, came from an invite. -/
def GovernanceState.usedBy (s : GovernanceState) (inviteId : Hash) :
    BTreeSet PerNetworkIdentityId :=
  s.groups.toList.foldl (fun used g =>
    g.2.members.toList.foldl (fun used m =>
      if m.2.viaInvite.any fun p => decide (p.inviteId = inviteId) then
        used.insert m.1
      else used) used) ∅

/-- How many memberships were granted using a given invite. -/
def GovernanceState.inviteUseCount (s : GovernanceState) (inviteId : Hash) :
    Nat :=
  (s.usedBy inviteId).size

/-- Builds and signs an entry. -/
def LogEntry.create {C : Crypto} {validKey : Bytes 32 → Bool}
    (author : PerNetworkIdentity C validKey) (parent : Option Hash)
    (timestamp : Timestamp) (body : EntryBody) : LogEntry :=
  let unsigned : LogEntry :=
    ⟨parent, timestamp, author.id, body, ⟨Bytes.replicate 64 0⟩⟩
  { unsigned with signature := author.sign unsigned.payload }

/-! ## Invites -/

/-- Who may redeem an invite. -/
inductive InviteSubject where
  | bearer
  | identity (named : PerNetworkIdentityId)
deriving DecidableEq

/-- Why an invite was refused. -/
inductive InviteError where
  | badSignature
  | networkMismatch (inviteNetwork expectedNetwork : String)
  | expired (expiresAt now : Timestamp)
  | notYetValid (issuedAt now : Timestamp)
  | issuerNotAuthorized (issuer : String)
  | wrongSubject (expected presenter : String)
  | exhausted (used : Nat) (maxUses : UInt32)
  | noBootstrapAddresses
deriving DecidableEq

/-- A signed, time-bounded, use-count-limited credential to join a
network. -/
structure Invite where
  network : NetworkId
  bootstrapAddresses : List String
  issuer : PerNetworkIdentityId
  subject : InviteSubject
  issuedAt : Timestamp
  expiresAt : Timestamp
  maxUses : UInt32
  signature : Signature
deriving DecidableEq

namespace Invite

def signingPayload (i : Invite) : List UInt8 :=
  Enc.domain "intranet.invite.v1" ++ i.network.encode ++
    Enc.seq i.bootstrapAddresses Enc.str ++ i.issuer.encode ++
    (match i.subject with
      | .bearer => Enc.variant 0
      | .identity named => Enc.variant 1 ++ named.encode) ++
    Enc.i64 i.issuedAt.millis ++ Enc.i64 i.expiresAt.millis ++
    Enc.u32 i.maxUses

/-- The invite's identifier, derived from its contents. -/
def inviteId (C : Crypto) (i : Invite) : Hash :=
  C.hashBytes (i.signingPayload ++ Enc.fixed i.signature.bytes)

/-- The record to attach to a membership granted via this invite. -/
def provenance (C : Crypto) (i : Invite) : InviteProvenance :=
  ⟨i.inviteId C, i.issuer⟩

def verifySignature (C : Crypto) (i : Invite) : Except InviteError Unit :=
  if C.verify i.issuer.key i.signingPayload i.signature then .ok ()
  else .error .badSignature

/-- Whether the invite names somebody other than `presenter`. -/
def namesOther (i : Invite) (presenter : PerNetworkIdentityId) :
    Option PerNetworkIdentityId :=
  match i.subject with
  | .bearer => none
  | .identity named => if named ≠ presenter then some named else none

/-- Validates an invite for redemption by `presenter`. -/
def validate (C : Crypto) (i : Invite) (presenter : PerNetworkIdentityId)
    (state : GovernanceState) (now : Timestamp) :
    Except InviteError InviteProvenance := do
  i.verifySignature C
  if i.network ≠ state.network then
    throw (.networkMismatch i.network.short state.network.short)
  if i.bootstrapAddresses.isEmpty then
    throw .noBootstrapAddresses
  if now.millis < i.issuedAt.millis then
    throw (.notYetValid i.issuedAt now)
  if i.expiresAt.millis < now.millis then
    throw (.expired i.expiresAt now)
  match i.namesOther presenter with
  | some named => throw (.wrongSubject named.short presenter.short)
  | none =>
      if !state.identityHolds i.issuer .approveNode then
        throw (.issuerNotAuthorized i.issuer.short)
      let used := state.inviteUseCount (i.inviteId C)
      if i.maxUses.toNat ≤ used then
        throw (.exhausted used i.maxUses)
      return i.provenance C

end Invite

/-! ## The waiting room -/

/-- A node awaiting explicit admission. -/
structure WaitingRoomEntry where
  identity : PerNetworkIdentityId
  provenance : InviteProvenance
  arrivedAt : Timestamp
deriving DecidableEq

/-- Node-local record of identities awaiting admission. -/
structure WaitingRoom where
  occupants : BTreeMap PerNetworkIdentityId WaitingRoomEntry
deriving DecidableEq

namespace WaitingRoom

def new : WaitingRoom := ⟨∅⟩

/-- Records a joiner as awaiting admission. One that is already there keeps
its entry. -/
def admitToWaiting (room : WaitingRoom) (identity : PerNetworkIdentityId)
    (provenance : InviteProvenance) (arrivedAt : Timestamp) : WaitingRoom :=
  if room.occupants.contains identity then room
  else ⟨room.occupants.insert identity ⟨identity, provenance, arrivedAt⟩⟩

def remove (room : WaitingRoom) (identity : PerNetworkIdentityId) :
    WaitingRoom :=
  ⟨room.occupants.erase identity⟩

def contains (room : WaitingRoom) (identity : PerNetworkIdentityId) : Bool :=
  room.occupants.contains identity

/-- Drops anyone who has since become a member of any group. -/
def reconcile (room : WaitingRoom) (state : GovernanceState) : WaitingRoom :=
  ⟨room.occupants.filter fun identity _ => !state.isMember identity⟩

/-- How many of those waiting came with a given invite. -/
def arrivalsForInvite (room : WaitingRoom) (inviteId : Hash) : Nat :=
  (room.occupants.toList.filter fun o =>
    decide (o.2.provenance.inviteId = inviteId)).length

end WaitingRoom

/-! ## The handshake -/

/-- A joiner presenting an invite. -/
structure JoinRequest where
  joiner : PerNetworkIdentityId
  invite : Invite
  signature : Signature
deriving DecidableEq

/-- Why a join was refused. -/
inductive JoinRefusal where
  | inviteInvalid
  | cannotEvaluate
  | notConnectionOwner
  | inviteCeiling
  | alreadyMember
deriving DecidableEq

/-- The answer to a join request. -/
inductive JoinResponse where
  | admitted (entry : Hash)
  | waiting
  | refused (reason : JoinRefusal)
deriving DecidableEq

/-- A failure of the transport layer, as far as joins run into one. -/
inductive TransportError where
  | dial (reason : String)
deriving DecidableEq

/-- Identifies one inbound join awaiting an answer. -/
@[ext]
structure JoinRequestId where
  value : UInt64
deriving DecidableEq

instance : LinearOrder JoinRequestId :=
  LinearOrder.lift' (fun id : JoinRequestId => id.value.toNat)
    fun _ _ h => JoinRequestId.ext (UInt64.toNat_inj.1 h)

/-- What the join handlers read and write of a node. A held request carries
the channel to answer on in the source, which decides nothing. -/
structure JoinNode where
  log : GovernanceLog
  waitingRoom : WaitingRoom
  inboundJoins : BTreeMap JoinRequestId JoinRequest
  nextJoinRequest : UInt64

namespace JoinNode

/-- A node over `log` nobody has knocked at yet. -/
def new (log : GovernanceLog) : JoinNode := ⟨log, .new, ∅, 0⟩

def governanceState (C : Crypto) (node : JoinNode) : Option GovernanceState :=
  (node.log.replayCanonical C).toOption

/-- Every check of a join that can be made without a clock. A peer id is the
key of an identity, so that of the named joiner is compared as the
identity. -/
def screenJoin (C : Crypto) (node : JoinNode) (request : JoinRequest)
    (peer : PerNetworkIdentityId) : Except JoinRefusal Unit :=
  if request.joiner ≠ peer then .error .notConnectionOwner
  else
    match node.governanceState C with
    | none => .error .cannotEvaluate
    | some state =>
        if state.isMember request.joiner then .error .alreadyMember
        else
          let inviteId := request.invite.inviteId C
          let used := state.inviteUseCount inviteId
          let remaining := request.invite.maxUses.toNat - used
          if remaining ≤ node.waitingRoom.arrivalsForInvite inviteId then
            .error .inviteCeiling
          else .ok ()

/-- What happens to a request on arrival: refused at once, or held under the
next id. -/
def receiveJoin (C : Crypto) (node : JoinNode) (request : JoinRequest)
    (peer : PerNetworkIdentityId) : Option JoinResponse × JoinNode :=
  match node.screenJoin C request peer with
  | .error reason => (some (.refused reason), node)
  | .ok () =>
      (none, { node with
        inboundJoins := node.inboundJoins.insert ⟨node.nextJoinRequest⟩ request
        nextJoinRequest := node.nextJoinRequest + 1 })

/-- The entry that admits a joiner, on top of the canonical chain. -/
def joinEntry {C : Crypto} {validKey : Bytes 32 → Bool} (node : JoinNode)
    (request : JoinRequest) (identity : PerNetworkIdentity C validKey)
    (now : Timestamp) (provenance : InviteProvenance) : LogEntry :=
  LogEntry.create identity node.log.canonicalChain.getLast? now
    (.membershipChange GroupId.everyone request.joiner (.add (some provenance)))

/-- Works out what a join should produce. -/
def decideJoin (C : Crypto) {validKey : Bytes 32 → Bool} (node : JoinNode)
    (request : JoinRequest) (identity : PerNetworkIdentity C validKey)
    (now : Timestamp) : JoinResponse × JoinNode :=
  match node.governanceState C with
  | none => (.refused .cannotEvaluate, node)
  | some state =>
      match request.invite.validate C request.joiner state now with
      | .error _ => (.refused .inviteInvalid, node)
      | .ok provenance =>
          match state.policy.admissionMode with
          | .autoAdmit =>
              match node.log.insert C
                  (node.joinEntry request identity now provenance) with
              | .ok (hash, log) =>
                  (.admitted hash, { node with
                    log
                    waitingRoom := node.waitingRoom.remove request.joiner })
              | .error _ => (.refused .cannotEvaluate, node)
          | .explicitIntake =>
              (.waiting, { node with
                waitingRoom := node.waitingRoom.admitToWaiting request.joiner
                  provenance now })

/-- Answers a join that was held for consideration. -/
def answerJoin (C : Crypto) {validKey : Bytes 32 → Bool} (node : JoinNode)
    (id : JoinRequestId) (identity : PerNetworkIdentity C validKey)
    (now : Timestamp) : Except TransportError JoinResponse × JoinNode :=
  match node.inboundJoins[id]? with
  | none => (.error (.dial "no such pending join"), node)
  | some request =>
      let held := { node with inboundJoins := node.inboundJoins.erase id }
      let (response, next) := held.decideJoin C request identity now
      (.ok response, next)

/-- Refuses a join without evaluating it further, and what is sent back. -/
def declineJoin (node : JoinNode) (id : JoinRequestId) (reason : JoinRefusal) :
    Option JoinResponse × JoinNode :=
  match node.inboundJoins[id]? with
  | none => (none, node)
  | some _ =>
      (some (.refused reason),
        { node with inboundJoins := node.inboundJoins.erase id })

/-- `reconcile_waiting_room`: drops whoever governance now says is a
member. -/
def reconcileWaitingRoom (C : Crypto) (node : JoinNode) : JoinNode :=
  if node.waitingRoom.occupants.isEmpty then node
  else
    match node.governanceState C with
    | none => node
    | some state =>
        { node with waitingRoom := node.waitingRoom.reconcile state }

/-- Adds an entry to the log. -/
def appendEntry (C : Crypto) (node : JoinNode) (entry : LogEntry) :
    Except GovernanceError (Hash × JoinNode) := do
  let (hash, log) ← node.log.insert C entry
  return (hash, { node with log }.reconcileWaitingRoom C)

end JoinNode

end Intranet
