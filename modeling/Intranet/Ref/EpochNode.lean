import Intranet.Ref.EpochWire
import Intranet.Ref.Group
import Intranet.Ref.Join
import Intranet.Ref.PointerSync

/-!
# Keying members in

The epoch half of `node.rs`. A request for a key is screened when it arrives
and held; a caller answers or declines it later. Every change of the group is
a commit, and every commit is an entry appended to the log.

A node's own operations can fail after its group has moved, so each returns
the node it leaves beside its result. The channel a held request is answered
on decides nothing and is left out, as for joins.
-/

namespace Intranet

/-- The primitives this half of the node rests on. -/
structure EpochPrimitives where
  crypto : Crypto
  validKey : Bytes 32 → Bool
  aead : Aead
  dh : DiffieHellman
  mls : OpenMls

/-- Identifies one inbound key delivery awaiting an answer. -/
@[ext]
structure EpochRequestId where
  value : UInt64
deriving DecidableEq

instance : LinearOrder EpochRequestId :=
  LinearOrder.lift' (fun id : EpochRequestId => id.value.toNat)
    fun _ _ h => EpochRequestId.ext (UInt64.toNat_inj.1 h)

/-- What the epoch operations read and write of a node. -/
structure EpochNode where
  identityId : PerNetworkIdentityId
  log : GovernanceLog
  keyring : EpochKeyring
  group : Option GroupSession
  pendingJoin : Option PendingMember
  inboundEpochRequests : BTreeMap EpochRequestId EpochKeyRequest
  nextEpochRequest : UInt64

namespace EpochNode

variable (E : EpochPrimitives)

/-- A node with no log, no key and no group. -/
def new (identityId : PerNetworkIdentityId) : EpochNode :=
  ⟨identityId, .new, .new, none, none, ∅, 0⟩

def governanceState (node : EpochNode) : Option GovernanceState :=
  (node.log.replayCanonical E.crypto).toOption

/-! ## The group -/

/-- Creates the network's group: the founder's path. The resulting epoch is
recorded against the genesis entry. -/
def createEpochGroup (node : EpochNode) (identity : PerNetworkIdentityId)
    (groupId : List UInt8) : Except EpochError Unit × EpochNode :=
  let session := GroupSession.create (identityLabel identity) groupId
  match session.epochKey E.mls with
  | .error err => (.error err, node)
  | .ok key =>
      match node.log.canonicalChain.head? with
      | none =>
          (.error (.mls "no genesis entry to anchor the epoch to"), node)
      | some genesis =>
          (.ok (), { node with
            keyring := node.keyring.record genesis session.epoch key
            group := some session })

/-- The end every rotation has in common: its commit becomes an entry on top
of the canonical chain, and its key is recorded under that entry. -/
def appendRotation (node : EpochNode)
    (identity : PerNetworkIdentity E.crypto E.validKey) (now : Timestamp)
    (reason : RotationReason) (rotation : Rotation) :
    Except EpochError Hash × EpochNode :=
  let entry := LogEntry.create identity node.log.canonicalChain.getLast? now
    (.epochRotation reason rotation.commit)
  match node.log.insert E.crypto entry with
  | .error _ => (.error (.mls "rotation entry rejected"), node)
  | .ok (rotationRef, log) =>
      (.ok rotationRef, { node with
        log
        keyring :=
          node.keyring.record rotationRef rotation.epoch rotation.key })

/-- Rotates the epoch away from a revoked member. -/
def revokeEpochMember (node : EpochNode) (traffic : MlsTraffic)
    (revoked : PerNetworkIdentityId)
    (identity : PerNetworkIdentity E.crypto E.validKey) (now : Timestamp)
    (drawn : Sealed) :
    Except EpochError (Option Hash) × EpochNode × MlsTraffic :=
  match node.governanceState E with
  | none =>
      (.error (.mls "no governance state to check membership"), node, traffic)
  | some state =>
      if state.isMember revoked then
        (.error (.mls (revoked.short ++ " is still a current member: append " ++
          "the membership removal before rotating, or the rotation mints a " ++
          "key the revoked member is still entitled to")), node, traffic)
      else
        match node.group with
        | none => (.error (.mls "this node holds no group"), node, traffic)
        | some group =>
            match group.leafIndexFor revoked with
            | none => (.ok none, node, traffic)
            | some index =>
                let (rotation, session, traffic) :=
                  group.removeMember E.mls traffic index drawn
                let node := { node with group := some session }
                match rotation with
                | .error err => (.error err, node, traffic)
                | .ok rotation =>
                    let (appended, node) := node.appendRotation E identity now
                      .memberRevoked rotation
                    (appended.map some, node, traffic)

/-- Rotates the epoch without a membership change. -/
def rotateEpoch (node : EpochNode) (traffic : MlsTraffic)
    (identity : PerNetworkIdentity E.crypto E.validKey) (now : Timestamp)
    (drawn : Sealed) : Except EpochError Hash × EpochNode × MlsTraffic :=
  match node.group with
  | none => (.error (.mls "this node holds no group"), node, traffic)
  | some group =>
      let (rotation, session, traffic) := group.rotate E.mls traffic drawn
      let node := { node with group := some session }
      match rotation with
      | .error err => (.error err, node, traffic)
      | .ok rotation =>
          let (appended, node) :=
            node.appendRotation E identity now .selfInitiated rotation
          (appended, node, traffic)

/-- One round of the loop of `apply_pending_rotations`. -/
def applyRotation (traffic : MlsTraffic) (pass : EpochNode × List Hash)
    (hash : Hash) : EpochNode × List Hash :=
  let (node, applied) := pass
  match node.group with
  | none => pass
  | some group =>
      if node.keyring.holds hash then pass
      else
        match (node.log.get hash).map LogEntry.body with
        | some (.epochRotation _ commit) =>
            match group.applyCommit E.mls traffic commit with
            | (.ok key, session) =>
                ({ node with
                  group := some session
                  keyring := node.keyring.record hash session.epoch key },
                  applied ++ [hash])
            | (.error _, session) =>
                ({ node with group := some session }, applied)
        | _ => pass

/-- Applies canonical rotation commits this node has not yet applied. -/
def applyPendingRotations (node : EpochNode) (traffic : MlsTraffic) :
    List Hash × EpochNode :=
  match node.group with
  | none => ([], node)
  | some _ =>
      let (node, applied) :=
        node.log.canonicalChain.foldl (applyRotation E traffic) (node, [])
      (applied, node)

/-- Reconciles held epoch keys against the log. -/
def reconcileEpochKeys (node : EpochNode) :
    KeyringReconciliation × EpochNode :=
  let (outcome, keyring) := node.keyring.reconcile node.log
  (outcome, { node with keyring })

/-! ## Being keyed in -/

/-- Generates a key package if none is outstanding, and asks with it. -/
def requestEpochKey (node : EpochNode)
    (identity : PerNetworkIdentity E.crypto E.validKey)
    (keyPackage : List UInt8) : EpochKeyRequest × EpochNode :=
  let pending := node.pendingJoin.getD
    ⟨identityLabel identity.id, keyPackage⟩
  (⟨identity.id, pending.keyPackage, identity.sign
    (Enc.domain "intranet.epoch-key-request.v1" ++ identity.id.encode ++
      Enc.bytes pending.keyPackage)⟩,
    { node with pendingJoin := some pending })

/-- Accepts a Welcome. The pending key package is consumed either way. -/
def acceptWelcome (node : EpochNode) (traffic : MlsTraffic)
    (welcome : List UInt8) (rotationRef : Hash) (history : List SealedEpochKey)
    (sender : PerNetworkIdentityId) : Except EpochError Unit × EpochNode :=
  match node.pendingJoin with
  | none => (.error (.mls "no key package is outstanding"), node)
  | some pending =>
      let node := { node with pendingJoin := none }
      match pending.join traffic welcome with
      | .error err => (.error err, node)
      | .ok session =>
          match session.epochKey E.mls with
          | .error err => (.error err, node)
          | .ok key =>
              let delivered : Except EpochError EpochKeyring :=
                if history.isEmpty then .ok node.keyring
                else
                  match openHistory E.crypto E.aead E.validKey E.dh
                      node.identityId sender history with
                  | .error err => .error err
                  | .ok keys => node.keyring.acceptDelivered keys
              match delivered with
              | .error err => (.error err, node)
              | .ok keyring =>
                  (.ok (), { node with
                    keyring := keyring.record rotationRef session.epoch key
                    group := some session })

/-! ## Keying others in -/

/-- Applies every check this node can make on its own. A peer id is the key of
an identity, so that of the requester is compared as the identity. -/
def screenEpochRequest (node : EpochNode) (request : EpochKeyRequest)
    (peer : PerNetworkIdentityId) : Except KeyDeliveryRefusal Unit :=
  if request.requester ≠ peer then .error .noReadContent
  else
    match node.governanceState E with
    | none => .error .cannotEvaluate
    | some state =>
        if !PointerNode.mayServe request.requester state then
          .error .noReadContent
        else
          match keyPackageIdentity E.mls request.keyPackage with
          | .error _ => .error .identityMismatch
          | .ok label =>
              if label ≠ identityLabel request.requester then
                .error .identityMismatch
              else if node.group.isNone then .error .noGroup
              else .ok ()

/-- What happens to a request on arrival: refused at once, or held under the
next id. -/
def receiveEpochRequest (node : EpochNode) (request : EpochKeyRequest)
    (peer : PerNetworkIdentityId) : Option EpochKeyResponse × EpochNode :=
  match node.screenEpochRequest E request peer with
  | .error reason => (some (.refused reason), node)
  | .ok () =>
      (none, { node with
        inboundEpochRequests :=
          node.inboundEpochRequests.insert ⟨node.nextEpochRequest⟩ request
        nextEpochRequest := node.nextEpochRequest + 1 })

/-- The superseded keys a Welcome carries, sealed to the requester. -/
def historyFor (node : EpochNode) (sender requester : PerNetworkIdentityId)
    (rotationRef : Hash) : Except EpochError (List SealedEpochKey) :=
  match (node.governanceState E).map fun s => s.policy.historyAccess with
  | some HistoryAccess.fullHistory =>
      sealHistory E.crypto E.aead E.validKey E.dh sender requester
        ((node.keyring.keysForNewMember .fullHistory).filter fun k =>
          k.1 ≠ rotationRef)
  | _ => .ok []

/-- Answers a key delivery this node accepted: the rotation that admits the
requester, and the Welcome that is sent. -/
def answerEpochKey (node : EpochNode) (traffic : MlsTraffic)
    (id : EpochRequestId) (identity : PerNetworkIdentity E.crypto E.validKey)
    (now : Timestamp) (drawn : Sealed) :
    Except EpochError (Hash × EpochKeyResponse) × EpochNode × MlsTraffic :=
  match node.inboundEpochRequests[id]? with
  | none => (.error (.mls "no such pending key delivery"), node, traffic)
  | some request =>
      let node := { node with
        inboundEpochRequests := node.inboundEpochRequests.erase id }
      match node.group with
      | none => (.error (.mls "this node holds no group"), node, traffic)
      | some group =>
          let (rotation, session, traffic) :=
            match group.leafIndexFor request.requester with
            | some index => group.replaceMember E.mls traffic index
                request.keyPackage drawn
            | none => group.addMember E.mls traffic request.keyPackage drawn
          let node := { node with group := some session }
          match rotation with
          | .error err => (.error err, node, traffic)
          | .ok rotation =>
              match rotation.welcome with
              | none =>
                  (.error (.mls "an add produced no welcome"), node, traffic)
              | some welcome =>
                  match node.appendRotation E identity now .memberAdmitted
                      rotation with
                  | (.error err, node) => (.error err, node, traffic)
                  | (.ok rotationRef, node) =>
                      match node.historyFor E identity.id request.requester
                          rotationRef with
                      | .error err => (.error err, node, traffic)
                      | .ok history =>
                          (.ok (rotationRef,
                            .welcome welcome rotationRef history), node,
                            traffic)

/-- Refuses a key delivery this node had accepted for consideration. -/
def declineEpochKey (node : EpochNode) (id : EpochRequestId)
    (reason : KeyDeliveryRefusal) : Option EpochKeyResponse × EpochNode :=
  match node.inboundEpochRequests[id]? with
  | none => (none, node)
  | some _ =>
      (some (.refused reason), { node with
        inboundEpochRequests := node.inboundEpochRequests.erase id })

end EpochNode

/-! ## A network of nodes -/

/-- One thing that happens at a node. -/
inductive EpochCall (E : EpochPrimitives) where
  | accept (entry : LogEntry)
  | advance (now : Timestamp)
  | createGroup (identity : PerNetworkIdentityId) (groupId : List UInt8)
  | revoke (revoked : PerNetworkIdentityId)
      (identity : PerNetworkIdentity E.crypto E.validKey) (now : Timestamp)
      (drawn : Sealed)
  | rotate (identity : PerNetworkIdentity E.crypto E.validKey)
      (now : Timestamp) (drawn : Sealed)
  | applyPending
  | reconcileKeys
  | request (identity : PerNetworkIdentity E.crypto E.validKey)
      (keyPackage : List UInt8)
  | welcome (welcome : List UInt8) (rotationRef : Hash)
      (history : List SealedEpochKey) (sender : PerNetworkIdentityId)
  | receive (request : EpochKeyRequest) (peer : PerNetworkIdentityId)
  | answer (id : EpochRequestId)
      (identity : PerNetworkIdentity E.crypto E.validKey) (now : Timestamp)
      (drawn : Sealed)
  | decline (id : EpochRequestId) (reason : KeyDeliveryRefusal)

/-- What came of it. -/
inductive EpochOutcome where
  | quiet
  | created (result : Except EpochError Unit)
  | revoked (result : Except EpochError (Option Hash))
  | rotated (result : Except EpochError Hash)
  | applied (rotations : List Hash)
  | reconciled (outcome : KeyringReconciliation)
  | asked (request : EpochKeyRequest)
  | welcomed (result : Except EpochError Unit)
  | responded (response : Option EpochKeyResponse)
  | answered (result : Except EpochError (Hash × EpochKeyResponse))
deriving DecidableEq

namespace EpochNode

variable (E : EpochPrimitives)

/-- One call at a node, which reads and extends what all members have
produced. -/
def handle (node : EpochNode) (traffic : MlsTraffic) :
    EpochCall E → EpochOutcome × EpochNode × MlsTraffic
  | .accept entry =>
      (.quiet, { node with log := node.log.tryInsert E.crypto entry }, traffic)
  | .advance now =>
      (.quiet, { node with log := (node.log.reconcile E.crypto now).2 },
        traffic)
  | .createGroup identity groupId =>
      let (result, node) := node.createEpochGroup E identity groupId
      (.created result, node, traffic)
  | .revoke revoked identity now drawn =>
      let (result, node, traffic) :=
        node.revokeEpochMember E traffic revoked identity now drawn
      (.revoked result, node, traffic)
  | .rotate identity now drawn =>
      let (result, node, traffic) :=
        node.rotateEpoch E traffic identity now drawn
      (.rotated result, node, traffic)
  | .applyPending =>
      let (applied, node) := node.applyPendingRotations E traffic
      (.applied applied, node, traffic)
  | .reconcileKeys =>
      let (outcome, node) := node.reconcileEpochKeys
      (.reconciled outcome, node, traffic)
  | .request identity keyPackage =>
      let (request, node) := node.requestEpochKey E identity keyPackage
      (.asked request, node, traffic)
  | .welcome welcome rotationRef history sender =>
      let (result, node) :=
        node.acceptWelcome E traffic welcome rotationRef history sender
      (.welcomed result, node, traffic)
  | .receive request peer =>
      let (response, node) := node.receiveEpochRequest E request peer
      (.responded response, node, traffic)
  | .answer id identity now drawn =>
      let (result, node, traffic) :=
        node.answerEpochKey E traffic id identity now drawn
      (.answered result, node, traffic)
  | .decline id reason =>
      let (response, node) := node.declineEpochKey id reason
      (.responded response, node, traffic)

end EpochNode

/-- Any number of nodes, and what they have produced. -/
structure EpochNetwork (ι : Type) where
  nodes : ι → EpochNode
  traffic : MlsTraffic

/-- New nodes, before anything has happened. -/
def EpochNetwork.start {ι : Type} (ids : ι → PerNetworkIdentityId) :
    EpochNetwork ι :=
  ⟨fun i => .new (ids i), ⟨[], []⟩⟩

/-- Something happens at one node of a network. -/
def EpochNetwork.step (E : EpochPrimitives) {ι : Type} [DecidableEq ι]
    (net : EpochNetwork ι) (call : ι × EpochCall E) :
    EpochOutcome × EpochNetwork ι :=
  let (outcome, node, traffic) :=
    (net.nodes call.1).handle E net.traffic call.2
  (outcome, ⟨Function.update net.nodes call.1 node, traffic⟩)

end Intranet
