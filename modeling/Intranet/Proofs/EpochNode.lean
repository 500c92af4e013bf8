import Intranet.Lib.Machine
import Intranet.Proofs.Join
import Intranet.Proofs.Keyring
import Intranet.Proofs.Object
import Intranet.Ref.EpochNode

/-!
# What one call does to a node

The lemmas the results about keying rest on: which operation touches the held
requests, the log, the group and the keyring, and in what way. A keyring is
only ever extended by keys that are recorded (`handle_keyring`), except by a
reconciliation.
-/

namespace Intranet

/-- A commit that went through was permitted, and comes with the Welcome the
library drew for it, if anybody is invited. -/
theorem GroupSession.commitChange_ok {M : OpenMls} {session : GroupSession}
    {traffic : MlsTraffic} {what : String} {change : MlsChange}
    {leaves : List (Option Label)} {invited : Option (List UInt8)}
    {drawn : Sealed} {rotation : Rotation}
    (h : (session.commitChange M traffic what change leaves invited drawn).1 =
      .ok rotation) :
    M.permits session.group change = .ok () ∧
      rotation.welcome = invited.map fun _ => drawn.welcome := by
  unfold commitChange at h
  split at h
  · cases h
  · next hpermits =>
    dsimp only at h
    cases hkey : epochKey M
        ⟨session.label, session.group.merge drawn.commit leaves⟩ with
    | error err =>
        rw [hkey] at h
        cases h
    | ok key =>
        rw [hkey] at h
        cases h
        exact ⟨hpermits, rfl⟩

variable {E : EpochPrimitives}

namespace EpochNode

variable {node : EpochNode} {traffic : MlsTraffic}

section Append

variable {identity : PerNetworkIdentity E.crypto E.validKey} {now : Timestamp}
  {reason : RotationReason} {rotation : Rotation}

@[simp] theorem appendRotation_held :
    (node.appendRotation E identity now reason rotation).2.inboundEpochRequests =
      node.inboundEpochRequests := by
  unfold appendRotation
  dsimp only
  split <;> rfl

@[simp] theorem appendRotation_group :
    (node.appendRotation E identity now reason rotation).2.group =
      node.group := by
  unfold appendRotation
  dsimp only
  split <;> rfl

theorem appendRotation_leaves {result : Except EpochError Hash}
    {node' : EpochNode}
    (h : node.appendRotation E identity now reason rotation = (result, node')) :
    node'.inboundEpochRequests = node.inboundEpochRequests ∧
      node'.group = node.group := by
  have hheld : (node.appendRotation E identity now reason
      rotation).2.inboundEpochRequests = node.inboundEpochRequests :=
    appendRotation_held
  have hgroup : (node.appendRotation E identity now reason
      rotation).2.group = node.group := appendRotation_group
  rw [h] at hheld hgroup
  exact ⟨hheld, hgroup⟩

/-- An appended rotation is recorded under its entry. -/
theorem appendRotation_ok {rotationRef : Hash}
    (h : (node.appendRotation E identity now reason rotation).1 =
      .ok rotationRef) :
    (node.appendRotation E identity now reason rotation).2.keyring =
      node.keyring.record rotationRef rotation.epoch rotation.key := by
  unfold appendRotation at h ⊢
  dsimp only at h ⊢
  split
  · next herr =>
    rw [herr] at h
    cases h
  · next hok =>
    rw [hok] at h
    cases h
    rfl

end Append

/-! ## Held requests -/

theorem applyRotation_held (pass : EpochNode × List Hash) (hash : Hash) :
    (applyRotation E traffic pass hash).1.inboundEpochRequests =
      pass.1.inboundEpochRequests := by
  unfold applyRotation
  dsimp only
  split
  · rfl
  · split
    · rfl
    · split
      · split <;> rfl
      · rfl

theorem applyPendingRotations_held :
    (node.applyPendingRotations E traffic).2.inboundEpochRequests =
      node.inboundEpochRequests := by
  unfold applyPendingRotations
  split
  · rfl
  · refine List.foldlRecOn (motive := fun (pass : EpochNode × List Hash) =>
      pass.1.inboundEpochRequests = node.inboundEpochRequests) _ _ rfl ?_
    intro pass hpass hash _
    rw [applyRotation_held, hpass]

theorem createEpochGroup_held (identity : PerNetworkIdentityId)
    (groupId : List UInt8) :
    (node.createEpochGroup E identity groupId).2.inboundEpochRequests =
      node.inboundEpochRequests := by
  unfold createEpochGroup
  dsimp only
  split
  · rfl
  · split <;> rfl

theorem revokeEpochMember_held (revoked : PerNetworkIdentityId)
    (identity : PerNetworkIdentity E.crypto E.validKey) (now : Timestamp)
    (drawn : Sealed) :
    (node.revokeEpochMember E traffic revoked identity now
        drawn).2.1.inboundEpochRequests = node.inboundEpochRequests := by
  unfold revokeEpochMember
  split
  · rfl
  · split
    · rfl
    · split
      · rfl
      · split
        · rfl
        · dsimp only
          split
          · rfl
          · exact appendRotation_held

theorem rotateEpoch_held
    (identity : PerNetworkIdentity E.crypto E.validKey) (now : Timestamp)
    (drawn : Sealed) :
    (node.rotateEpoch E traffic identity now drawn).2.1.inboundEpochRequests =
      node.inboundEpochRequests := by
  unfold rotateEpoch
  split
  · rfl
  · dsimp only
    split
    · rfl
    · exact appendRotation_held

theorem acceptWelcome_held (welcome : List UInt8) (rotationRef : Hash)
    (history : List SealedEpochKey) (sender : PerNetworkIdentityId) :
    (node.acceptWelcome E traffic welcome rotationRef history
        sender).2.inboundEpochRequests = node.inboundEpochRequests := by
  unfold acceptWelcome
  split
  · rfl
  · dsimp only
    split
    · rfl
    · split
      · rfl
      · split <;> rfl

/-! ## Answering -/

/-- The change of the group an answer makes: the requester's leaf is replaced,
or added where there is none. -/
def admission (M : OpenMls) (group : GroupSession) (traffic : MlsTraffic)
    (request : EpochKeyRequest) (drawn : Sealed) : GroupSession.Advanced :=
  match group.leafIndexFor request.requester with
  | some index =>
      group.replaceMember M traffic index request.keyPackage drawn
  | none => group.addMember M traffic request.keyPackage drawn

section Answer

variable {id : EpochRequestId} {request : EpochKeyRequest}
  {identity : PerNetworkIdentity E.crypto E.validKey} {now : Timestamp}
  {drawn : Sealed} {group : GroupSession}

theorem answer_none (h : node.inboundEpochRequests[id]? = none) :
    node.answerEpochKey E traffic id identity now drawn =
      (.error (.mls "no such pending key delivery"), node, traffic) := by
  rw [answerEpochKey, h]

theorem answer_no_group (h : node.inboundEpochRequests[id]? = some request)
    (hgroup : node.group = none) :
    node.answerEpochKey E traffic id identity now drawn =
      (.error (.mls "this node holds no group"),
        { node with
          inboundEpochRequests := node.inboundEpochRequests.erase id },
        traffic) := by
  rw [answerEpochKey, h]
  dsimp only
  rw [hgroup]

/-- Whatever comes of it, an answer takes the request out and leaves the group
and the traffic of the admission behind. -/
theorem answer_leaves (h : node.inboundEpochRequests[id]? = some request)
    (hgroup : node.group = some group) :
    let result := node.answerEpochKey E traffic id identity now drawn
    result.2.1.inboundEpochRequests = node.inboundEpochRequests.erase id ∧
    result.2.1.group =
      some (admission E.mls group traffic request drawn).2.1 ∧
    result.2.2 = (admission E.mls group traffic request drawn).2.2 := by
  dsimp only
  rw [answerEpochKey, h]
  dsimp only
  rw [hgroup]
  dsimp only
  unfold admission
  split
  · exact ⟨rfl, rfl, rfl⟩
  · split
    · exact ⟨rfl, rfl, rfl⟩
    · split
      · next happ =>
        obtain ⟨hheld, hgroup⟩ := appendRotation_leaves happ
        exact ⟨hheld, hgroup, rfl⟩
      · next happ =>
        obtain ⟨hheld, hgroup⟩ := appendRotation_leaves happ
        split
        · exact ⟨hheld, hgroup, rfl⟩
        · exact ⟨hheld, hgroup, rfl⟩

/-- An answer that goes out. -/
theorem answer_ok {rotationRef : Hash} {response : EpochKeyResponse}
    {node' : EpochNode} {traffic' : MlsTraffic}
    (h : node.answerEpochKey E traffic id identity now drawn =
      (.ok (rotationRef, response), node', traffic')) :
    ∃ request group rotation welcome history,
      node.inboundEpochRequests[id]? = some request ∧
      node.group = some group ∧
      (admission E.mls group traffic request drawn).1 = .ok rotation ∧
      rotation.welcome = some welcome ∧
      appendRotation E { node with
          inboundEpochRequests := node.inboundEpochRequests.erase id
          group := some (admission E.mls group traffic request drawn).2.1 }
        identity now .memberAdmitted rotation = (.ok rotationRef, node') ∧
      node'.historyFor E identity.id request.requester rotationRef =
        .ok history ∧
      response = .welcome welcome rotationRef history := by
  cases hreq : node.inboundEpochRequests[id]? with
  | none =>
      rw [answer_none hreq] at h
      cases h
  | some request =>
      cases hgroup : node.group with
      | none =>
          rw [answer_no_group hreq hgroup] at h
          cases h
      | some group =>
          rw [answerEpochKey, hreq] at h
          dsimp only at h
          rw [hgroup] at h
          dsimp only at h
          split at h
          · cases h
          · next rotation hrotation =>
            split at h
            · cases h
            · next welcome hwelcome =>
              split at h
              · cases h
              · next happ =>
                split at h
                · cases h
                · next history hhistory =>
                  cases h
                  exact ⟨request, group, rotation, welcome, history, rfl, rfl,
                    hrotation, hwelcome, happ, hhistory, rfl⟩

end Answer

/-! ## One call -/

theorem held_of_answerEpochKey {id id' : EpochRequestId}
    {identity : PerNetworkIdentity E.crypto E.validKey} {now : Timestamp}
    {drawn : Sealed} {request : EpochKeyRequest}
    (h : (node.answerEpochKey E traffic id' identity now
      drawn).2.1.inboundEpochRequests[id]? = some request) :
    node.inboundEpochRequests[id]? = some request := by
  cases hreq : node.inboundEpochRequests[id']? with
  | none => rwa [answer_none hreq] at h
  | some given =>
      have herase : (node.answerEpochKey E traffic id' identity now
          drawn).2.1.inboundEpochRequests =
            node.inboundEpochRequests.erase id' := by
        cases hgroup : node.group with
        | none => rw [answer_no_group hreq hgroup]
        | some group => exact (answer_leaves hreq hgroup).1
      rw [herase, BTreeMap.getElem?_erase_ite] at h
      split at h
      · cases h
      · exact h

theorem held_of_declineEpochKey {id id' : EpochRequestId}
    {reason : KeyDeliveryRefusal} {request : EpochKeyRequest}
    (h : (node.declineEpochKey id' reason).2.inboundEpochRequests[id]? =
      some request) :
    node.inboundEpochRequests[id]? = some request := by
  unfold declineEpochKey at h
  split at h
  · exact h
  · rw [BTreeMap.getElem?_erase_ite] at h
    split at h
    · cases h
    · exact h

/-- The requests held after a call were held before, or have just passed the
screen. -/
theorem handle_held {call : EpochCall E} {id : EpochRequestId}
    {request : EpochKeyRequest}
    (h : (node.handle E traffic call).2.1.inboundEpochRequests[id]? =
      some request) :
    node.inboundEpochRequests[id]? = some request ∨
      ∃ peer, call = .receive request peer ∧
        node.screenEpochRequest E request peer = .ok () := by
  cases call with
  | accept | advance | reconcileKeys | request => exact Or.inl h
  | createGroup identity groupId =>
      change (node.createEpochGroup E identity
        groupId).2.inboundEpochRequests[id]? = some request at h
      rw [createEpochGroup_held] at h
      exact Or.inl h
  | revoke revoked identity now drawn =>
      change (node.revokeEpochMember E traffic revoked identity now
        drawn).2.1.inboundEpochRequests[id]? = some request at h
      rw [revokeEpochMember_held] at h
      exact Or.inl h
  | rotate identity now drawn =>
      change (node.rotateEpoch E traffic identity now
        drawn).2.1.inboundEpochRequests[id]? = some request at h
      rw [rotateEpoch_held] at h
      exact Or.inl h
  | applyPending =>
      change (node.applyPendingRotations E traffic).2.inboundEpochRequests[id]? =
        some request at h
      rw [applyPendingRotations_held] at h
      exact Or.inl h
  | welcome bytes rotationRef history sender =>
      change (node.acceptWelcome E traffic bytes rotationRef history
        sender).2.inboundEpochRequests[id]? = some request at h
      rw [acceptWelcome_held] at h
      exact Or.inl h
  | receive given peer =>
      change (node.receiveEpochRequest E given peer).2.inboundEpochRequests[id]? =
        some request at h
      unfold receiveEpochRequest at h
      split at h
      · exact Or.inl h
      · next hscreen =>
        rw [BTreeMap.getElem?_insert_ite] at h
        split at h
        · cases h
          exact Or.inr ⟨peer, rfl, hscreen⟩
        · exact Or.inl h
  | answer id' identity now drawn =>
      exact Or.inl (held_of_answerEpochKey h)
  | decline id' reason => exact Or.inl (held_of_declineEpochKey h)

end EpochNode

/-! ## Runs of a network -/

namespace EpochNetwork

variable {ι : Type} [DecidableEq ι] {net : EpochNetwork ι} {i : ι}

/-- The network after the calls. -/
def run (E : EpochPrimitives) (ids : ι → PerNetworkIdentityId)
    (calls : List (ι × EpochCall E)) : EpochNetwork ι :=
  Machine.state (step E) (start ids) calls

theorem step_self (call : EpochCall E) :
    (net.step E (i, call)).2.nodes i =
      ((net.nodes i).handle E net.traffic call).2.1 :=
  Function.update_self ..

theorem step_other {call : ι × EpochCall E} (h : call.1 ≠ i) :
    (net.step E call).2.nodes i = net.nodes i :=
  Function.update_of_ne h.symm ..

end EpochNetwork

/-! ## A founder's network, for runs on fixed inputs -/

namespace Sample

/-- A library that lets everything through, where a key package is the label
it carries. -/
def primitives : EpochPrimitives where
  crypto := .sample
  validKey _ := true
  aead := aead
  dh _ _ := Bytes.replicate 32 0
  mls :=
    { packageLabel := .ok
      exportSecret := fun group => .ok ⟨Bytes.ofNat 32 group.commits.length⟩
      permits := fun _ _ => .ok () }

/-- Identity `n` asks to be keyed in. -/
def asks (n : ℕ) : EpochCall primitives :=
  .receive ⟨identity n, identityLabel (identity n), signature n 0⟩ (identity n)

/-- The founder answers, in the entry with hash `nonce`. -/
def answers (id : UInt64) (nonce : ℕ) : EpochCall primitives :=
  .answer ⟨id⟩ (JoinNode.signer 1 nonce) ⟨20⟩ ⟨[1], [2]⟩

/-- The founder rotates away from identity `n`. -/
def revokes (n nonce : ℕ) : EpochCall primitives :=
  .revoke (identity n) (JoinNode.signer 1 nonce) ⟨20⟩ ⟨[3], []⟩

/-- The founder keys identity 2 in, and removes it while a second request of
it is held. -/
def revokedRun : List (Unit × EpochCall primitives) :=
  [.accept (genesis 1 .conservativeDefault [.readContent]),
    .createGroup (identity 1) [], .accept (entry 2 (some 1) 10 1 (admits 2)),
    asks 2, asks 2, answers 0 3,
    .accept (entry 4 (some 3) 20 1
      (.membershipChange GroupId.everyone (identity 2) (.remove none))),
    revokes 2 5].map ((), ·)

def founder : Unit → PerNetworkIdentityId := fun _ => identity 1

end Sample

end Intranet
