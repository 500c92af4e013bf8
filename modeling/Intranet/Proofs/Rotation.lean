import Intranet.Proofs.EpochNode

/-!
# What a failed rotation leaves

Three calls of a node make a commit: a rotation, a revocation and an answer to
a request. Each moves the group first, and appends the commit to the log
behind it. With operations of MLS that are all or nothing (`OpenMls.Atomic`),
a call that gets no commit out of MLS leaves everything as it was
(`RotationCall.same_of_not_commits`). One that does has moved the group by an
epoch, and what is left to fail is the append: it needs an entry to sit on,
the tip of the canonical chain (`RotationCall.landed`).

So a failure of a call leaves everything as it was exactly if a call that gets
as far as a commit finds such a tip (`failed_rotation_leaves_iff`). A log that
was built by insertions has one as soon as it holds anything
(`Wf.holdsTip_iff`).
-/

namespace Intranet

/-! ## Commits -/

/-- A commit that fails leaves the session as it was. -/
def OpenMls.Atomic (M : OpenMls) : Prop :=
  ∀ (session : GroupSession) (traffic : MlsTraffic) (what : String)
    (change : MlsChange) (leaves : List (Option Label))
    (invited : Option (List UInt8)) (drawn : Sealed) (err : EpochError),
    (session.commitChange M traffic what change leaves invited drawn).1 =
        .error err →
      (session.commitChange M traffic what change leaves invited
        drawn).2.1 = session

namespace GroupSession

variable {M : OpenMls} {session : GroupSession} {traffic : MlsTraffic}
  {what : String} {change : MlsChange} {leaves : List (Option Label)}
  {invited : Option (List UInt8)} {drawn : Sealed}

/-- An operation went through: the session is an epoch further. -/
def Moved (session : GroupSession) (welcome : Option (List UInt8))
    (advanced : Advanced) : Prop :=
  advanced.2.1.epoch = session.epoch + 1 ∧
    ∃ rotation, advanced.1 = .ok rotation ∧ rotation.welcome = welcome

/-- An operation failed: the session is where it was. -/
def Stayed (session : GroupSession) (advanced : Advanced) : Prop :=
  advanced.2.1 = session ∧ ∃ err, advanced.1 = .error err

theorem commitChange_stayed (h : M.permits session.group change ≠ .ok ()) :
    session.Stayed (session.commitChange M traffic what change leaves invited
      drawn) := by
  rw [commitChange]
  split
  · exact ⟨rfl, _, rfl⟩
  · next hpermits => exact absurd hpermits h

theorem commitChange_epoch (h : M.permits session.group change = .ok ()) :
    (session.commitChange M traffic what change leaves invited
      drawn).2.1.epoch = session.epoch + 1 := by
  rw [commitChange, h]
  exact UInt64.ofNat_add _ 1

theorem commitChange_moved (hatomic : M.Atomic)
    (h : M.permits session.group change = .ok ()) :
    session.Moved (invited.map fun _ => drawn.welcome)
      (session.commitChange M traffic what change leaves invited drawn) := by
  cases hresult : (session.commitChange M traffic what change leaves invited
      drawn).1 with
  | error err =>
      have hepoch : (session.commitChange M traffic what change leaves invited
          drawn).2.1.epoch = session.epoch + 1 := commitChange_epoch h
      rw [hatomic session traffic what change leaves invited drawn err hresult]
        at hepoch
      simp at hepoch
  | ok rotation =>
      exact ⟨commitChange_epoch h, rotation, hresult,
        (commitChange_ok hresult).2⟩

end GroupSession

/-! ## Appending -/

namespace GovernanceLog

/-- The canonical chain ends in an entry the log holds. -/
def HoldsTip (log : GovernanceLog) : Prop :=
  ∃ tip, log.canonicalChain.getLast? = some tip ∧ tip ∈ log.entries

/-- A log that was built by insertions has such a tip once it has a root. -/
theorem Wf.holdsTip_iff {C : Crypto} {log : GovernanceLog} (hwf : Wf C log) :
    log.HoldsTip ↔ log.root.isSome := by
  constructor
  · rintro ⟨tip, htip, -⟩
    cases hroot : log.root with
    | none =>
        rw [canonicalChain, hroot] at htip
        cases htip
    | some root => rfl
  · intro hroot
    obtain ⟨root, hroot⟩ := Option.isSome_iff_exists.1 hroot
    obtain ⟨tip, hleaf, hchain, -⟩ :=
      hwf.canonicalChain_tip (hwf.root_mem hroot)
    refine ⟨tip, ?_, hleaf.1⟩
    rw [hchain, hwf.ancestry_getLast?]

end GovernanceLog

open GovernanceLog

variable {E : EpochPrimitives}

namespace EpochNode

variable {node : EpochNode} {traffic : MlsTraffic}

section Append

variable (identity : PerNetworkIdentity E.crypto E.validKey) (now : Timestamp)
  (reason : RotationReason) (rotation : Rotation)

/-- The entry a rotation becomes. -/
def rotationEntry (E : EpochPrimitives) (node : EpochNode)
    (identity : PerNetworkIdentity E.crypto E.validKey) (now : Timestamp)
    (reason : RotationReason) (rotation : Rotation) : LogEntry :=
  LogEntry.create identity node.log.canonicalChain.getLast? now
    (.epochRotation reason rotation.commit)

/-- A rotation is no genesis, so the log takes it on an entry it holds. -/
theorem accepts_rotationEntry :
    node.log.Accepts E.crypto
      (node.rotationEntry E identity now reason rotation) ↔
      node.log.HoldsTip := by
  have hsigned : (node.rotationEntry E identity now reason
      rotation).verifySignature E.crypto = .ok () :=
    if_pos (identity.verifies _)
  have hparent : (node.rotationEntry E identity now reason rotation).parent =
      node.log.canonicalChain.getLast? := rfl
  rw [Accepts, and_iff_right hsigned, hparent, HoldsTip]
  cases node.log.canonicalChain.getLast? with
  | none => exact iff_of_false (fun h => Bool.noConfusion h.1) (by simp)
  | some tip => simp

/-- Appending succeeds where there is a tip. -/
theorem appendRotation_ok_iff :
    (∃ rotationRef, (node.appendRotation E identity now reason rotation).1 =
      .ok rotationRef) ↔ node.log.HoldsTip := by
  rw [← accepts_rotationEntry identity now reason rotation, appendRotation]
  constructor
  · rintro ⟨rotationRef, h⟩
    split at h
    · cases h
    · next hinsert => exact (insert_ok_iff.1 hinsert).1
  · intro haccepts
    have hinsert := insert_ok_iff.2 ⟨haccepts, rfl, rfl⟩
    unfold rotationEntry at hinsert
    rw [hinsert]
    exact ⟨_, rfl⟩

end Append

/-- What a caller could see of a rotation: the group's epoch and members, the
keyring and the log. -/
structure Same (before after : EpochNode) : Prop where
  epoch : after.group.map GroupSession.epoch =
    before.group.map GroupSession.epoch
  members : (after.group.map fun session => session.group.labels) =
    before.group.map fun session => session.group.labels
  keyring : after.keyring = before.keyring
  log : after.log = before.log

/-- What a call that makes a commit comes to. -/
abbrev Outcome := Except EpochError Unit × EpochNode × MlsTraffic

/-- A commit went through: the group is an epoch further, and the call
succeeds if the log has a tip to append to. -/
structure Landed (node : EpochNode) (outcome : Outcome) : Prop where
  moved : ∃ before after, node.group = some before ∧
    outcome.2.1.group = some after ∧ after.epoch = before.epoch + 1
  result : outcome.1 = .ok () ↔ node.log.HoldsTip

theorem Landed.same_iff {outcome : Outcome} (h : node.Landed outcome) :
    (∀ err, outcome.1 = .error err → node.Same outcome.2.1) ↔
      node.log.HoldsTip := by
  rw [← h.result]
  cases hresult : outcome.1 with
  | ok _ => exact iff_of_true nofun rfl
  | error err =>
      refine iff_of_false (fun hsame => ?_) nofun
      obtain ⟨before, after, hbefore, hafter, hepoch⟩ := h.moved
      have hkept := (hsame err rfl).epoch
      rw [hbefore, hafter, Option.map_some, Option.map_some, hepoch] at hkept
      simp at hkept

/-- With its group moved by a commit, a node appends the rotation. -/
theorem landed_of_append {before : GroupSession}
    {welcome : Option (List UInt8)} {advanced : GroupSession.Advanced}
    {identity : PerNetworkIdentity E.crypto E.validKey} {now : Timestamp}
    {reason : RotationReason} {rotation : Rotation}
    {result : Except EpochError Hash} {node' : EpochNode}
    (hgroup : node.group = some before) (hmoved : before.Moved welcome advanced)
    (h : appendRotation E { node with group := some advanced.2.1 } identity now
      reason rotation = (result, node')) (traffic : MlsTraffic) :
    node.Landed (result.map fun _ => (), node', traffic) where
  moved := ⟨before, advanced.2.1, hgroup, (appendRotation_leaves h).2, hmoved.1⟩
  result := by
    have hok : (∃ rotationRef, (appendRotation E { node with
        group := some advanced.2.1 } identity now reason rotation).1 =
          .ok rotationRef) ↔ node.log.HoldsTip :=
      appendRotation_ok_iff identity now reason rotation
    rw [h] at hok
    rw [← hok]
    cases result <;> simp [Except.map]

end EpochNode

/-! ## The calls -/

/-- A call that makes a commit. -/
inductive RotationCall (E : EpochPrimitives) where
  | rotate (identity : PerNetworkIdentity E.crypto E.validKey)
      (now : Timestamp) (drawn : Sealed)
  | revoke (revoked : PerNetworkIdentityId)
      (identity : PerNetworkIdentity E.crypto E.validKey) (now : Timestamp)
      (drawn : Sealed)
  | answer (id : EpochRequestId)
      (identity : PerNetworkIdentity E.crypto E.validKey) (now : Timestamp)
      (drawn : Sealed)

namespace RotationCall

open EpochNode

/-- The call at a node. What it answers besides its success is left out. -/
def run (node : EpochNode) (traffic : MlsTraffic) : RotationCall E → Outcome
  | rotate identity now drawn =>
      let (result, node, traffic) :=
        node.rotateEpoch E traffic identity now drawn
      (result.map fun _ => (), node, traffic)
  | revoke revoked identity now drawn =>
      let (result, node, traffic) :=
        node.revokeEpochMember E traffic revoked identity now drawn
      (result.map fun _ => (), node, traffic)
  | answer id identity now drawn =>
      let (result, node, traffic) :=
        node.answerEpochKey E traffic id identity now drawn
      (result.map fun _ => (), node, traffic)

/-- The change of the group an admission asks MLS for. -/
def admissionChange (group : GroupSession) (request : EpochKeyRequest) :
    MlsChange :=
  match group.leafIndexFor request.requester with
  | some index => .replace index request.keyPackage
  | none => .add request.keyPackage

/-- The call gets as far as a commit, and MLS permits it. -/
def Commits (node : EpochNode) : RotationCall E → Prop
  | rotate _ _ _ => ∃ group, node.group = some group ∧
      E.mls.permits group.group .selfUpdate = .ok ()
  | revoke revoked _ _ _ =>
      (∃ state, node.governanceState E = some state ∧
        state.isMember revoked = false) ∧
      ∃ group index, node.group = some group ∧
        group.leafIndexFor revoked = some index ∧
        E.mls.permits group.group (.remove index) = .ok ()
  | answer id _ _ _ => ∃ request group label,
      node.inboundEpochRequests[id]? = some request ∧
      node.group = some group ∧
      E.mls.packageLabel request.keyPackage = .ok label ∧
      E.mls.permits group.group (admissionChange group request) = .ok ()

section Calls

variable {node : EpochNode} {traffic : MlsTraffic} {group : GroupSession}
  {identity : PerNetworkIdentity E.crypto E.validKey} {now : Timestamp}
  {drawn : Sealed}

theorem same_of_stayed {advanced : GroupSession.Advanced}
    (hgroup : node.group = some group) (h : group.Stayed advanced)
    (held : BTreeMap EpochRequestId EpochKeyRequest) :
    node.Same { node with
      inboundEpochRequests := held
      group := some advanced.2.1 } where
  epoch := by rw [h.1, hgroup]
  members := by rw [h.1, hgroup]
  keyring := rfl
  log := rfl

/-! ### A rotation -/

theorem rotate_landed (hatomic : E.mls.Atomic)
    (h : (rotate identity now drawn).Commits node) :
    node.Landed ((rotate identity now drawn).run node traffic) := by
  obtain ⟨group, hgroup, hpermits⟩ := h
  have hmoved : group.Moved none (group.rotate E.mls traffic drawn) :=
    GroupSession.commitChange_moved hatomic hpermits
  obtain ⟨rotation, hrotation, -⟩ := hmoved.2
  rw [run, rotateEpoch, hgroup]
  dsimp only
  rw [hrotation]
  exact landed_of_append hgroup hmoved rfl _

theorem rotate_same (h : ¬ (rotate identity now drawn).Commits node) :
    node.Same ((rotate identity now drawn).run node traffic).2.1 := by
  rw [run, rotateEpoch]
  cases hgroup : node.group with
  | none => exact ⟨rfl, rfl, rfl, rfl⟩
  | some group =>
      have hstayed : group.Stayed (group.rotate E.mls traffic drawn) :=
        GroupSession.commitChange_stayed fun hpermits =>
          h ⟨group, hgroup, hpermits⟩
      obtain ⟨err, herr⟩ := hstayed.2
      dsimp only
      rw [herr]
      exact same_of_stayed hgroup hstayed _

/-! ### A revocation -/

theorem revoke_landed {revoked : PerNetworkIdentityId}
    (hatomic : E.mls.Atomic)
    (h : (revoke revoked identity now drawn).Commits node) :
    node.Landed ((revoke revoked identity now drawn).run node traffic) := by
  obtain ⟨⟨state, hstate, hgone⟩, group, index, hgroup, hindex, hpermits⟩ := h
  have hmoved : group.Moved none
      (group.removeMember E.mls traffic index drawn) :=
    GroupSession.commitChange_moved hatomic hpermits
  obtain ⟨rotation, hrotation, -⟩ := hmoved.2
  rw [run, revokeEpochMember, hstate]
  dsimp only
  rw [if_neg (by rw [hgone]; exact Bool.false_ne_true), hgroup]
  dsimp only
  rw [hindex]
  dsimp only
  rw [hrotation]
  dsimp only
  cases happ : appendRotation E { node with
      group := some (group.removeMember E.mls traffic index drawn).2.1 }
    identity now .memberRevoked rotation with
  | mk result node' =>
      have hlanded := landed_of_append hgroup hmoved happ
        (group.removeMember E.mls traffic index drawn).2.2
      refine ⟨hlanded.moved, ?_⟩
      rw [← hlanded.result]
      cases result <;> rfl

theorem revoke_same {revoked : PerNetworkIdentityId}
    (h : ¬ (revoke revoked identity now drawn).Commits node) :
    node.Same ((revoke revoked identity now drawn).run node traffic).2.1 := by
  rw [run, revokeEpochMember]
  cases hstate : node.governanceState E with
  | none => exact ⟨rfl, rfl, rfl, rfl⟩
  | some state =>
      dsimp only
      split
      · exact ⟨rfl, rfl, rfl, rfl⟩
      · next hgone =>
        cases hgroup : node.group with
        | none => exact ⟨rfl, rfl, rfl, rfl⟩
        | some group =>
            dsimp only
            cases hindex : group.leafIndexFor revoked with
            | none => exact ⟨rfl, rfl, rfl, rfl⟩
            | some index =>
                have hstayed : group.Stayed
                    (group.removeMember E.mls traffic index drawn) :=
                  GroupSession.commitChange_stayed fun hpermits =>
                    h ⟨⟨state, hstate, Bool.eq_false_iff.2 hgone⟩, group,
                      index, hgroup, hindex, hpermits⟩
                obtain ⟨err, herr⟩ := hstayed.2
                dsimp only
                rw [herr]
                exact same_of_stayed hgroup hstayed _

/-! ### An answer -/

theorem admission_moved {request : EpochKeyRequest} {label : Label}
    (hatomic : E.mls.Atomic)
    (hlabel : E.mls.packageLabel request.keyPackage = .ok label)
    (h : E.mls.permits group.group (admissionChange group request) = .ok ()) :
    group.Moved (some drawn.welcome)
      (admission E.mls group traffic request drawn) := by
  unfold admissionChange at h
  unfold admission
  split
  · next index hindex =>
    rw [hindex] at h
    rw [GroupSession.replaceMember, hlabel]
    exact GroupSession.commitChange_moved hatomic h
  · next hindex =>
    rw [hindex] at h
    rw [GroupSession.addMember, hlabel]
    exact GroupSession.commitChange_moved hatomic h

theorem admission_stayed {request : EpochKeyRequest}
    (h : ∀ label, E.mls.packageLabel request.keyPackage = .ok label →
      E.mls.permits group.group (admissionChange group request) ≠ .ok ()) :
    group.Stayed (admission E.mls group traffic request drawn) := by
  unfold admissionChange at h
  unfold admission
  split
  · next index hindex =>
    rw [hindex] at h
    rw [GroupSession.replaceMember]
    split
    · exact ⟨rfl, _, rfl⟩
    · next label hlabel =>
      exact GroupSession.commitChange_stayed (h label hlabel)
  · next hindex =>
    rw [hindex] at h
    rw [GroupSession.addMember]
    split
    · exact ⟨rfl, _, rfl⟩
    · next label hlabel =>
      exact GroupSession.commitChange_stayed (h label hlabel)

/-- Sealing to a key does not fail. -/
theorem historyFor_ok (node : EpochNode) (sender : PerNetworkIdentityId)
    {requester : PerNetworkIdentityId} (rotationRef : Hash)
    (h : E.validKey requester.key.bytes = true) :
    ∃ history,
      node.historyFor E sender requester rotationRef = .ok history := by
  rw [historyFor]
  split
  · rw [sealHistory, agree, if_pos h]
    exact ⟨_, rfl⟩
  · exact ⟨_, rfl⟩

theorem answer_landed {id : EpochRequestId}
    (hkeys : ∀ (id : EpochRequestId) request,
      node.inboundEpochRequests[id]? = some request →
        E.validKey request.requester.key.bytes = true)
    (hatomic : E.mls.Atomic) (h : (answer id identity now drawn).Commits node) :
    node.Landed ((answer id identity now drawn).run node traffic) := by
  obtain ⟨request, group, label, hrequest, hgroup, hlabel, hpermits⟩ := h
  have hmoved : group.Moved (some drawn.welcome)
      (admission E.mls group traffic request drawn) :=
    admission_moved hatomic hlabel hpermits
  obtain ⟨rotation, hrotation, hwelcome⟩ := hmoved.2
  have hheld : EpochNode.group { node with
      inboundEpochRequests := node.inboundEpochRequests.erase id } =
        some group := hgroup
  rw [run, answerEpochKey, hrequest]
  dsimp only
  rw [hgroup]
  dsimp only
  split
  · next err herr => cases hrotation.symm.trans herr
  · next rotation' hrotation' =>
    cases hrotation.symm.trans hrotation'
    split
    · next hnone =>
      rw [hwelcome] at hnone
      cases hnone
    · split
      · next err node' happ =>
        have hlanded := landed_of_append hheld hmoved happ traffic
        exact ⟨hlanded.moved, hlanded.result⟩
      · next rotationRef node' happ =>
        have hlanded := landed_of_append hheld hmoved happ traffic
        obtain ⟨history, hhistory⟩ :=
          historyFor_ok node' identity.id rotationRef
            (hkeys id request hrequest)
        rw [hhistory]
        exact ⟨hlanded.moved, hlanded.result⟩

theorem answer_same {id : EpochRequestId}
    (h : ¬ (answer id identity now drawn).Commits node) :
    node.Same ((answer id identity now drawn).run node traffic).2.1 := by
  cases hrequest : node.inboundEpochRequests[id]? with
  | none =>
      rw [run, answer_none hrequest]
      exact ⟨rfl, rfl, rfl, rfl⟩
  | some request =>
      cases hgroup : node.group with
      | none =>
          rw [run, answer_no_group hrequest hgroup]
          exact ⟨rfl, rfl, rfl, rfl⟩
      | some group =>
          have hstayed : group.Stayed
              (admission E.mls group traffic request drawn) :=
            admission_stayed fun label hlabel hpermits =>
              h ⟨request, group, label, hrequest, hgroup, hlabel, hpermits⟩
          obtain ⟨err, herr⟩ := hstayed.2
          rw [run, answerEpochKey, hrequest]
          dsimp only
          rw [hgroup]
          dsimp only
          split
          · exact same_of_stayed hgroup hstayed _
          · next rotation hrotation => cases herr.symm.trans hrotation

/-! ### Any call -/

theorem landed {call : RotationCall E} (hatomic : E.mls.Atomic)
    (hkeys : ∀ (id : EpochRequestId) request,
      node.inboundEpochRequests[id]? = some request →
        E.validKey request.requester.key.bytes = true)
    (h : call.Commits node) : node.Landed (call.run node traffic) := by
  cases call with
  | rotate identity now drawn => exact rotate_landed hatomic h
  | revoke revoked identity now drawn => exact revoke_landed hatomic h
  | answer id identity now drawn => exact answer_landed hkeys hatomic h

theorem same_of_not_commits {call : RotationCall E} (h : ¬ call.Commits node) :
    node.Same (call.run node traffic).2.1 := by
  cases call with
  | rotate identity now drawn => exact rotate_same h
  | revoke revoked identity now drawn => exact revoke_same h
  | answer id identity now drawn => exact answer_same h

end Calls

/-- With operations of MLS that are all or nothing, a failure of a call leaves
the group, the keyring and the log as they were exactly if a call that gets as
far as a commit finds a tip to append to. That held requests name keys is what
the type of an identity says. -/
theorem failed_rotation_leaves_iff (E : EpochPrimitives)
    (hatomic : E.mls.Atomic) (node : EpochNode) (traffic : MlsTraffic)
    (hkeys : ∀ (id : EpochRequestId) request,
      node.inboundEpochRequests[id]? = some request →
        E.validKey request.requester.key.bytes = true)
    (call : RotationCall E) :
    (∀ err, (call.run node traffic).1 = .error err →
      node.Same (call.run node traffic).2.1) ↔
      (call.Commits node → node.log.HoldsTip) := by
  by_cases hcommits : call.Commits node
  · rw [forall_prop_of_true hcommits]
    exact (landed hatomic hkeys hcommits).same_iff
  · exact iff_of_true (fun _ _ => same_of_not_commits hcommits)
      fun h => absurd h hcommits

/-! ### A rotation ahead of the log -/

/-- Member 1 was keyed in and has no entry of the log yet. -/
def unsynced : EpochNode :=
  { EpochNode.new (Sample.identity 1) with
    group := some (.create (identityLabel (Sample.identity 1)) []) }

/-- Member 1 rotates. -/
def sampleRotation : RotationCall Sample.primitives :=
  .rotate (JoinNode.signer 1 2) ⟨20⟩ ⟨[1], [2]⟩

theorem atomic_primitives : Sample.primitives.mls.Atomic := by
  intro session traffic what change leaves invited drawn err h
  cases h

theorem failed_rotation_leaves_iff_unsynced :
    (∀ err, (sampleRotation.run unsynced ⟨[], []⟩).1 = .error err →
      unsynced.Same (sampleRotation.run unsynced ⟨[], []⟩).2.1) ↔
      (sampleRotation.Commits unsynced → unsynced.log.HoldsTip) :=
  failed_rotation_leaves_iff Sample.primitives atomic_primitives unsynced
    ⟨[], []⟩ (fun _ _ _ => rfl) sampleRotation

/-- The rotation fails, and the group is an epoch ahead of the log. -/
theorem rotated_ahead_of_log : ¬ ∀ (E : EpochPrimitives), E.mls.Atomic →
    ∀ (node : EpochNode) (traffic : MlsTraffic) (call : RotationCall E) err,
      (call.run node traffic).1 = .error err →
        node.Same (call.run node traffic).2.1 := by
  intro hall
  have hcommits : sampleRotation.Commits unsynced := ⟨_, rfl, rfl⟩
  have hlanded : unsynced.Landed (sampleRotation.run unsynced ⟨[], []⟩) :=
    landed atomic_primitives (fun _ _ _ => rfl) hcommits
  obtain ⟨tip, htip, -⟩ := hlanded.same_iff.1 fun err =>
    hall Sample.primitives atomic_primitives unsynced ⟨[], []⟩ sampleRotation
      err
  cases htip

end RotationCall

end Intranet
