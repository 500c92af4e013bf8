import Intranet.Proofs.EpochNode

/-!
# One leaf for an identity

A group state only ever comes out of a group state some member holds, by one
of four changes, or is copied from a commit or a Welcome. So it is enough that
each change keeps labels distinct, and that what is in traffic is distinct:
then every member's group is, on whatever branch of the log it stands.

The change that could go wrong is the addition of a requester who has a leaf.
An answer looks for that leaf first, and finds it, because the screen has
compared the label of the key package with the requester.
-/

namespace Intranet

namespace MlsGroup

variable {leaves : List (Option Label)} {label : Label} {index : ℕ}

/-- No label is on two leaves. -/
def Distinct (group : MlsGroup) : Prop := group.labels.Nodup

theorem addLeaf_perm (leaves : List (Option Label)) (label : Label) :
    ((addLeaf leaves label).filterMap id).Perm
      (label :: leaves.filterMap id) := by
  induction leaves with
  | nil => exact .refl _
  | cons leaf leaves ih =>
      cases leaf with
      | none => exact .refl _
      | some held => exact (ih.cons held).trans (.swap label held _)

theorem blank_sublist (leaves : List (Option Label)) (index : ℕ) :
    ((leaves.set index none).filterMap id).Sublist (leaves.filterMap id) := by
  induction leaves generalizing index with
  | nil => exact .refl _
  | cons leaf leaves ih =>
      cases index with
      | zero =>
          cases leaf with
          | none => exact .refl _
          | some held => exact List.sublist_cons_self held _
      | succ index =>
          cases leaf with
          | none => exact ih index
          | some held => exact (ih index).cons_cons held

/-- Blanking a leaf takes its label out once. -/
theorem blank_perm (h : leaves[index]? = some (some label)) :
    (leaves.filterMap id).Perm
      (label :: (leaves.set index none).filterMap id) := by
  induction leaves generalizing index with
  | nil => cases h
  | cons leaf leaves ih =>
      cases index with
      | zero =>
          cases h
          exact .refl _
      | succ index =>
          have hrest := ih (h : leaves[index]? = some (some label))
          cases leaf with
          | none => exact hrest
          | some held => exact (hrest.cons held).trans (.swap label held _)

theorem not_mem_blank (hnodup : (leaves.filterMap id).Nodup)
    (h : leaves[index]? = some (some label)) :
    label ∉ (leaves.set index none).filterMap id :=
  (List.nodup_cons.1 ((blank_perm h).nodup_iff.1 hnodup)).1

theorem addLeaf_nodup (hnodup : (leaves.filterMap id).Nodup)
    (hnew : label ∉ leaves.filterMap id) :
    ((addLeaf leaves label).filterMap id).Nodup :=
  (addLeaf_perm leaves label).nodup_iff.2 (List.nodup_cons.2 ⟨hnew, hnodup⟩)

end MlsGroup

/-- Everything produced so far is free of double leaves. -/
structure MlsTraffic.Distinct (traffic : MlsTraffic) : Prop where
  commits : ∀ made ∈ traffic.commits, made.result.Distinct
  welcomes : ∀ made ∈ traffic.welcomes, made.group.Distinct

namespace GroupSession

variable {M : OpenMls} {session : GroupSession} {traffic : MlsTraffic}
  {drawn : Sealed} {x : PerNetworkIdentityId} {index : ℕ}

/-- What a call that advances the epoch leaves is free of double leaves. -/
def Advanced.Distinct (advanced : Advanced) : Prop :=
  advanced.2.1.group.Distinct ∧ advanced.2.2.Distinct

/-- A leaf that is found carries the label. -/
theorem leafIndexFor_some (h : session.leafIndexFor x = some index) :
    session.group.leaves[index]? = some (some (identityLabel x)) := by
  obtain ⟨hlt, hfound, -⟩ := List.findIdx?_eq_some_iff_getElem.1 h
  rw [List.getElem?_eq_getElem hlt, of_decide_eq_true hfound]

theorem leafIndexFor_none (h : session.leafIndexFor x = none) :
    identityLabel x ∉ session.group.labels := by
  intro hmem
  obtain ⟨leaf, hleaf, heq⟩ := List.mem_filterMap.1 hmem
  have hnot := List.findIdx?_eq_none_iff.1 h leaf hleaf
  exact of_decide_eq_false hnot heq

theorem commitChange_distinct {what : String} {change : MlsChange}
    {leaves : List (Option Label)} {invited : Option (List UInt8)}
    (hsession : session.group.Distinct) (htraffic : traffic.Distinct)
    (hleaves : (leaves.filterMap id).Nodup) :
    (session.commitChange M traffic what change leaves invited
      drawn).Distinct := by
  unfold commitChange
  split
  · exact ⟨hsession, htraffic⟩
  · refine ⟨hleaves, ?_, ?_⟩
    · intro made hmade
      rcases List.mem_cons.1 hmade with rfl | hold
      · exact hleaves
      · exact htraffic.commits made hold
    · intro made hmade
      cases invited with
      | none => exact htraffic.welcomes made hmade
      | some keyPackage =>
          rcases List.mem_cons.1 hmade with rfl | hold
          · exact hleaves
          · exact htraffic.welcomes made hold

theorem addMember_distinct {keyPackage : List UInt8}
    (hsession : session.group.Distinct) (htraffic : traffic.Distinct)
    (hnew : ∀ label, M.packageLabel keyPackage = .ok label →
      label ∉ session.group.labels) :
    (session.addMember M traffic keyPackage drawn).Distinct := by
  unfold addMember
  split
  · exact ⟨hsession, htraffic⟩
  · next label hlabel =>
    exact commitChange_distinct hsession htraffic
      (MlsGroup.addLeaf_nodup hsession (hnew label hlabel))

theorem removeMember_distinct (hsession : session.group.Distinct)
    (htraffic : traffic.Distinct) :
    (session.removeMember M traffic index drawn).Distinct :=
  commitChange_distinct hsession htraffic
    (hsession.sublist (MlsGroup.blank_sublist _ index))

theorem replaceMember_distinct {keyPackage : List UInt8}
    (hsession : session.group.Distinct) (htraffic : traffic.Distinct)
    (hsame : ∀ label, M.packageLabel keyPackage = .ok label →
      session.group.leaves[index]? = some (some label)) :
    (session.replaceMember M traffic index keyPackage drawn).Distinct := by
  unfold replaceMember
  split
  · exact ⟨hsession, htraffic⟩
  · next label hlabel =>
    refine commitChange_distinct hsession htraffic (MlsGroup.addLeaf_nodup
      (hsession.sublist (MlsGroup.blank_sublist _ index)) ?_)
    exact MlsGroup.not_mem_blank hsession (hsame label hlabel)

theorem rotate_distinct (hsession : session.group.Distinct)
    (htraffic : traffic.Distinct) :
    (session.rotate M traffic drawn).Distinct :=
  commitChange_distinct hsession htraffic hsession

theorem applyCommit_distinct {commit : List UInt8}
    (hsession : session.group.Distinct) (htraffic : traffic.Distinct) :
    (session.applyCommit M traffic commit).2.group.Distinct := by
  unfold applyCommit
  split
  · exact hsession
  · next made hmade => exact htraffic.commits made (List.mem_of_find?_eq_some hmade)

end GroupSession

theorem PendingMember.join_distinct {pending : PendingMember}
    {traffic : MlsTraffic} {welcome : List UInt8} {session : GroupSession}
    (htraffic : traffic.Distinct) (h : pending.join traffic welcome = .ok session) :
    session.group.Distinct := by
  unfold join at h
  split at h
  · cases h
  · next made hmade =>
    cases h
    exact htraffic.welcomes made (List.mem_of_find?_eq_some hmade)

namespace EpochNode

variable {E : EpochPrimitives} {node : EpochNode} {traffic : MlsTraffic}

/-- A node whose group is free of double leaves, and whose held requests come
with key packages of the requesters. -/
structure Tidy (E : EpochPrimitives) (node : EpochNode) : Prop where
  group : ∀ session, node.group = some session → session.group.Distinct
  held : ∀ (id : EpochRequestId) request,
    node.inboundEpochRequests[id]? = some request →
    E.mls.packageLabel request.keyPackage =
      .ok (identityLabel request.requester)

/-- What an operation leaves: the group of the node, and the traffic. -/
def GroupsDistinct (node : EpochNode) (traffic : MlsTraffic) : Prop :=
  (∀ session, node.group = some session → session.group.Distinct) ∧
    traffic.Distinct

theorem label_of_screen {request : EpochKeyRequest}
    {peer : PerNetworkIdentityId}
    (h : node.screenEpochRequest E request peer = .ok ()) :
    E.mls.packageLabel request.keyPackage =
      .ok (identityLabel request.requester) := by
  unfold screenEpochRequest at h
  split at h
  · cases h
  · split at h
    · cases h
    · split at h
      · cases h
      · split at h
        · cases h
        · next label hlabel =>
          split at h
          · cases h
          · next hsame =>
            rw [← not_not.1 hsame]
            unfold keyPackageIdentity at hlabel
            cases hpackage : E.mls.packageLabel request.keyPackage with
            | error e =>
                rw [hpackage] at hlabel
                cases hlabel
            | ok found =>
                rw [hpackage] at hlabel
                cases hlabel
                rfl

theorem admission_distinct {group : GroupSession} {request : EpochKeyRequest}
    {drawn : Sealed} (hgroup : group.group.Distinct)
    (htraffic : traffic.Distinct)
    (hlabel : E.mls.packageLabel request.keyPackage =
      .ok (identityLabel request.requester)) :
    (admission E.mls group traffic request drawn).Distinct := by
  unfold admission
  split
  · next index hindex =>
    refine GroupSession.replaceMember_distinct hgroup htraffic ?_
    intro label hfound
    rw [hlabel] at hfound
    cases hfound
    exact GroupSession.leafIndexFor_some hindex
  · next hindex =>
    refine GroupSession.addMember_distinct hgroup htraffic ?_
    intro label hfound
    rw [hlabel] at hfound
    cases hfound
    exact GroupSession.leafIndexFor_none hindex

theorem groupsDistinct_of {node' : EpochNode} {advanced : GroupSession.Advanced}
    {traffic' : MlsTraffic} (h : advanced.Distinct)
    (hgroup : node'.group = some advanced.2.1) (htraffic : traffic' = advanced.2.2) :
    node'.GroupsDistinct traffic' := by
  subst htraffic
  refine ⟨?_, h.2⟩
  intro session hsession
  rw [hgroup] at hsession
  cases hsession
  exact h.1

theorem answer_distinct {id : EpochRequestId}
    {identity : PerNetworkIdentity E.crypto E.validKey} {now : Timestamp}
    {drawn : Sealed} (hnode : node.Tidy E) (htraffic : traffic.Distinct) :
    (node.answerEpochKey E traffic id identity now drawn).2.1.GroupsDistinct
      (node.answerEpochKey E traffic id identity now drawn).2.2 := by
  cases hreq : node.inboundEpochRequests[id]? with
  | none =>
      rw [answer_none hreq]
      exact ⟨hnode.group, htraffic⟩
  | some request =>
      cases hgroup : node.group with
      | none =>
          rw [answer_no_group hreq hgroup]
          exact ⟨hnode.group, htraffic⟩
      | some group =>
          obtain ⟨-, hafter, hproduced⟩ := answer_leaves hreq hgroup
          exact groupsDistinct_of (admission_distinct (hnode.group group hgroup)
            htraffic (hnode.held id request hreq)) hafter hproduced

theorem createEpochGroup_distinct {identity : PerNetworkIdentityId}
    {groupId : List UInt8} (hnode : node.Tidy E) (session : GroupSession)
    (h : (node.createEpochGroup E identity groupId).2.group = some session) :
    session.group.Distinct := by
  unfold createEpochGroup at h
  dsimp only at h
  split at h
  · exact hnode.group session h
  · split at h
    · exact hnode.group session h
    · cases h
      exact List.nodup_singleton _

/-- What a revocation leaves: nothing changed, or the group after the removal. -/
theorem revokeEpochMember_leaves {revoked : PerNetworkIdentityId}
    {identity : PerNetworkIdentity E.crypto E.validKey} {now : Timestamp}
    {drawn : Sealed} :
    let result := node.revokeEpochMember E traffic revoked identity now drawn
    (result.2.1.group = node.group ∧ result.2.2 = traffic ∧
      ∀ rotationRef, result.1 ≠ .ok (some rotationRef)) ∨
    ∃ group index, node.group = some group ∧
      group.leafIndexFor revoked = some index ∧
      result.2.1.group =
        some (group.removeMember E.mls traffic index drawn).2.1 ∧
      result.2.2 = (group.removeMember E.mls traffic index drawn).2.2 ∧
      ∀ rotationRef, result.1 = .ok (some rotationRef) →
        ∃ rotation, (group.removeMember E.mls traffic index drawn).1 =
          .ok rotation := by
  dsimp only
  unfold revokeEpochMember
  split
  · exact Or.inl ⟨rfl, rfl, fun _ h => by cases h⟩
  · split
    · exact Or.inl ⟨rfl, rfl, fun _ h => by cases h⟩
    · split
      · exact Or.inl ⟨rfl, rfl, fun _ h => by cases h⟩
      · next group hgroup =>
        split
        · exact Or.inl ⟨rfl, rfl, fun _ h => by cases h⟩
        · next index hindex =>
          refine Or.inr ⟨group, index, hgroup, hindex, ?_⟩
          dsimp only
          split
          · exact ⟨rfl, rfl, fun _ h => by cases h⟩
          · next rotation hrotation =>
            exact ⟨appendRotation_group, rfl, fun _ _ => ⟨rotation, hrotation⟩⟩

theorem rotateEpoch_distinct
    {identity : PerNetworkIdentity E.crypto E.validKey} {now : Timestamp}
    {drawn : Sealed} (hnode : node.Tidy E) (htraffic : traffic.Distinct) :
    (node.rotateEpoch E traffic identity now drawn).2.1.GroupsDistinct
      (node.rotateEpoch E traffic identity now drawn).2.2 := by
  unfold rotateEpoch
  split
  · exact ⟨hnode.group, htraffic⟩
  · next group hgroup =>
    have hrotate : (group.rotate E.mls traffic drawn).Distinct :=
      GroupSession.rotate_distinct (hnode.group group hgroup) htraffic
    dsimp only
    split
    · exact groupsDistinct_of hrotate rfl rfl
    · exact groupsDistinct_of hrotate appendRotation_group rfl

theorem applyRotation_distinct (htraffic : traffic.Distinct)
    (pass : EpochNode × List Hash) (hash : Hash)
    (hpass : pass.1.GroupsDistinct traffic) :
    (applyRotation E traffic pass hash).1.GroupsDistinct traffic := by
  unfold applyRotation
  dsimp only
  split
  · exact hpass
  · next group hgroup =>
    have happly : ∀ commit, (group.applyCommit E.mls traffic
        commit).2.group.Distinct := fun commit =>
      GroupSession.applyCommit_distinct (hpass.1 group hgroup) htraffic
    split
    · exact hpass
    · split
      · next commit _ =>
        have hone := happly commit
        split
        · next heq =>
          rw [heq] at hone
          exact ⟨fun session h => Option.some.inj h ▸ hone, htraffic⟩
        · next heq =>
          rw [heq] at hone
          exact ⟨fun session h => Option.some.inj h ▸ hone, htraffic⟩
      · exact hpass

theorem applyPendingRotations_distinct (hnode : node.Tidy E)
    (htraffic : traffic.Distinct) :
    (node.applyPendingRotations E traffic).2.GroupsDistinct traffic := by
  unfold applyPendingRotations
  split
  · exact ⟨hnode.group, htraffic⟩
  · refine List.foldlRecOn (motive := fun (pass : EpochNode × List Hash) =>
      pass.1.GroupsDistinct traffic) _ _ ⟨hnode.group, htraffic⟩ ?_
    intro pass hpass hash _
    exact applyRotation_distinct htraffic pass hash hpass

theorem acceptWelcome_distinct {welcome : List UInt8} {rotationRef : Hash}
    {history : List SealedEpochKey} {sender : PerNetworkIdentityId}
    (hnode : node.Tidy E) (htraffic : traffic.Distinct)
    (session : GroupSession)
    (h : (node.acceptWelcome E traffic welcome rotationRef history
      sender).2.group = some session) : session.group.Distinct := by
  unfold acceptWelcome at h
  split at h
  · exact hnode.group session h
  · dsimp only at h
    split at h
    · exact hnode.group session h
    · next joined hjoined =>
      split at h
      · exact hnode.group session h
      · split at h
        · exact hnode.group session h
        · cases h
          exact PendingMember.join_distinct htraffic hjoined

theorem revokeEpochMember_distinct {revoked : PerNetworkIdentityId}
    {identity : PerNetworkIdentity E.crypto E.validKey} {now : Timestamp}
    {drawn : Sealed} (hnode : node.Tidy E) (htraffic : traffic.Distinct) :
    (node.revokeEpochMember E traffic revoked identity now
      drawn).2.1.GroupsDistinct
        (node.revokeEpochMember E traffic revoked identity now drawn).2.2 := by
  rcases revokeEpochMember_leaves (E := E) with ⟨hgroup, hproduced, -⟩ |
    ⟨group, index, hgroup, -, hafter, hproduced, -⟩
  · refine ⟨fun session h => hnode.group session ?_, ?_⟩
    · rw [← hgroup, h]
    · rw [hproduced]
      exact htraffic
  · exact groupsDistinct_of (GroupSession.removeMember_distinct
      (hnode.group group hgroup) htraffic) hafter hproduced

/-- No call puts a label on two leaves. -/
theorem handle_distinct (call : EpochCall E) (hnode : node.Tidy E)
    (htraffic : traffic.Distinct) :
    (node.handle E traffic call).2.1.GroupsDistinct
      (node.handle E traffic call).2.2 := by
  cases call with
  | accept | advance | reconcileKeys | request =>
      exact ⟨hnode.group, htraffic⟩
  | createGroup identity groupId =>
      exact ⟨createEpochGroup_distinct hnode, htraffic⟩
  | revoke revoked identity now drawn =>
      exact revokeEpochMember_distinct hnode htraffic
  | rotate identity now drawn => exact rotateEpoch_distinct hnode htraffic
  | applyPending => exact applyPendingRotations_distinct hnode htraffic
  | welcome bytes rotationRef history sender =>
      exact ⟨acceptWelcome_distinct hnode htraffic, htraffic⟩
  | receive request peer =>
      change (node.receiveEpochRequest E request peer).2.GroupsDistinct traffic
      unfold receiveEpochRequest
      split <;> exact ⟨hnode.group, htraffic⟩
  | answer id identity now drawn => exact answer_distinct hnode htraffic
  | decline id reason =>
      change (node.declineEpochKey id reason).2.GroupsDistinct traffic
      unfold declineEpochKey
      split <;> exact ⟨hnode.group, htraffic⟩

theorem handle_tidy (call : EpochCall E) (hnode : node.Tidy E)
    (htraffic : traffic.Distinct) :
    (node.handle E traffic call).2.1.Tidy E where
  group := (handle_distinct call hnode htraffic).1
  held id request hreq := by
    rcases handle_held hreq with hold | ⟨peer, -, hscreen⟩
    · exact hnode.held id request hold
    · exact label_of_screen hscreen

/-- A revocation that rotated has blanked the only leaf of the revoked. -/
theorem revoked_no_leaf {revoked : PerNetworkIdentityId}
    {identity : PerNetworkIdentity E.crypto E.validKey} {now : Timestamp}
    {drawn : Sealed} {rotationRef : Hash} (hnode : node.Tidy E)
    (h : (node.revokeEpochMember E traffic revoked identity now drawn).1 =
      .ok (some rotationRef)) :
    ∃ session, (node.revokeEpochMember E traffic revoked identity now
        drawn).2.1.group = some session ∧
      identityLabel revoked ∉ session.group.labels := by
  rcases revokeEpochMember_leaves (E := E) with ⟨-, -, hnot⟩ |
    ⟨group, index, hgroup, hindex, hafter, -, hok⟩
  · exact absurd h (hnot rotationRef)
  · obtain ⟨rotation, hrotation⟩ := hok rotationRef h
    refine ⟨_, hafter, ?_⟩
    unfold GroupSession.removeMember GroupSession.commitChange at hrotation ⊢
    split at hrotation
    · cases hrotation
    · exact MlsGroup.not_mem_blank (hnode.group group hgroup)
        (GroupSession.leafIndexFor_some hindex)

end EpochNode

namespace EpochNetwork

variable {E : EpochPrimitives} {ι : Type} [DecidableEq ι]
  {net : EpochNetwork ι}

/-- Every node is tidy, and so is what they have produced. -/
structure Tidy (E : EpochPrimitives) (net : EpochNetwork ι) : Prop where
  nodes : ∀ i, (net.nodes i).Tidy E
  traffic : net.traffic.Distinct

omit [DecidableEq ι] in
theorem tidy_start (ids : ι → PerNetworkIdentityId) : Tidy E (start ids) where
  nodes i :=
    { group := fun session h => by cases h
      held := fun id request h => by simp [start, EpochNode.new] at h }
  traffic :=
    { commits := fun made h => by cases h
      welcomes := fun made h => by cases h }

theorem tidy_step (net : EpochNetwork ι) (call : ι × EpochCall E)
    (hnet : Tidy E net) : Tidy E (net.step E call).2 where
  nodes i := by
    by_cases hi : call.1 = i
    · subst hi
      rw [show call = (call.1, call.2) from rfl, step_self]
      exact EpochNode.handle_tidy call.2 (hnet.nodes call.1) hnet.traffic
    · rw [step_other hi]
      exact hnet.nodes i
  traffic :=
    (EpochNode.handle_distinct call.2 (hnet.nodes call.1) hnet.traffic).2

theorem tidy_run (ids : ι → PerNetworkIdentityId)
    (calls : List (ι × EpochCall E)) : Tidy E (run E ids calls) :=
  Machine.invariant (tidy_start ids) tidy_step calls

/-- No identity occupies two leaves: whatever the nodes of a network do, in
every group the labels are distinct, and a revocation that comes to `Some`
leaves no leaf of the revoked. -/
theorem labels_distinct (E : EpochPrimitives)
    (ids : ι → PerNetworkIdentityId) (calls : List (ι × EpochCall E)) (i : ι) :
    (∀ session, ((run E ids calls).nodes i).group = some session →
      session.group.labels.Nodup) ∧
    ∀ revoked identity now drawn rotationRef,
      ((run E ids calls).step E (i, .revoke revoked identity now drawn)).1 =
        .revoked (.ok (some rotationRef)) →
      ∃ session, (((run E ids calls).step E
          (i, .revoke revoked identity now drawn)).2.nodes i).group =
            some session ∧
        identityLabel revoked ∉ session.group.labels := by
  have hnet := tidy_run ids calls
  refine ⟨(hnet.nodes i).group, ?_⟩
  intro revoked identity now drawn rotationRef h
  rw [step_self]
  exact EpochNode.revoked_no_leaf (hnet.nodes i) (EpochOutcome.revoked.inj h)

/-- Identity 2 is keyed in, removed and rotated away from. -/
theorem labels_distinct_founder : ∃ session : GroupSession,
    (((run Sample.primitives Sample.founder (Sample.revokedRun.take 7)).step
      Sample.primitives ((), Sample.revokes 2 5)).2.nodes ()).group =
        some session ∧
      identityLabel (Sample.identity 2) ∉ session.group.labels :=
  (labels_distinct Sample.primitives Sample.founder
    (Sample.revokedRun.take 7) ()).2 (Sample.identity 2)
      (JoinNode.signer 1 5) ⟨20⟩ ⟨[3], []⟩ (Sample.hash 5) (by decide +kernel)

end EpochNetwork

end Intranet
