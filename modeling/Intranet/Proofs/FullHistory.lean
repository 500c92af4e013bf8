import Intranet.Proofs.EpochNode
import Intranet.Proofs.EpochWire
import Intranet.Proofs.Finality

/-!
# What a joiner of an archive network is sent

Only a reconciliation takes a key out of a keyring, so a node that was ever
keyed for a rotation still holds its key if no reconciliation had anything to
drop. Then the history of an answer has every rotation of the canonical chain,
and it arrives as long as it fits under the decoder's ceilings
(`full_history_delivered`). Reconciliations do not ask what the policy is: a
final rotation takes the keys before it out of an archive network as well
(`history_pruned`).
-/

namespace Intranet

namespace EpochKeyring

variable {ring : EpochKeyring} {log : GovernanceLog} {h : Hash}

/-- Keys recorded one after the other. -/
def recordAll (ring : EpochKeyring) (keys : List (Hash × UInt64 × EpochKey)) :
    EpochKeyring :=
  keys.foldl (fun ring k => ring.record k.1 k.2.1 k.2.2) ring

theorem recordAll_append (keys more : List (Hash × UInt64 × EpochKey)) :
    ring.recordAll (keys ++ more) = (ring.recordAll keys).recordAll more :=
  List.foldl_append

theorem mem_record {rotationRef : Hash} {epoch : UInt64} {key : EpochKey} :
    h ∈ (ring.record rotationRef epoch key).records ↔
      rotationRef = h ∨ h ∈ ring.records :=
  BTreeMap.mem_insert_iff _ _ _ _

theorem mem_recordAll (keys : List (Hash × UInt64 × EpochKey))
    (hh : h ∈ ring.records) : h ∈ (ring.recordAll keys).records := by
  induction keys generalizing ring with
  | nil => exact hh
  | cons k keys ih => exact ih (mem_record.2 (Or.inr hh))

theorem Kept.recordAll (hkept : Kept ring)
    (keys : List (Hash × UInt64 × EpochKey)) : Kept (ring.recordAll keys) := by
  induction keys generalizing ring with
  | nil => exact hkept
  | cons k keys ih => exact ih (hkept.record k.1 k.2.1 k.2.2)

/-- Delivered keys are recorded with their positions for epochs. -/
theorem acceptDelivered_ok {keys : List (Hash × EpochKey)}
    {ring' : EpochKeyring} (hok : ring.acceptDelivered keys = .ok ring') :
    ∃ recorded, ring' = ring.recordAll recorded := by
  unfold acceptDelivered at hok
  split at hok
  · cases hok
  · cases hok
    refine ⟨keys.zipIdx.map fun k => (k.1.1, UInt64.ofNat k.2, k.1.2), ?_⟩
    rw [EpochKeyring.recordAll, List.foldl_map]

/-- A reconciliation of this keyring would drop nothing: every held rotation
is canonical, and none that follows another held one is final, in the log or
by its mark. -/
def Untouched (log : GovernanceLog) (ring : EpochKeyring) : Prop :=
  (∀ h ∈ ring.records, h ∈ log.canonicalRotations) ∧
  ∀ (older newer : Hash) record,
    Earlier log.canonicalRotations older newer → older ∈ ring.records →
    ring.records[newer]? = some record →
    record.status = .tentative ∧ log.isFinal record.rotationRef = false

theorem Untouched.not_marked (hun : Untouched log ring) {older newer : Hash}
    (hearly : Earlier log.canonicalRotations older newer)
    (holder : older ∈ ring.records) :
    ¬ MarkedFinal (markedRing log ring) newer := by
  intro hmarked
  obtain ⟨record, hrecord, hstatus⟩ := hmarked
  obtain ⟨-, held, hheld, rfl⟩ := markedRing_records.1 hrecord
  obtain ⟨htentative, hfinal⟩ := hun.2 older newer held hearly holder hheld
  have hnot : becomesFinal log held = false := by
    rw [becomesFinal, hfinal, Bool.and_false]
  rw [marked, hnot] at hstatus
  simp [htentative] at hstatus

/-- Windows without a final newer half leave the keyring as it is. -/
theorem pruned_none (ws : List (Hash × Hash)) (pass : Pass)
    (hnone : ∀ w ∈ ws, ¬ MarkedFinal pass.1 w.2) :
    ws.foldl pruneOne pass = pass := by
  induction ws with
  | nil => rfl
  | cons w ws ih =>
      have hone : pruneOne pass w = pass := by
        rcases pruneOne_cases pass w.1 w.2 with ⟨hmarked, -⟩ | ⟨-, heq⟩
        · exact absurd hmarked (hnone w List.mem_cons_self)
        · exact heq
      rw [List.foldl_cons, hone]
      exact ih fun w' hw' => hnone w' (List.mem_cons_of_mem w hw')

theorem Untouched.reconcile (hun : Untouched log ring) (hh : h ∈ ring.records) :
    h ∈ (ring.reconcile log).2.records := by
  have hadopted : (adopt log.canonicalRotations
      (markedRing log ring)).records = (markedRing log ring).records :=
    adopt_records _ _
  have hpruned := pruned_none
    (neighbours (log.canonicalRotations.filter fun hash =>
      (adopt log.canonicalRotations (markedRing log ring)).records.contains
        hash))
    (adopt log.canonicalRotations (markedRing log ring),
      (markFinal log (voidDoomed log.canonicalRotations (ring, .unchanged))).2)
    (by
      intro w hw
      have hearly := Earlier.filter_iff.1 (earlier_of_neighbour hw)
      obtain ⟨hearly, hheld, -⟩ := hearly
      rw [hadopted] at hheld
      have holder := (mem_markedRing.1 (Std.ExtTreeMap.contains_iff_mem.1
        hheld)).2
      intro hmarked
      obtain ⟨record, hrecord, hstatus⟩ := hmarked
      dsimp only at hrecord
      rw [hadopted] at hrecord
      exact hun.not_marked hearly holder ⟨record, hrecord, hstatus⟩)
  have hreconcile : (ring.reconcile log).2.records =
      (adopt log.canonicalRotations (markedRing log ring)).records :=
    congrArg (fun pass : Pass => pass.1.records) hpruned
  rw [hreconcile, hadopted]
  exact mem_markedRing.2 ⟨hun.1 h hh, hh⟩

end EpochKeyring

/-! ## What a node records -/

namespace EpochNode

variable {E : EpochPrimitives} {node : EpochNode} {traffic : MlsTraffic}

/-- The keyring of `node'` is that of `node` with keys recorded on top. -/
def Records (node node' : EpochNode) : Prop :=
  ∃ keys, node'.keyring = node.keyring.recordAll keys

theorem Records.refl (node : EpochNode) : node.Records node := ⟨[], rfl⟩

theorem Records.of_eq {node' : EpochNode} (h : node'.keyring = node.keyring) :
    node.Records node' := ⟨[], h⟩

theorem Records.one {node' : EpochNode} {rotationRef : Hash} {epoch : UInt64}
    {key : EpochKey}
    (h : node'.keyring = node.keyring.record rotationRef epoch key) :
    node.Records node' := ⟨[(rotationRef, epoch, key)], h⟩

theorem Records.trans {a b c : EpochNode} (hab : a.Records b)
    (hbc : b.Records c) : a.Records c := by
  obtain ⟨keys, hkeys⟩ := hab
  obtain ⟨more, hmore⟩ := hbc
  refine ⟨keys ++ more, ?_⟩
  rw [hmore, hkeys, EpochKeyring.recordAll_append]

/-- What only looks at the keyring does not see the rest of the node. -/
theorem Records.of_keyring {mid node' : EpochNode} (h : mid.Records node')
    (hmid : mid.keyring = node.keyring) : node.Records node' := by
  unfold Records at h ⊢
  rwa [hmid] at h

theorem createEpochGroup_records {identity : PerNetworkIdentityId}
    {groupId : List UInt8} :
    node.Records (node.createEpochGroup E identity groupId).2 := by
  unfold createEpochGroup
  dsimp only
  split
  · exact .refl node
  · split
    · exact .refl node
    · exact .one rfl

theorem appendRotation_records {identity : PerNetworkIdentity E.crypto E.validKey}
    {now : Timestamp} {reason : RotationReason} {rotation : Rotation} :
    node.Records
      (node.appendRotation E identity now reason rotation).2 := by
  unfold appendRotation
  dsimp only
  split
  · exact .refl node
  · exact .one rfl

theorem appendRotation_to {identity : PerNetworkIdentity E.crypto E.validKey}
    {now : Timestamp} {reason : RotationReason} {rotation : Rotation}
    {result : Except EpochError Hash} {node' : EpochNode}
    (h : node.appendRotation E identity now reason rotation = (result, node')) :
    node.Records node' := by
  have hrecords : node.Records
      (node.appendRotation E identity now reason rotation).2 :=
    appendRotation_records
  rwa [h] at hrecords

theorem revokeEpochMember_records {revoked : PerNetworkIdentityId}
    {identity : PerNetworkIdentity E.crypto E.validKey} {now : Timestamp}
    {drawn : Sealed} : node.Records
      (node.revokeEpochMember E traffic revoked identity now drawn).2.1 := by
  unfold revokeEpochMember
  split
  · exact .refl node
  · split
    · exact .refl node
    · split
      · exact .refl node
      · split
        · exact .refl node
        · dsimp only
          split
          · exact .of_eq rfl
          · exact appendRotation_records.of_keyring rfl

theorem rotateEpoch_records
    {identity : PerNetworkIdentity E.crypto E.validKey} {now : Timestamp}
    {drawn : Sealed} :
    node.Records (node.rotateEpoch E traffic identity now drawn).2.1 := by
  unfold rotateEpoch
  split
  · exact .refl node
  · dsimp only
    split
    · exact .of_eq rfl
    · exact appendRotation_records.of_keyring rfl

theorem applyRotation_records (pass : EpochNode × List Hash) (hash : Hash) :
    pass.1.Records (applyRotation E traffic pass hash).1 := by
  unfold applyRotation
  dsimp only
  split
  · exact .refl _
  · split
    · exact .refl _
    · split
      · split
        · exact .one rfl
        · exact .of_eq rfl
      · exact .refl _

theorem applyPendingRotations_records :
    node.Records (node.applyPendingRotations E traffic).2 := by
  unfold applyPendingRotations
  split
  · exact .refl node
  · refine List.foldlRecOn (motive := fun (pass : EpochNode × List Hash) =>
      node.Records pass.1) _ _ (.refl node) ?_
    intro pass hpass hash _
    exact hpass.trans (applyRotation_records pass hash)

theorem acceptWelcome_records {welcome : List UInt8} {rotationRef : Hash}
    {history : List SealedEpochKey} {sender : PerNetworkIdentityId} :
    node.Records (node.acceptWelcome E traffic welcome rotationRef history
      sender).2 := by
  unfold acceptWelcome
  split
  · exact .refl node
  · dsimp only
    split
    · exact .of_eq rfl
    · split
      · exact .of_eq rfl
      · split
        · exact .of_eq rfl
        · next ring hdelivered =>
          have hring : ∃ keys, ring = node.keyring.recordAll keys := by
            split at hdelivered
            · cases hdelivered
              exact ⟨[], rfl⟩
            · split at hdelivered
              · cases hdelivered
              · exact EpochKeyring.acceptDelivered_ok hdelivered
          have hmid : node.Records { node with keyring := ring } := hring
          exact hmid.trans (.one rfl)

theorem answerEpochKey_records {id : EpochRequestId}
    {identity : PerNetworkIdentity E.crypto E.validKey} {now : Timestamp}
    {drawn : Sealed} : node.Records
      (node.answerEpochKey E traffic id identity now drawn).2.1 := by
  unfold answerEpochKey
  split
  · exact .refl node
  · dsimp only
    split
    · exact .of_eq rfl
    · split
      · exact .of_eq rfl
      · split
        · exact .of_eq rfl
        · split
          · next happ => exact (appendRotation_to happ).of_keyring rfl
          · next happ =>
            split <;> exact (appendRotation_to happ).of_keyring rfl

/-- A call other than a reconciliation only records keys. -/
theorem handle_records (call : EpochCall E) (hcall : call ≠ .reconcileKeys) :
    node.Records (node.handle E traffic call).2.1 := by
  cases call with
  | accept | advance | request => exact .of_eq rfl
  | createGroup identity groupId => exact createEpochGroup_records
  | revoke revoked identity now drawn => exact revokeEpochMember_records
  | rotate identity now drawn => exact rotateEpoch_records
  | applyPending => exact applyPendingRotations_records
  | reconcileKeys => exact absurd rfl hcall
  | welcome bytes rotationRef history sender => exact acceptWelcome_records
  | receive request peer =>
      change node.Records (node.receiveEpochRequest E request peer).2
      unfold receiveEpochRequest
      split <;> exact .of_eq rfl
  | answer id identity now drawn => exact answerEpochKey_records
  | decline id reason =>
      change node.Records (node.declineEpochKey id reason).2
      unfold declineEpochKey
      split <;> exact .of_eq rfl

/-! ## What an answer carries -/

/-- The Welcome of a commit is the one the library drew for it. -/
theorem welcome_of_commitChange {M : OpenMls} {session : GroupSession}
    {what : String} {change : MlsChange} {leaves : List (Option Label)}
    {invited : Option (List UInt8)} {drawn : Sealed} {rotation : Rotation}
    {welcome : List UInt8}
    (h : (session.commitChange M traffic what change leaves invited drawn).1 =
      .ok rotation) (hwelcome : rotation.welcome = some welcome) :
    welcome = drawn.welcome := by
  rw [(GroupSession.commitChange_ok h).2, Option.map_eq_some_iff] at hwelcome
  obtain ⟨keyPackage, -, hdrawn⟩ := hwelcome
  exact hdrawn.symm

theorem welcome_of_admission {M : OpenMls} {group : GroupSession}
    {request : EpochKeyRequest} {drawn : Sealed} {rotation : Rotation}
    {welcome : List UInt8}
    (h : (admission M group traffic request drawn).1 = .ok rotation)
    (hwelcome : rotation.welcome = some welcome) :
    welcome = drawn.welcome := by
  unfold admission at h
  split at h
  · unfold GroupSession.replaceMember at h
    split at h
    · cases h
    · exact welcome_of_commitChange h hwelcome
  · unfold GroupSession.addMember at h
    split at h
    · cases h
    · exact welcome_of_commitChange h hwelcome

/-- The keys an archive network's Welcome comes with. -/
def superseded (ring : EpochKeyring) (rotationRef : Hash) :
    List (Hash × EpochKey) :=
  (ring.keysForNewMember .fullHistory).filter fun k => k.1 ≠ rotationRef

/-- Under the full-history policy an answer seals every held key but the new
one. -/
theorem historyFor_full {sender requester : PerNetworkIdentityId}
    {rotationRef : Hash} {history : List SealedEpochKey}
    (h : node.historyFor E sender requester rotationRef = .ok history)
    (hfull : (node.governanceState E).map (fun s => s.policy.historyAccess) =
      some HistoryAccess.fullHistory) :
    sealHistory E.crypto E.aead E.validKey E.dh sender requester
      (superseded node.keyring rotationRef) = .ok history := by
  unfold historyFor at h
  rw [hfull] at h
  exact h

theorem mem_superseded {ring : EpochKeyring} (hkept : ring.Kept)
    {rotationRef h : Hash} {key : EpochKey} :
    (h, key) ∈ superseded ring rotationRef ↔
      h ≠ rotationRef ∧ ring.keyFor h = some key := by
  rw [superseded, List.mem_filter, decide_eq_true_iff, and_comm]
  refine and_congr_right fun _ => ?_
  simp only [EpochKeyring.keysForNewMember, EpochKeyring.inOrder, List.mem_map,
    List.mem_filterMap, EpochKeyring.keyFor, Option.map_eq_some_iff,
    Prod.mk.injEq]
  constructor
  · rintro ⟨record, ⟨held, -, hrecord⟩, href, hkey⟩
    rw [hkept.keyed held record hrecord] at href
    subst href
    exact ⟨record, hrecord, hkey⟩
  · rintro ⟨record, hrecord, hkey⟩
    refine ⟨record, ⟨h, ?_, hrecord⟩, hkept.keyed h record hrecord, hkey⟩
    exact (hkept.mem_order h).2
      ((BTreeMap.mem_iff_exists _ _).2 ⟨record, hrecord⟩)

/-- The rotations of a keyring in its order, each at most once. -/
theorem refs_sublist {ring : EpochKeyring} (hkept : ring.Kept) :
    ((ring.keysForNewMember .fullHistory).map Prod.fst).Sublist ring.order := by
  have hrefs : ∀ hashes : List Hash, (((hashes.filterMap fun hash =>
      ring.records[hash]?).map fun record => (record.rotationRef,
        record.key)).map Prod.fst).Sublist hashes := by
    intro hashes
    induction hashes with
    | nil => exact .refl _
    | cons hash hashes ih =>
        cases hrecord : ring.records[hash]? with
        | none =>
            rw [List.filterMap_cons, hrecord]
            exact ih.cons hash
        | some record =>
            rw [List.filterMap_cons, hrecord]
            simp only [List.map_cons, hkept.keyed hash record hrecord]
            exact ih.cons_cons hash
  exact hrefs ring.order

/-- The keys before the new one are no more than the node held before. -/
theorem length_superseded {ring : EpochKeyring} (hkept : ring.Kept)
    {rotationRef : Hash} {epoch : UInt64} {key : EpochKey} :
    (superseded (ring.record rotationRef epoch key) rotationRef).length ≤
      ring.records.size := by
  have hafter := hkept.record rotationRef epoch key
  have hnodup : ((superseded (ring.record rotationRef epoch key)
      rotationRef).map Prod.fst).Nodup :=
    ((List.filter_sublist.map Prod.fst).trans
      (refs_sublist hafter)).nodup hafter.nodup
  have hsub : (superseded (ring.record rotationRef epoch key)
      rotationRef).map Prod.fst ⊆ ring.records.keys := by
    intro h hh
    obtain ⟨⟨ref, found⟩, hmem, rfl⟩ := List.mem_map.1 hh
    obtain ⟨hne, hkey⟩ := (mem_superseded hafter).1 hmem
    obtain ⟨record, hrecord, -⟩ := Option.map_eq_some_iff.1 hkey
    rw [EpochKeyring.record, BTreeMap.getElem?_insert_ite,
      if_neg (Ne.symm hne)] at hrecord
    exact Std.ExtTreeMap.mem_keys.2
      ((BTreeMap.mem_iff_exists _ _).2 ⟨record, hrecord⟩)
  have hlen := (List.subperm_of_subset hnodup hsub).length_le
  rwa [List.length_map, Std.ExtTreeMap.length_keys] at hlen

/-- A response with full history: it carries a key for every rotation of the
canonical chain, it decodes to itself, and the requester opens exactly the
keys the node holds. -/
def Delivers (E : EpochPrimitives) (after : EpochNode)
    (sender requester : PerNetworkIdentityId) (rotationRef : Hash)
    (response : EpochKeyResponse) : Prop :=
  ∃ welcome history keys,
    response = .welcome welcome rotationRef history ∧
    EpochKeyResponse.decode response.encode = .ok response ∧
    openHistory E.crypto E.aead E.validKey E.dh requester sender history =
      .ok keys ∧
    (∀ h key, (h, key) ∈ keys ↔
      h ≠ rotationRef ∧ after.keyring.keyFor h = some key) ∧
    ∀ h ∈ after.log.canonicalRotations, h = rotationRef ∨
      ∃ key, (h, key) ∈ keys

/-- One answer: what goes out is what the node holds. -/
theorem answer_delivers {id : EpochRequestId}
    {identity : PerNetworkIdentity E.crypto E.validKey} {now : Timestamp}
    {drawn : Sealed} {rotationRef : Hash} {response : EpochKeyResponse}
    {after : EpochNode} {traffic' : MlsTraffic}
    (hA : E.aead.Lawful) (hdh : ∀ a b, E.dh a b = E.dh b a)
    (hkept : node.keyring.Kept)
    (hwelcome : drawn.welcome.length ≤ maxWelcomeBytes)
    (hcount : node.keyring.records.size ≤ maxHistoryKeys)
    (h : node.answerEpochKey E traffic id identity now drawn =
      (.ok (rotationRef, response), after, traffic'))
    (hfull : (after.governanceState E).map (fun s => s.policy.historyAccess) =
      some HistoryAccess.fullHistory)
    (hkeyed : ∀ h ∈ after.log.canonicalRotations,
      h = rotationRef ∨ h ∈ node.keyring.records) :
    ∃ request : EpochKeyRequest,
      node.inboundEpochRequests[id]? = some request ∧
      Delivers E after identity.id request.requester rotationRef response := by
  obtain ⟨request, group, rotation, welcome, history, hreq, -, hrotation,
    hdrawn, happ, hhistory, rfl⟩ := answer_ok h
  have hring : after.keyring =
      node.keyring.record rotationRef rotation.epoch rotation.key := by
    have hrecord := appendRotation_ok (congrArg Prod.fst happ)
    rwa [happ] at hrecord
  have hkept' : after.keyring.Kept := hring ▸ hkept.record _ _ _
  have hsealed := historyFor_full hhistory hfull
  obtain ⟨hlen, hblob⟩ := sealHistory_blob hA hsealed
  have hceiling : history.length ≤ maxHistoryKeys := by
    rw [hlen, hring]
    exact (length_superseded hkept).trans hcount
  have hdrawn' := welcome_of_admission hrotation hdrawn
  refine ⟨request, hreq, welcome, history, superseded after.keyring rotationRef,
    rfl, ?_, ?_, ?_, ?_⟩
  · exact EpochKeyResponse.decode_encode_welcome (hdrawn' ▸ hwelcome) hceiling
      hblob
  · exact openHistory_sealHistory hA hdh identity.valid hsealed
  · exact fun h key => mem_superseded hkept'
  · intro h hh
    rcases hkeyed h hh with heq | hheld
    · exact Or.inl heq
    · by_cases heq : h = rotationRef
      · exact Or.inl heq
      · have hmem : h ∈ after.keyring.records := by
          rw [hring]
          exact EpochKeyring.mem_record.2 (Or.inr hheld)
        obtain ⟨record, hrecord⟩ := (BTreeMap.mem_iff_exists _ _).1 hmem
        exact Or.inr ⟨record.key, (mem_superseded hkept').2
          ⟨heq, congrArg (Option.map EpochRecord.key) hrecord⟩⟩

end EpochNode

namespace EpochNetwork

variable {E : EpochPrimitives} {ι : Type} [DecidableEq ι] {i : ι}
  {ids : ι → PerNetworkIdentityId} {calls pre : List (ι × EpochCall E)}

/-- A reconciliation of node `i` finds nothing to drop. -/
def DropsNothing (E : EpochPrimitives) (i : ι) (net : EpochNetwork ι)
    (call : ι × EpochCall E) : Prop :=
  call.1 = i → call.2 = .reconcileKeys →
    (net.nodes i).keyring.Untouched (net.nodes i).log

theorem step_keyring (net : EpochNetwork ι) (call : ι × EpochCall E) :
    (net.nodes i).Records ((net.step E call).2.nodes i) ∨
      call.1 = i ∧ call.2 = .reconcileKeys ∧
        ((net.step E call).2.nodes i).keyring =
          ((net.nodes i).keyring.reconcile (net.nodes i).log).2 := by
  by_cases hi : call.1 = i
  · subst hi
    by_cases hcall : call.2 = .reconcileKeys
    · refine Or.inr ⟨rfl, hcall, ?_⟩
      rw [show call = (call.1, call.2) from rfl, hcall, step_self]
      rfl
    · rw [show call = (call.1, call.2) from rfl, step_self]
      exact Or.inl (EpochNode.handle_records call.2 hcall)
  · rw [step_other hi]
    exact Or.inl (.refl _)

/-- The keyring of a node is in step with itself, and a key it held once is
still held if no reconciliation since had anything to drop. -/
theorem kept_run (calls : List (ι × EpochCall E)) :
    ((run E ids calls).nodes i).keyring.Kept := by
  refine Machine.invariant (P := fun net : EpochNetwork ι =>
    (net.nodes i).keyring.Kept) EpochKeyring.kept_new ?_ calls
  intro net call hkept
  rcases step_keyring (i := i) net call with ⟨keys, hkeys⟩ | ⟨-, -, heq⟩
  · rw [hkeys]
    exact hkept.recordAll keys
  · rw [heq]
    exact hkept.reconcile _

theorem held_step {net : EpochNetwork ι} {call : ι × EpochCall E} {h : Hash}
    (hdrops : DropsNothing E i net call)
    (hh : h ∈ (net.nodes i).keyring.records) :
    h ∈ ((net.step E call).2.nodes i).keyring.records := by
  rcases step_keyring net call with ⟨keys, hkeys⟩ | ⟨hi, hcall, heq⟩
  · rw [hkeys]
    exact EpochKeyring.mem_recordAll keys hh
  · rw [heq]
    exact (hdrops hi hcall).reconcile hh

theorem held_of_prefix {h : Hash}
    (hdrops : Machine.Along (step E) (DropsNothing E i) (start ids) calls)
    (hpre : pre <+: calls)
    (hh : h ∈ ((run E ids pre).nodes i).keyring.records) :
    h ∈ ((run E ids calls).nodes i).keyring.records := by
  induction calls using List.reverseRecOn with
  | nil => rwa [List.prefix_nil.1 hpre] at hh
  | append_singleton calls call ih =>
      obtain ⟨hbefore, hlast⟩ := Machine.along_snoc.1 hdrops
      rcases List.prefix_concat_iff.1 hpre with rfl | hshort
      · exact hh
      · rw [run, Machine.state_snoc]
        exact held_step hlast (ih hbefore hshort)

/-- Full history under the full-history policy: for a node that has held the
key of every rotation of its canonical chain, in a run whose reconciliations
had nothing to drop, as long as the Welcome and the number of keys are within
the decoder's ceilings. -/
theorem full_history_delivered (ids : ι → PerNetworkIdentityId)
    (calls : List (ι × EpochCall E)) (i : ι) (id : EpochRequestId)
    (identity : PerNetworkIdentity E.crypto E.validKey) (now : Timestamp)
    (drawn : Sealed) (rotationRef : Hash) (response : EpochKeyResponse)
    (hA : E.aead.Lawful) (hdh : ∀ a b, E.dh a b = E.dh b a)
    (hdrops : Machine.Along (step E) (DropsNothing E i) (start ids) calls)
    (hwelcome : drawn.welcome.length ≤ maxWelcomeBytes)
    (hcount : ((run E ids calls).nodes i).keyring.records.size ≤
      maxHistoryKeys)
    (hanswer : ((run E ids calls).step E (i, .answer id identity now
      drawn)).1 = .answered (.ok (rotationRef, response)))
    (hfull : ((((run E ids calls).step E (i, .answer id identity now
      drawn)).2.nodes i).governanceState E).map
        (fun s => s.policy.historyAccess) = some HistoryAccess.fullHistory)
    (hkeyed : ∀ h ∈ (((run E ids calls).step E (i, .answer id identity now
      drawn)).2.nodes i).log.canonicalRotations, h = rotationRef ∨
        ∃ pre, pre <+: calls ∧
          h ∈ ((run E ids pre).nodes i).keyring.records) :
    ∃ request : EpochKeyRequest,
      ((run E ids calls).nodes i).inboundEpochRequests[id]? = some request ∧
      EpochNode.Delivers E (((run E ids calls).step E (i, .answer id identity
        now drawn)).2.nodes i) identity.id request.requester rotationRef
        response := by
  rw [step_self] at hfull hkeyed ⊢
  have hone : (((run E ids calls).nodes i).answerEpochKey E
      (run E ids calls).traffic id identity now drawn).1 =
        .ok (rotationRef, response) := EpochOutcome.answered.inj hanswer
  refine EpochNode.answer_delivers hA hdh (kept_run calls) hwelcome hcount
    (Prod.ext hone rfl) hfull ?_
  intro h hh
  refine (hkeyed h hh).imp_right ?_
  rintro ⟨pre, hpre, hheld⟩
  exact held_of_prefix hdrops hpre hheld

/-- A test for `DropsNothing` in a network of one node: nothing held is off
the chain, and nothing is final. -/
def dropsCheck (net : EpochNetwork Unit) (_ : Unit × EpochCall E) : Bool :=
  let log := (net.nodes ()).log
  (net.nodes ()).keyring.records.toList.all fun held =>
    log.canonicalRotations.contains held.1 &&
      decide (held.2.status = .tentative) && !log.isFinal held.2.rotationRef

theorem dropsNothing_of_check (net : EpochNetwork Unit)
    (call : Unit × EpochCall E) (h : dropsCheck net call = true) :
    DropsNothing E () net call := by
  have hone : ∀ (held : Hash) record,
      (net.nodes ()).keyring.records[held]? = some record →
      (held ∈ (net.nodes ()).log.canonicalRotations ∧
        record.status = .tentative) ∧
        (net.nodes ()).log.isFinal record.rotationRef = false := by
    intro held record hrecord
    have hall := List.all_eq_true.1 h (held, record)
      ((BTreeMap.mem_toList_iff _ (held, record)).2 hrecord)
    simpa using hall
  intro _ _
  refine ⟨fun held hheld => ?_, fun older newer record _ _ hrecord => ?_⟩
  · obtain ⟨record, hrecord⟩ := (BTreeMap.mem_iff_exists _ _).1 hheld
    exact (hone held record hrecord).1.1
  · exact ⟨(hone newer record hrecord).1.2, (hone newer record hrecord).2⟩

/-- An archive network with quick finality. The founder keys identity 2 in,
admits identity 3, which asks, and reconciles its keys, with the clock
advanced before or not. -/
def archiveRun (advanced : List (EpochCall Sample.primitives)) :
    List (Unit × EpochCall Sample.primitives) :=
  let calls : List (EpochCall Sample.primitives) :=
    [.accept (Sample.genesis 1 { NetworkPolicy.conservativeDefault with
        finality := ⟨1, 10⟩
        historyAccess := .fullHistory } [.readContent]),
      .createGroup (Sample.identity 1) [],
      .accept (Sample.entry 2 (some 1) 10 1 (Sample.admits 2)),
      Sample.asks 2, Sample.answers 0 3,
      .accept (Sample.entry 4 (some 3) 20 1 (Sample.admits 3)),
      Sample.asks 3]
  (calls ++ (advanced ++ [EpochCall.reconcileKeys])).map ((), ·)

/-- What an answer sent, if the call was one and something went out. -/
def sent : EpochOutcome → Option (Hash × EpochKeyResponse)
  | .answered (.ok response) => some response
  | _ => none

theorem answered_of_sent {outcome : EpochOutcome} {rotationRef : Hash}
    (h : (sent outcome).map Prod.fst = some rotationRef) :
    ∃ response, outcome = .answered (.ok (rotationRef, response)) := by
  obtain ⟨⟨ref, response⟩, hsent, rfl⟩ := Option.map_eq_some_iff.1 h
  unfold sent at hsent
  split at hsent
  · cases hsent
    exact ⟨response, rfl⟩
  · cases hsent

/-- The network of one founder after the calls. -/
abbrev archive (calls : List (Unit × EpochCall Sample.primitives)) :
    EpochNetwork Unit := run Sample.primitives Sample.founder calls

/-- Identity 3 gets the key of the founding epoch and of the first rotation. -/
theorem full_history_delivered_archive : ∃ response,
    ∃ request : EpochKeyRequest, EpochNode.Delivers Sample.primitives
      (((archive (archiveRun [])).step Sample.primitives
        ((), Sample.answers 1 5)).2.nodes ()) (Sample.identity 1)
      request.requester (Sample.hash 5) response := by
  have hsent : (sent ((archive (archiveRun [])).step Sample.primitives
      ((), Sample.answers 1 5)).1).map Prod.fst = some (Sample.hash 5) := by
    decide +kernel
  obtain ⟨response, hanswer⟩ := answered_of_sent hsent
  obtain ⟨request, -, hdelivers⟩ := full_history_delivered Sample.founder
    (archiveRun []) () ⟨1⟩ (JoinNode.signer 1 5) ⟨20⟩ ⟨[1], [2]⟩
    (Sample.hash 5) response Sample.aead_lawful (fun _ _ => rfl)
    (Machine.along_of_check dropsNothing_of_check (by decide +kernel))
    (by decide) (by decide +kernel) hanswer (by decide +kernel) (by
      intro h hh
      have hall : ∀ h ∈ (((archive (archiveRun [])).step Sample.primitives
          ((), Sample.answers 1 5)).2.nodes ()).log.canonicalRotations,
          h = Sample.hash 5 ∨ h ∈ ((archive ((archiveRun []).take
            5)).nodes ()).keyring.records := by decide +kernel
      exact (hall h hh).imp_right fun hheld =>
        ⟨_, List.take_prefix 5 _, hheld⟩)
  exact ⟨response, request, hdelivers⟩

/-- Once the rotation of identity 2 is final, a reconciliation takes the key
of the founding epoch out, and identity 3 does not get it. -/
theorem history_pruned : ¬ ∀ (calls : List (Unit × EpochCall Sample.primitives))
    (id : EpochRequestId)
    (identity : PerNetworkIdentity Sample.primitives.crypto
      Sample.primitives.validKey) (now : Timestamp) (drawn : Sealed)
    (rotationRef : Hash) (response : EpochKeyResponse),
    ((archive calls).step Sample.primitives
      ((), .answer id identity now drawn)).1 =
        .answered (.ok (rotationRef, response)) →
    ((((archive calls).step Sample.primitives ((), .answer id identity now
      drawn)).2.nodes ()).governanceState Sample.primitives).map
        (fun s => s.policy.historyAccess) = some HistoryAccess.fullHistory →
    (∀ h ∈ (((archive calls).step Sample.primitives ((), .answer id identity
      now drawn)).2.nodes ()).log.canonicalRotations, h = rotationRef ∨
        ∃ pre, pre <+: calls ∧
          h ∈ ((archive pre).nodes ()).keyring.records) →
    ∃ request : EpochKeyRequest,
      ((archive calls).nodes ()).inboundEpochRequests[id]? = some request ∧
      EpochNode.Delivers Sample.primitives (((archive calls).step
        Sample.primitives ((), .answer id identity now drawn)).2.nodes ())
        identity.id request.requester rotationRef response := by
  intro hall
  have hsent : (sent ((archive (archiveRun [.advance ⟨100⟩])).step
      Sample.primitives ((), Sample.answers 1 5)).1).map Prod.fst =
        some (Sample.hash 5) := by
    decide +kernel
  obtain ⟨response, hanswer⟩ := answered_of_sent hsent
  obtain ⟨request, -, welcome, history, keys, -, -, -, hkeys, hcarried⟩ :=
    hall (archiveRun [.advance ⟨100⟩]) ⟨1⟩ (JoinNode.signer 1 5) ⟨20⟩
      ⟨[1], [2]⟩ (Sample.hash 5) response hanswer (by decide +kernel) (by
        intro h hh
        have hheld : ∀ h ∈ (((archive (archiveRun [.advance ⟨100⟩])).step
            Sample.primitives ((), Sample.answers 1
              5)).2.nodes ()).log.canonicalRotations, h = Sample.hash 5 ∨
            h ∈ ((archive ((archiveRun [.advance ⟨100⟩]).take
              5)).nodes ()).keyring.records := by decide +kernel
        exact (hheld h hh).imp_right fun hone =>
          ⟨_, List.take_prefix 5 _, hone⟩)
  have hfirst : Sample.hash 1 ∈ (((archive (archiveRun [.advance
      ⟨100⟩])).step Sample.primitives ((), Sample.answers 1
        5)).2.nodes ()).log.canonicalRotations := by decide +kernel
  rcases hcarried (Sample.hash 1) hfirst with heq | ⟨key, hkey⟩
  · exact absurd heq (by decide +kernel)
  · have hgone : (((archive (archiveRun [.advance ⟨100⟩])).step
        Sample.primitives ((), Sample.answers 1
          5)).2.nodes ()).keyring.keyFor (Sample.hash 1) = none := by
      decide +kernel
    have hheld := ((hkeys (Sample.hash 1) key).1 hkey).2
    rw [show (EpochCall.answer ⟨1⟩ (JoinNode.signer 1 5) ⟨20⟩ ⟨[1], [2]⟩ :
      EpochCall Sample.primitives) = Sample.answers 1 5 from rfl, hgone]
      at hheld
    cases hheld

end EpochNetwork

end Intranet
