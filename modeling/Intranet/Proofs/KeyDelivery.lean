import Intranet.Proofs.EpochNode

/-!
# Who is keyed in

A request for a key is screened when it arrives, and answered later without a
second look. So a requester who is answered held read-content at some moment,
and holds it at the answer if no step in between took it away
(`answered_reads`). Nothing rules such a step out: a removal, with the rotation
away from the member behind it, leaves the requests of that member held, and
the answer to one keys the member in again (`revoked_keyed_in`).
-/

namespace Intranet

/-- Whether an identity passes `may_serve` in the node's governance state. -/
def EpochNode.reads (E : EpochPrimitives) (node : EpochNode)
    (x : PerNetworkIdentityId) : Bool :=
  (node.governanceState E).any (PointerNode.mayServe x)

theorem EpochNode.reads_of_screen {E : EpochPrimitives} {node : EpochNode}
    {request : EpochKeyRequest} {peer : PerNetworkIdentityId}
    (h : node.screenEpochRequest E request peer = .ok ()) :
    node.reads E request.requester = true := by
  unfold screenEpochRequest at h
  split at h
  · cases h
  · split at h
    · cases h
    · next state hstate =>
      split at h
      · cases h
      · next hserve =>
        rw [reads, hstate]
        simpa using hserve

theorem EpochNode.receive_reads {E : EpochPrimitives} {node : EpochNode}
    {request : EpochKeyRequest} {peer x : PerNetworkIdentityId} :
    (node.receiveEpochRequest E request peer).2.reads E x = node.reads E x := by
  unfold receiveEpochRequest
  split <;> rfl

namespace EpochNetwork

variable {E : EpochPrimitives} {ι : Type} [DecidableEq ι] {i : ι}
  {net : EpochNetwork ι} {calls : List (ι × EpochCall E)}

/-- The step takes read-content from nobody whose request node `i` holds. -/
def KeepsReaders (E : EpochPrimitives) (i : ι) (net : EpochNetwork ι)
    (call : ι × EpochCall E) : Prop :=
  ∀ (id : EpochRequestId) request,
    (net.nodes i).inboundEpochRequests[id]? = some request →
    (net.nodes i).reads E request.requester = true →
    ((net.step E call).2.nodes i).reads E request.requester = true

/-- Everybody whose request node `i` holds may read. -/
def HeldRead (E : EpochPrimitives) (i : ι) (net : EpochNetwork ι) : Prop :=
  ∀ (id : EpochRequestId) request,
    (net.nodes i).inboundEpochRequests[id]? = some request →
    (net.nodes i).reads E request.requester = true

theorem heldRead_step (call : ι × EpochCall E) (hheld : HeldRead E i net)
    (hkeeps : KeepsReaders E i net call) :
    HeldRead E i (net.step E call).2 := by
  intro id request hreq
  by_cases hi : call.1 = i
  · subst hi
    have hafter := hreq
    rw [step_self] at hafter
    rcases EpochNode.handle_held hafter with hold | ⟨peer, hcall, hscreen⟩
    · exact hkeeps id request hold (hheld id request hold)
    · rw [step_self, hcall]
      change EpochNode.reads E (EpochNode.receiveEpochRequest E _ _ _).2 _ = true
      rw [EpochNode.receive_reads]
      exact EpochNode.reads_of_screen hscreen
  · rw [step_other hi] at hreq ⊢
    exact hheld id request hreq

theorem heldRead_run {ids : ι → PerNetworkIdentityId}
    (hkeeps : Machine.Along (step E) (KeepsReaders E i) (start ids) calls) :
    HeldRead E i (run E ids calls) := by
  refine Machine.guarded ?_ (fun net call => heldRead_step call) hkeeps
  intro id request hreq
  simp [start, EpochNode.new] at hreq

/-- Whoever is sent a Welcome may read, in a run that takes read-content from
nobody while their request is held: at the answer, and with the entry of the
answer appended. -/
theorem answered_reads (ids : ι → PerNetworkIdentityId)
    (calls : List (ι × EpochCall E)) (i : ι) (id : EpochRequestId)
    (identity : PerNetworkIdentity E.crypto E.validKey) (now : Timestamp)
    (drawn : Sealed) (rotationRef : Hash) (response : EpochKeyResponse)
    (hkeeps : Machine.Along (step E) (KeepsReaders E i) (start ids)
      (calls ++ [(i, .answer id identity now drawn)]))
    (h : ((run E ids calls).step E (i, .answer id identity now drawn)).1 =
      .answered (.ok (rotationRef, response))) :
    ∃ request : EpochKeyRequest,
      ((run E ids calls).nodes i).inboundEpochRequests[id]? = some request ∧
      ((run E ids calls).nodes i).reads E request.requester = true ∧
      (((run E ids calls).step E (i, .answer id identity now
        drawn)).2.nodes i).reads E request.requester = true := by
  obtain ⟨hpre, hlast⟩ := Machine.along_snoc.1 hkeeps
  have hheld := heldRead_run hpre
  have hanswer : (((run E ids calls).nodes i).answerEpochKey E
      (run E ids calls).traffic id identity now drawn).1 =
        .ok (rotationRef, response) := EpochOutcome.answered.inj h
  obtain ⟨request, -, -, -, -, hreq, -⟩ :=
    EpochNode.answer_ok (Prod.ext hanswer rfl)
  have hreads := hheld id request hreq
  exact ⟨request, hreq, hreads, hlast id request hreq hreads⟩

/-- A test for `KeepsReaders` in a network of one node. -/
def keepsCheck (net : EpochNetwork Unit) (call : Unit × EpochCall E) : Bool :=
  (net.nodes ()).inboundEpochRequests.toList.all fun held =>
    !(net.nodes ()).reads E held.2.requester ||
      ((net.step E call).2.nodes ()).reads E held.2.requester

theorem keepsReaders_of_check (net : EpochNetwork Unit)
    (call : Unit × EpochCall E) (h : keepsCheck net call = true) :
    KeepsReaders E () net call := by
  intro id request hreq hreads
  have hone := List.all_eq_true.1 h (id, request)
    ((BTreeMap.mem_toList_iff _ (id, request)).2 hreq)
  simpa [hreads] using hone

/-- The founder answers the first of two requests, before anything is taken
from anybody. -/
theorem answered_reads_founder : ∃ request : EpochKeyRequest,
    ((run Sample.primitives Sample.founder
      (Sample.revokedRun.take 5)).nodes ()).inboundEpochRequests[
        (⟨0⟩ : EpochRequestId)]? = some request ∧
    ((run Sample.primitives Sample.founder
      (Sample.revokedRun.take 5)).nodes ()).reads Sample.primitives
        request.requester = true := by
  obtain ⟨request, hreq, hreads, -⟩ := answered_reads Sample.founder
    (Sample.revokedRun.take 5) () ⟨0⟩ (JoinNode.signer 1 3) ⟨20⟩ ⟨[1], [2]⟩
    (Sample.hash 3) (.welcome [2] (Sample.hash 3) [])
    (Machine.along_of_check keepsReaders_of_check (by decide +kernel))
    (by decide +kernel)
  exact ⟨request, hreq, hreads⟩

/-- A member who was removed and rotated away from is sent a Welcome. -/
theorem revoked_keyed_in :
    ¬ ∀ (calls : List (Unit × EpochCall Sample.primitives))
    (id : EpochRequestId) identity now drawn rotationRef response request,
    ((run Sample.primitives Sample.founder calls).step Sample.primitives
      ((), .answer id identity now drawn)).1 =
        .answered (.ok (rotationRef, response)) →
    ((run Sample.primitives Sample.founder calls).nodes
      ()).inboundEpochRequests[id]? = some request →
    ((run Sample.primitives Sample.founder calls).nodes ()).reads
      Sample.primitives request.requester = true := by
  intro hall
  have hreads := hall Sample.revokedRun ⟨1⟩ (JoinNode.signer 1 6) ⟨20⟩
    ⟨[1], [2]⟩ (Sample.hash 6) (.welcome [2] (Sample.hash 6) [])
    ⟨Sample.identity 2, identityLabel (Sample.identity 2), Sample.signature 2 0⟩
    (by decide +kernel) (by decide +kernel)
  revert hreads
  decide +kernel

end EpochNetwork

end Intranet
