import Intranet.Proofs.WaitingRoom

/-!
# Presenting an invite again

The room keeps the entry of whoever comes back, arrival time included, and an
invite that was valid is valid until it expires. The door is where a returning
joiner is treated as a new one: the ceiling counts who waits under the invite,
and does not leave out the one who is asking. A joiner that took the last
place is turned away from it (`resent_keeps_place_iff`).
-/

namespace Intranet

/-- Within its dates, an invite stays as valid as it was. -/
theorem Invite.validate_within {C : Crypto} {i : Invite}
    {presenter : PerNetworkIdentityId} {state : GovernanceState}
    {now later : Timestamp} {provenance : InviteProvenance}
    (hvalid : i.validate C presenter state now = .ok provenance)
    (hdates : i.issuedAt.millis ≤ later.millis ∧
      later.millis ≤ i.expiresAt.millis) :
    i.validate C presenter state later = .ok provenance := by
  obtain ⟨hsigned, hnetwork, hreachable, -, -, huse⟩ :=
    validate_ok_iff.1 hvalid
  exact validate_ok_iff.2 ⟨hsigned, hnetwork, hreachable,
    Int64.not_lt.2 hdates.1, Int64.not_lt.2 hdates.2, huse⟩

namespace WaitingRoom

variable {room : WaitingRoom} {identity joiner : PerNetworkIdentityId}
  {provenance : InviteProvenance} {arrivedAt : Timestamp}

theorem contains_admitToWaiting (h : room.contains joiner = true) :
    (room.admitToWaiting identity provenance arrivedAt).contains joiner =
      true := by
  rw [admitToWaiting]
  split
  · exact h
  · rw [contains, Std.ExtTreeMap.contains_insert, ← contains, h, Bool.or_true]

theorem contains_admitToWaiting_self :
    (room.admitToWaiting identity provenance arrivedAt).contains identity =
      true := by
  rw [admitToWaiting]
  split
  · next h => exact h
  · exact Std.ExtTreeMap.contains_insert_self

end WaitingRoom

namespace JoinNode

variable {C : Crypto} {validKey : Bytes 32 → Bool} {node : JoinNode}
  {s : GovernanceState}

/-! ## What other calls leave alone -/

/-- Under explicit intake no call appends to the log, and nobody loses a
place. -/
theorem handle_keeps (hs : node.log.replayCanonical C = .ok s)
    (hmode : s.policy.admissionMode = .explicitIntake)
    (c : JoinCall C validKey) :
    (node.handle c).log = node.log ∧
      ∀ joiner, node.waitingRoom.contains joiner = true →
        (node.handle c).waitingRoom.contains joiner = true := by
  cases c with
  | arrive request peer =>
      rw [handle, receiveJoin]
      split <;> exact ⟨rfl, fun _ h => h⟩
  | answer id identity now =>
      cases hheld : node.inboundJoins[id]? with
      | none =>
          rw [handle, answerJoin, hheld]
          exact ⟨rfl, fun _ h => h⟩
      | some request =>
          rw [handle, answerJoin_held hs hmode hheld]
          refine ⟨rfl, fun joiner hjoiner => ?_⟩
          dsimp only
          split
          · exact hjoiner
          · exact WaitingRoom.contains_admitToWaiting hjoiner
  | decline id reason =>
      rw [handle, declineJoin]
      split <;> exact ⟨rfl, fun _ h => h⟩

theorem foldl_handle_keeps (hs : node.log.replayCanonical C = .ok s)
    (hmode : s.policy.admissionMode = .explicitIntake)
    (calls : List (JoinCall C validKey)) :
    (calls.foldl handle node).log = node.log ∧
      ∀ joiner, node.waitingRoom.contains joiner = true →
        (calls.foldl handle node).waitingRoom.contains joiner = true := by
  induction calls generalizing node with
  | nil => exact ⟨rfl, fun _ => id⟩
  | cons c calls ih =>
      obtain ⟨hlog, hroom⟩ := handle_keeps hs hmode c
      have hs' : (node.handle c).log.replayCanonical C = .ok s := by rwa [hlog]
      obtain ⟨hrest, hplaces⟩ := ih hs'
      rw [List.foldl_cons]
      exact ⟨hrest.trans hlog, fun joiner h => hplaces joiner (hroom joiner h)⟩

/-! ## The same request once more -/

/-- The request is sent to the node again, by its joiner, and answered under
the id it got: it passes the screening, the answer is `Waiting`, and the room
is the one it was. -/
def KeepsPlace (C : Crypto) {validKey : Bytes 32 → Bool} (node : JoinNode)
    (request : JoinRequest) (identity : PerNetworkIdentity C validKey)
    (now : Timestamp) : Prop :=
  node.screenJoin C request request.joiner = .ok () ∧
    let answered := (node.receiveJoin C request request.joiner).2.answerJoin C
      ⟨node.nextJoinRequest⟩ identity now
    answered.1.toOption = some .waiting ∧
      answered.2.waitingRoom = node.waitingRoom

/-- A joiner that waits and gets past the door is answered as before. -/
theorem keepsPlace_of_screened (hs : node.log.replayCanonical C = .ok s)
    (hmode : s.policy.admissionMode = .explicitIntake) {request : JoinRequest}
    (hscreened : node.screenJoin C request request.joiner = .ok ())
    (hplace : node.waitingRoom.contains request.joiner = true)
    {now : Timestamp} {provenance : InviteProvenance}
    (hvalid : request.invite.validate C request.joiner s now = .ok provenance)
    (identity : PerNetworkIdentity C validKey) :
    KeepsPlace C node request identity now := by
  refine ⟨hscreened, ?_⟩
  have hafter : ∀ joins next, (⟨node.log, node.waitingRoom, joins, next⟩ :
      JoinNode).log.replayCanonical C = .ok s := fun _ _ => hs
  have hreceived : (node.receiveJoin C request request.joiner).2 =
      { node with
        inboundJoins := node.inboundJoins.insert ⟨node.nextJoinRequest⟩ request
        nextJoinRequest := node.nextJoinRequest + 1 } := by
    rw [receiveJoin, hscreened]
  rw [hreceived, answerJoin]
  dsimp only
  rw [BTreeMap.getElem?_insert_ite, if_pos rfl]
  dsimp only
  rw [decideJoin_explicitIntake (hafter _ _) hmode, hvalid]
  exact ⟨rfl, WaitingRoom.admitToWaiting_of_contains hplace⟩

/-- What an answer of `Waiting` says under explicit intake: the invite is
valid, and the joiner has a place. -/
theorem waiting_answered (hs : node.log.replayCanonical C = .ok s)
    (hmode : s.policy.admissionMode = .explicitIntake) {id : JoinRequestId}
    {request : JoinRequest} (hheld : node.inboundJoins[id]? = some request)
    {identity : PerNetworkIdentity C validKey} {now : Timestamp}
    (hwaiting : (node.answerJoin C id identity now).1.toOption = some .waiting) :
    (∃ provenance, request.invite.validate C request.joiner s now =
      .ok provenance) ∧
      (node.answerJoin C id identity now).2.log = node.log ∧
      (node.answerJoin C id identity now).2.waitingRoom.contains
        request.joiner = true := by
  have hafter : ∀ joins, (⟨node.log, node.waitingRoom, joins,
      node.nextJoinRequest⟩ : JoinNode).log.replayCanonical C = .ok s :=
    fun _ => hs
  rw [answerJoin, hheld] at hwaiting
  dsimp only at hwaiting
  rw [decideJoin_explicitIntake (hafter _) hmode] at hwaiting
  rw [answerJoin_held hs hmode hheld]
  cases hvalid : request.invite.validate C request.joiner s now with
  | error err =>
      rw [hvalid] at hwaiting
      cases hwaiting
  | ok provenance =>
      exact ⟨⟨provenance, rfl⟩, rfl, WaitingRoom.contains_admitToWaiting_self⟩

/-- A joiner was answered `Waiting` under explicit intake, whoever else came
and was answered since, and the governance state and the dates of the invite
still stand. Sending the same request again keeps it its place, with nothing
changed, if and only if the joiner is no member and fewer joiners wait under
the invite, itself included, than the invite has uses left. -/
theorem resent_keeps_place_iff (hs : node.log.replayCanonical C = .ok s)
    (hmode : s.policy.admissionMode = .explicitIntake) {id : JoinRequestId}
    {request : JoinRequest} (hheld : node.inboundJoins[id]? = some request)
    {identity : PerNetworkIdentity C validKey} {now : Timestamp}
    (hwaiting : (node.answerJoin C id identity now).1.toOption = some .waiting)
    (calls : List (JoinCall C validKey)) {later : JoinNode}
    (hlater : later = calls.foldl handle (node.answerJoin C id identity now).2)
    (again : PerNetworkIdentity C validKey) {afterwards : Timestamp}
    (hdates : request.invite.issuedAt.millis ≤ afterwards.millis ∧
      afterwards.millis ≤ request.invite.expiresAt.millis) :
    KeepsPlace C later request again afterwards ↔
      s.isMember request.joiner = false ∧
        later.waitingRoom.arrivalsForInvite (request.invite.inviteId C) <
          request.invite.maxUses.toNat -
            s.inviteUseCount (request.invite.inviteId C) := by
  obtain ⟨⟨provenance, hvalid⟩, hlog, hplace⟩ :=
    waiting_answered hs hmode hheld hwaiting
  have hanswered : (node.answerJoin C id identity now).2.log.replayCanonical C =
      .ok s := by
    rwa [hlog]
  obtain ⟨hlogs, hplaces⟩ := foldl_handle_keeps hanswered hmode calls
  rw [← hlater] at hlogs hplaces
  have hreplays : later.log.replayCanonical C = .ok s := by
    rwa [hlogs]
  constructor
  · intro hkeeps
    exact ((screenJoin_ok_iff hreplays).1 hkeeps.1).2
  · intro hroom
    exact keepsPlace_of_screened hreplays hmode
      ((screenJoin_ok_iff hreplays).2 ⟨rfl, hroom⟩)
      (hplaces request.joiner hplace)
      (Invite.validate_within hvalid hdates) again

/-! ### One place and two -/

/-- The founder's invite, for two. -/
def knockForTwo (n : ℕ) : JoinRequest :=
  { knock n with invite := { bearerInvite with maxUses := 2 } }

/-- A request arrives at the founder's closed door. -/
def arrival (request : JoinRequest) : JoinCall .sample fun _ => true :=
  .arrive request request.joiner

/-- The founder holds one request. -/
def holding (request : JoinRequest) : JoinNode :=
  afterCalls closedDoor [arrival request]

/-- The joiner waits, and another has arrived by the same invite. -/
theorem resent_keeps_place_for_two :
    KeepsPlace .sample
      ([arrival (knockForTwo 6)].foldl handle
        ((holding (knockForTwo 5)).answerJoin .sample ⟨0⟩ (signer 1 9) ⟨10⟩).2)
      (knockForTwo 5) (signer 1 9) ⟨20⟩ := by
  have hcheck : Run.okAnd (closedDoor.replayCanonical .sample) (fun s =>
      decide (s.policy.admissionMode = .explicitIntake) &&
        (!s.isMember (knockForTwo 5).joiner &&
        decide (s.inviteUseCount ((knockForTwo 5).invite.inviteId .sample) =
          0))) = true := by
    decide +kernel
  obtain ⟨s, hs, hcheck⟩ := Run.okAnd_iff.1 hcheck
  simp only [Bool.and_eq_true, decide_eq_true_eq, Bool.not_eq_true'] at hcheck
  obtain ⟨hmode, hmember, hunused⟩ := hcheck
  have hlog : (holding (knockForTwo 5)).log.replayCanonical .sample = .ok s := by
    rw [holding, (screened_afterCalls hs hmode _).log_eq]
    exact hs
  refine (resent_keeps_place_iff hlog hmode ?_ ?_ [arrival (knockForTwo 6)]
    rfl _ ?_).2 ⟨hmember, ?_⟩
  · decide +kernel
  · decide +kernel
  · decide
  · rw [hunused]
    decide +kernel

/-- The invite is for one, and who took its place is turned away. -/
theorem last_place_turned_away :
    ∃ s : GovernanceState,
      (holding (knock 5)).log.replayCanonical .sample = .ok s ∧
      s.policy.admissionMode = .explicitIntake ∧
      s.isMember (knock 5).joiner = false ∧
      (holding (knock 5)).inboundJoins[(⟨0⟩ : JoinRequestId)]? =
        some (knock 5) ∧
      ((holding (knock 5)).answerJoin .sample ⟨0⟩ (signer 1 9)
        ⟨10⟩).1.toOption = some .waiting ∧
      ¬ KeepsPlace .sample
        ((holding (knock 5)).answerJoin .sample ⟨0⟩ (signer 1 9) ⟨10⟩).2
        (knock 5) (signer 1 9) ⟨20⟩ := by
  have hcheck : Run.okAnd (closedDoor.replayCanonical .sample) (fun s =>
      decide (s.policy.admissionMode = .explicitIntake) &&
        !s.isMember (knock 5).joiner) = true := by
    decide +kernel
  obtain ⟨s, hs, hcheck⟩ := Run.okAnd_iff.1 hcheck
  simp only [Bool.and_eq_true, decide_eq_true_eq, Bool.not_eq_true'] at hcheck
  obtain ⟨hmode, hmember⟩ := hcheck
  have hrefused : ((holding (knock 5)).answerJoin .sample ⟨0⟩ (signer 1 9)
      ⟨10⟩).2.screenJoin .sample (knock 5) (knock 5).joiner =
        .error .inviteCeiling := by
    decide +kernel
  refine ⟨s, ?_, hmode, hmember, ?_, ?_, fun hkeeps => ?_⟩
  · rw [holding, (screened_afterCalls hs hmode _).log_eq]
    exact hs
  · decide +kernel
  · decide +kernel
  · rw [KeepsPlace, hrefused] at hkeeps
    exact absurd hkeeps.1 (by simp)

end JoinNode

end Intranet
