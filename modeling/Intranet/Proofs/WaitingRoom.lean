import Intranet.Lib.SubMap
import Intranet.Proofs.Join

/-!
# The ceiling on pre-admission arrivals

`screen_join` lets a request in only while fewer joiners wait under its
invite than the invite has uses left. The place itself is taken later, when
the request is answered, and nothing is compared then. Requests that arrived
while there was room are all seated, however many they are.

The room stays within the ceiling exactly when no answer comes too late:
whoever is seated would still have passed the screening at that moment
(`waiting_room_ceiling_iff`).
-/

namespace Intranet

/-! ## Taking a place -/

namespace WaitingRoom

variable {room : WaitingRoom} {identity : PerNetworkIdentityId}
  {provenance : InviteProvenance} {arrivedAt : Timestamp} {inviteId : Hash}

theorem arrivalsForInvite_eq_total (room : WaitingRoom) (inviteId : Hash) :
    room.arrivalsForInvite inviteId = BTreeMap.total (fun entry =>
      if entry.provenance.inviteId = inviteId then 1 else 0) room.occupants :=
  BTreeMap.length_filter_eq_total room.occupants fun entry =>
    entry.provenance.inviteId = inviteId

/-- A newcomer is one more for its own invite. -/
theorem arrivalsForInvite_seated (hnew : room.contains identity = false) :
    (room.admitToWaiting identity provenance arrivedAt).arrivalsForInvite
        inviteId =
      room.arrivalsForInvite inviteId +
        if provenance.inviteId = inviteId then 1 else 0 := by
  have hnone : room.occupants[identity]? = none := by
    rw [BTreeMap.getElem?_eq_none_iff]
    intro hmem
    rw [contains, Std.ExtTreeMap.contains_iff_mem.2 hmem] at hnew
    cases hnew
  have hout : ¬ room.occupants.contains identity = true := by
    rw [← contains, hnew]
    exact Bool.false_ne_true
  rw [admitToWaiting, if_neg hout, arrivalsForInvite_eq_total,
    arrivalsForInvite_eq_total, BTreeMap.total_insert_new hnone, Nat.add_comm]

/-- Whoever waits already keeps the place it has. -/
theorem admitToWaiting_of_contains (hold : room.contains identity = true) :
    room.admitToWaiting identity provenance arrivedAt = room := by
  rw [contains] at hold
  rw [admitToWaiting, if_pos hold]

end WaitingRoom

/-! ## Arrivals and answers -/

/-- What happens at a node's door. -/
inductive JoinCall (C : Crypto) (validKey : Bytes 32 → Bool) where
  | arrive (request : JoinRequest) (peer : PerNetworkIdentityId)
  | answer (id : JoinRequestId) (identity : PerNetworkIdentity C validKey)
      (now : Timestamp)
  | decline (id : JoinRequestId) (reason : JoinRefusal)

namespace JoinNode

variable {C : Crypto} {validKey : Bytes 32 → Bool} {node : JoinNode}
  {log : GovernanceLog} {s : GovernanceState} {i : Invite}

/-- The node after a call. -/
def handle (node : JoinNode) : JoinCall C validKey → JoinNode
  | .arrive request peer => (node.receiveJoin C request peer).2
  | .answer id identity now => (node.answerJoin C id identity now).2
  | .decline id reason => (node.declineJoin id reason).2

/-- A node over `log` after a sequence of calls. -/
def afterCalls (log : GovernanceLog) (calls : List (JoinCall C validKey)) :
    JoinNode :=
  calls.foldl handle (new log)

theorem afterCalls_snoc (calls : List (JoinCall C validKey))
    (c : JoinCall C validKey) :
    afterCalls log (calls ++ [c]) = (afterCalls log calls).handle c := by
  rw [afterCalls, List.foldl_append]
  rfl

/-- A request that passed the screening: on its own connection, from no
member, while there was room. -/
theorem screenJoin_ok_iff (hs : node.log.replayCanonical C = .ok s)
    {request : JoinRequest} {peer : PerNetworkIdentityId} :
    node.screenJoin C request peer = .ok () ↔
      request.joiner = peer ∧ s.isMember request.joiner = false ∧
        node.waitingRoom.arrivalsForInvite (request.invite.inviteId C) <
          request.invite.maxUses.toNat -
            s.inviteUseCount (request.invite.inviteId C) := by
  rw [screenJoin, governanceState, hs]
  dsimp only [Except.toOption]
  split
  · next hpeer =>
      refine iff_of_false (fun hok => ?_) fun hgiven => hpeer hgiven.1
      cases hok
  · next hpeer =>
      split
      · next hmember =>
          refine iff_of_false (fun hok => ?_) fun hgiven => ?_
          · cases hok
          · rw [hgiven.2.1] at hmember
            cases hmember
      · next hmember =>
          split
          · next hfull =>
              refine iff_of_false (fun hok => ?_) fun hgiven =>
                not_lt.2 hfull hgiven.2.2
              cases hok
          · next hroom =>
              refine iff_of_true rfl ⟨not_not.1 hpeer, ?_, not_le.1 hroom⟩
              simpa using hmember

/-- The answer takes a new place in the room: it is to a held request whose
invite is still valid, and the joiner does not wait yet. -/
def Seats (C : Crypto) (s : GovernanceState) (node : JoinNode)
    (id : JoinRequestId) (now : Timestamp) (request : JoinRequest) : Prop :=
  node.inboundJoins[id]? = some request ∧
    (∃ provenance, request.invite.validate C request.joiner s now =
      .ok provenance) ∧
    node.waitingRoom.contains request.joiner = false

/-- Under explicit intake a valid request is a place in the room. -/
theorem decideJoin_explicitIntake (hs : node.log.replayCanonical C = .ok s)
    (hmode : s.policy.admissionMode = .explicitIntake) (request : JoinRequest)
    (identity : PerNetworkIdentity C validKey) (now : Timestamp) :
    node.decideJoin C request identity now =
      match request.invite.validate C request.joiner s now with
      | .error _ => (.refused .inviteInvalid, node)
      | .ok provenance => (.waiting, { node with
          waitingRoom := node.waitingRoom.admitToWaiting request.joiner
            provenance now }) := by
  rw [decideJoin, governanceState, hs]
  dsimp only [Except.toOption]
  cases request.invite.validate C request.joiner s now with
  | error err => rfl
  | ok provenance =>
      dsimp only
      rw [hmode]

/-- An answer takes the request off the list, and gives the joiner of a valid
one its place. -/
theorem answerJoin_held (hs : node.log.replayCanonical C = .ok s)
    (hmode : s.policy.admissionMode = .explicitIntake) {id : JoinRequestId}
    {request : JoinRequest} (hheld : node.inboundJoins[id]? = some request)
    (identity : PerNetworkIdentity C validKey) (now : Timestamp) :
    (node.answerJoin C id identity now).2 =
      { node with
        inboundJoins := node.inboundJoins.erase id
        waitingRoom :=
          match request.invite.validate C request.joiner s now with
          | .error _ => node.waitingRoom
          | .ok provenance => node.waitingRoom.admitToWaiting request.joiner
              provenance now } := by
  have herased : ({ node with
      inboundJoins := node.inboundJoins.erase id }).log.replayCanonical C =
      .ok s := hs
  rw [answerJoin, hheld]
  dsimp only
  rw [decideJoin_explicitIntake herased hmode]
  cases request.invite.validate C request.joiner s now <;> rfl

/-- What an answer does to the room under explicit intake. -/
theorem answerJoin_room (hs : node.log.replayCanonical C = .ok s)
    (hmode : s.policy.admissionMode = .explicitIntake) (id : JoinRequestId)
    (identity : PerNetworkIdentity C validKey) (now : Timestamp) :
    (node.answerJoin C id identity now).2.log = node.log ∧
      ((∃ request, Seats C s node id now request ∧
          ∀ inviteId, (node.answerJoin C id identity
              now).2.waitingRoom.arrivalsForInvite inviteId =
            node.waitingRoom.arrivalsForInvite inviteId +
              if request.invite.inviteId C = inviteId then 1 else 0) ∨
        ((∀ request, ¬ Seats C s node id now request) ∧
          (node.answerJoin C id identity now).2.waitingRoom =
            node.waitingRoom)) := by
  cases hheld : node.inboundJoins[id]? with
  | none =>
      rw [answerJoin, hheld]
      refine ⟨rfl, .inr ⟨fun request hseats => ?_, rfl⟩⟩
      rw [hseats.1] at hheld
      cases hheld
  | some request =>
      have honly : ∀ r, Seats C s node id now r → r = request := by
        intro r hr
        have hsame := hr.1
        rw [hheld] at hsame
        exact (Option.some.inj hsame).symm
      rw [answerJoin_held hs hmode hheld]
      cases hvalid : request.invite.validate C request.joiner s now with
      | error err =>
          refine ⟨rfl, .inr ⟨fun r hseats => ?_, rfl⟩⟩
          obtain rfl := honly r hseats
          obtain ⟨-, ⟨provenance, hok⟩, -⟩ := hseats
          rw [hvalid] at hok
          cases hok
      | ok provenance =>
          obtain ⟨rfl, -⟩ := Invite.validate_ok hvalid
          refine ⟨rfl, ?_⟩
          cases hwaits : node.waitingRoom.contains request.joiner with
          | true =>
              refine .inr ⟨fun r hseats => ?_, ?_⟩
              · obtain rfl := honly r hseats
                have hout := hseats.2.2
                rw [hwaits] at hout
                cases hout
              · exact WaitingRoom.admitToWaiting_of_contains hwaits
          | false =>
              refine .inl ⟨request, ⟨hheld, ⟨_, hvalid⟩, hwaits⟩, fun inviteId => ?_⟩
              exact WaitingRoom.arrivalsForInvite_seated hwaits

/-! ## Whole runs -/

/-- The log stays, and what is held was screened: it came from no member, as
one of the arrivals. -/
structure Screened (log : GovernanceLog) (s : GovernanceState)
    (calls : List (JoinCall C validKey)) (node : JoinNode) : Prop where
  log_eq : node.log = log
  held : ∀ (id : JoinRequestId) request,
    node.inboundJoins[id]? = some request →
      s.isMember request.joiner = false ∧ ∃ peer, .arrive request peer ∈ calls

theorem Screened.mono {calls more : List (JoinCall C validKey)}
    (h : Screened log s calls node) (hsub : calls ⊆ more) :
    Screened log s more node :=
  ⟨h.log_eq, fun id request hheld => by
    obtain ⟨hmember, peer, hin⟩ := h.held id request hheld
    exact ⟨hmember, peer, hsub hin⟩⟩

/-- Taking requests off the list leaves the others as they were. -/
theorem Screened.erase {calls : List (JoinCall C validKey)}
    (h : Screened log s calls node) {next : JoinNode} (hlog : next.log = node.log)
    {id : JoinRequestId}
    (hheld : next.inboundJoins = node.inboundJoins.erase id) :
    Screened log s calls next := by
  refine ⟨hlog.trans h.log_eq, fun a request ha => h.held a request ?_⟩
  rw [hheld, BTreeMap.getElem?_erase_ite] at ha
  split at ha
  · cases ha
  · exact ha

theorem Screened.handle {calls : List (JoinCall C validKey)}
    (hs : log.replayCanonical C = .ok s)
    (hmode : s.policy.admissionMode = .explicitIntake)
    (h : Screened log s calls node) (c : JoinCall C validKey) :
    Screened log s (calls ++ [c]) (node.handle c) := by
  have hnode : node.log.replayCanonical C = .ok s := by
    rw [h.log_eq]
    exact hs
  have hmore := h.mono (List.subset_append_left calls [c])
  cases c with
  | arrive request peer =>
      rw [JoinNode.handle, receiveJoin]
      split
      · exact hmore
      · next hok =>
          obtain ⟨-, hmember, -⟩ := (screenJoin_ok_iff hnode).1 hok
          refine ⟨hmore.log_eq, fun id r hr => ?_⟩
          rw [BTreeMap.getElem?_insert_ite] at hr
          split at hr
          · cases hr
            exact ⟨hmember, peer, by simp⟩
          · exact hmore.held id r hr
  | answer id identity now =>
      cases hheld : node.inboundJoins[id]? with
      | none =>
          rw [JoinNode.handle, answerJoin, hheld]
          exact hmore
      | some request =>
          rw [JoinNode.handle, answerJoin_held hnode hmode hheld]
          exact hmore.erase rfl rfl
  | decline id reason =>
      rw [JoinNode.handle, declineJoin]
      split
      · exact hmore
      · exact hmore.erase rfl rfl

theorem screened_afterCalls (hs : log.replayCanonical C = .ok s)
    (hmode : s.policy.admissionMode = .explicitIntake)
    (calls : List (JoinCall C validKey)) :
    Screened log s calls (afterCalls log calls) := by
  induction calls using List.reverseRecOn with
  | nil =>
      refine ⟨rfl, fun id request hheld => ?_⟩
      simp [afterCalls, new] at hheld
  | append_singleton calls c ih =>
      rw [afterCalls_snoc]
      exact ih.handle hs hmode c

/-- Only answers change the room. -/
theorem waitingRoom_handle {c : JoinCall C validKey}
    (hc : ∀ id identity now, c ≠ .answer id identity now) :
    (node.handle c).waitingRoom = node.waitingRoom := by
  cases c with
  | arrive request peer =>
      rw [handle, receiveJoin]
      split <;> rfl
  | answer id identity now => exact absurd rfl (hc id identity now)
  | decline id reason =>
      rw [handle, declineJoin]
      split <;> rfl

/-- The places taken by an invite are within its remaining uses. -/
def WithinUses (C : Crypto) (log : GovernanceLog) (s : GovernanceState)
    (i : Invite) (calls : List (JoinCall C validKey)) : Prop :=
  (afterCalls log calls).waitingRoom.arrivalsForInvite (i.inviteId C) ≤
    i.maxUses.toNat - s.inviteUseCount (i.inviteId C)

/-- With one more place taken within the uses, the answer that took it was
given in time. -/
theorem timely_of_withinUses (hs : log.replayCanonical C = .ok s)
    (hmode : s.policy.admissionMode = .explicitIntake)
    {pre : List (JoinCall C validKey)} {id : JoinRequestId}
    {identity : PerNetworkIdentity C validKey} {now : Timestamp}
    {request : JoinRequest}
    (hroom : WithinUses C log s i (pre ++ [.answer id identity now]))
    (hseats : Seats C s (afterCalls log pre) id now request)
    (hinvite : request.invite = i) :
    (afterCalls log pre).screenJoin C request request.joiner = .ok () := by
  have hscreened : Screened log s pre (afterCalls log pre) :=
    screened_afterCalls hs hmode pre
  have hreplays : (afterCalls log pre).log.replayCanonical C = .ok s := by
    rw [hscreened.log_eq]
    exact hs
  obtain ⟨hmember, -⟩ := hscreened.held id request hseats.1
  refine (screenJoin_ok_iff hreplays).2 ⟨rfl, hmember, ?_⟩
  rw [WithinUses, afterCalls_snoc] at hroom
  obtain ⟨-, ⟨r, hr, hcount⟩ | ⟨hnone, -⟩⟩ :=
    answerJoin_room hreplays hmode id identity now
  · have hsame : r = request := by
      have hheld := hr.1
      rw [hseats.1] at hheld
      exact (Option.some.inj hheld).symm
    rw [handle, hcount, hsame, hinvite, if_pos rfl] at hroom
    rw [hinvite]
    omega
  · exact absurd hseats (hnone request)

/-- One call: only an answer takes a place, and one that is given in time takes
no more than there are. -/
theorem WithinUses.snoc (hs : log.replayCanonical C = .ok s)
    (hmode : s.policy.admissionMode = .explicitIntake)
    {pre : List (JoinCall C validKey)} {c : JoinCall C validKey}
    (hfree : ∀ request peer, .arrive request peer ∈ pre →
      request.invite.inviteId C = i.inviteId C → request.invite = i)
    (htimely : ∀ id identity now request, c = .answer id identity now →
      Seats C s (afterCalls log pre) id now request → request.invite = i →
        (afterCalls log pre).screenJoin C request request.joiner = .ok ())
    (h : WithinUses C log s i pre) : WithinUses C log s i (pre ++ [c]) := by
  have hscreened : Screened log s pre (afterCalls log pre) :=
    screened_afterCalls hs hmode pre
  have hreplays : (afterCalls log pre).log.replayCanonical C = .ok s := by
    rw [hscreened.log_eq]
    exact hs
  rw [WithinUses, afterCalls_snoc]
  by_cases hc : ∃ id identity now, c = .answer id identity now
  · obtain ⟨id, identity, now, rfl⟩ := hc
    obtain ⟨-, ⟨r, hr, hcount⟩ | ⟨-, hroom⟩⟩ :=
      answerJoin_room hreplays hmode id identity now
    · rw [handle, hcount]
      split
      · next hid =>
          obtain ⟨-, peer, harrived⟩ := hscreened.held id r hr.1
          have hinvite := hfree r peer harrived hid
          obtain ⟨-, -, hroom⟩ := (screenJoin_ok_iff hreplays).1
            (htimely id identity now r rfl hr hinvite)
          rw [hinvite] at hroom
          omega
      · exact h
    · rw [handle, hroom]
      exact h
  · rw [waitingRoom_handle fun id identity now heq =>
      hc ⟨id, identity, now, heq⟩]
    exact h

/-- Over a fixed state with explicit intake, the joiners that wait under an
invite stay within its remaining uses, in every state of a run of arrivals,
answers and refusals, if and only if every answer that seats a new joiner by
the invite is given while the request would still pass the screening. -/
theorem waiting_room_ceiling_iff (hs : log.replayCanonical C = .ok s)
    (hmode : s.policy.admissionMode = .explicitIntake)
    (calls : List (JoinCall C validKey))
    (hfree : ∀ request peer, .arrive request peer ∈ calls →
      request.invite.inviteId C = i.inviteId C → request.invite = i) :
    (∀ pre, pre <+: calls →
      (afterCalls log pre).waitingRoom.arrivalsForInvite (i.inviteId C) ≤
        i.maxUses.toNat - s.inviteUseCount (i.inviteId C)) ↔
    ∀ pre id identity now request, pre ++ [.answer id identity now] <+: calls →
      Seats C s (afterCalls log pre) id now request → request.invite = i →
        (afterCalls log pre).screenJoin C request request.joiner = .ok () := by
  constructor
  · intro hceiling pre id identity now request hpre hseats hinvite
    exact timely_of_withinUses hs hmode (hceiling _ hpre) hseats hinvite
  · intro htimely pre
    induction pre using List.reverseRecOn with
    | nil =>
        intro _
        exact Nat.zero_le _
    | append_singleton pre c ih =>
        intro hpre
        have hbefore := ih ((List.prefix_append pre [c]).trans hpre)
        refine WithinUses.snoc hs hmode (fun request peer harrived => ?_) ?_
          hbefore
        · exact hfree request peer
            (hpre.subset (List.mem_append_left _ harrived))
        · rintro id identity now request rfl
          exact htimely pre id identity now request hpre

/-! ### Two requests, one place -/

/-- The founder's network as it is founded: explicit intake, nobody admitted. -/
def closedDoor : GovernanceLog :=
  .run .sample [.insert (Sample.genesis 0 .conservativeDefault [])]

/-- One joiner arrives by the invite and is seated. -/
def oneSeated : List (JoinCall .sample fun _ => true) :=
  [.arrive (knock 5) (Sample.identity 5), .answer ⟨0⟩ (signer 1 9) ⟨10⟩]

/-- Two joiners arrive by the invite, and then both are answered. -/
def twoSeated : List (JoinCall .sample fun _ => true) :=
  [.arrive (knock 5) (Sample.identity 5), .arrive (knock 6) (Sample.identity 6),
    .answer ⟨0⟩ (signer 1 9) ⟨10⟩, .answer ⟨1⟩ (signer 1 9) ⟨10⟩]

theorem closedDoor_replays :
    ∃ s, closedDoor.replayCanonical .sample = .ok s ∧
      s.policy.admissionMode = .explicitIntake ∧
      s.inviteUseCount (bearerInvite.inviteId .sample) = 0 := by
  have hcheck : Run.okAnd (closedDoor.replayCanonical .sample) (fun s =>
      decide (s.policy.admissionMode = .explicitIntake) &&
        decide (s.inviteUseCount (bearerInvite.inviteId .sample) = 0)) =
        true := by
    decide +kernel
  obtain ⟨s, hs, hcheck⟩ := Run.okAnd_iff.1 hcheck
  simp only [Bool.and_eq_true, decide_eq_true_eq] at hcheck
  exact ⟨s, hs, hcheck⟩

/-- The one joiner of `oneSeated` was answered while it still had room. -/
theorem waiting_room_ceiling_iff_one :
    ∃ s, closedDoor.replayCanonical .sample = .ok s ∧
      ∀ pre, pre <+: oneSeated → ∀ id identity now request,
        pre ++ [.answer id identity now] <+: oneSeated →
        Seats .sample s (afterCalls closedDoor pre) id now request →
        request.invite = bearerInvite →
          (afterCalls closedDoor pre).screenJoin .sample request
            request.joiner = .ok () := by
  obtain ⟨s, hs, hmode, hunused⟩ := closedDoor_replays
  refine ⟨s, hs, fun pre _ => (waiting_room_ceiling_iff hs hmode oneSeated ?_).1
    ?_ pre⟩
  · intro request peer hin _
    simp only [oneSeated, List.mem_cons, JoinCall.arrive.injEq, reduceCtorEq,
      List.not_mem_nil, or_false] at hin
    rw [hin.1]
    rfl
  · have hall : ∀ pre ∈ oneSeated.inits,
        (afterCalls closedDoor pre).waitingRoom.arrivalsForInvite
          (bearerInvite.inviteId .sample) ≤ 1 := by
      decide +kernel
    intro pre hpre
    rw [hunused]
    exact hall pre ((List.mem_inits _ _).2 hpre)

/-- The invite is for one, and both joiners wait under it. -/
theorem waiting_room_over_ceiling :
    ∃ s, closedDoor.replayCanonical .sample = .ok s ∧
      s.policy.admissionMode = .explicitIntake ∧
      bearerInvite.maxUses.toNat -
          s.inviteUseCount (bearerInvite.inviteId .sample) <
        (afterCalls closedDoor twoSeated).waitingRoom.arrivalsForInvite
          (bearerInvite.inviteId .sample) := by
  obtain ⟨s, hs, hmode, hunused⟩ := closedDoor_replays
  refine ⟨s, hs, hmode, ?_⟩
  rw [hunused]
  decide +kernel

end JoinNode

end Intranet
