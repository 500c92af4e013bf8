import Intranet.Proofs.Escalation
import Intranet.Proofs.Finality
import Intranet.Proofs.Unauthorized
import Intranet.Ref.Join

/-!
# What a join answer is worth

Under auto-admit `decide_join` signs a membership entry on top of the
canonical chain and reports the joiner admitted once the log has taken it.
The log takes any well-formed entry. Whether the answering node may admit is
decided by replay, which nobody asks before the answer goes out, although the
comment at the insert says that an unauthorized node gets a refusal there.

An entry on the canonical tip extends the canonical chain, because it is
gated and adds to its weight (`canonicalChain_grow`). So the answer is
truthful when the answering identity holds `manage-membership:everyone`, and
otherwise the node has just appended an entry that its own chain no longer
replays past (`join_answer_truthful_iff`).
-/

namespace Intranet

/-! ## An entry on the canonical tip -/

namespace GovernanceLog

variable {C : Crypto} {log : GovernanceLog} {e : LogEntry} {h t : Hash}

theorem Wf.ancestry_getLast? (hwf : Wf C log) (h : Hash) :
    (log.ancestry h).getLast? = some h := by
  cases hp : log.parentOf h with
  | none => rw [ancestry_none hp, List.getLast?_singleton]
  | some p => rw [hwf.ancestry_some hp, List.getLast?_concat]

theorem root_of_canonicalChain (h : log.canonicalChain ≠ []) :
    ∃ root, log.root = some root := by
  cases hroot : log.root with
  | none =>
      rw [canonicalChain, hroot] at h
      exact absurd rfl h
  | some root => exact ⟨root, rfl⟩

/-- The tip of the canonical chain is a leaf, so an entry on it is new, and
the log takes it. -/
theorem Wf.accepts_on_tip (hwf : Wf C log)
    (hfree : ∀ x, log.Stored x → x.hash C = e.hash C → x = e)
    (hne : log.canonicalChain ≠ [])
    (hp : e.parent = log.canonicalChain.getLast?)
    (hsigned : e.verifySignature C = .ok ()) :
    e.hash C ∉ log.entries ∧ log.Accepts C e := by
  obtain ⟨root, hroot⟩ := root_of_canonicalChain hne
  obtain ⟨t, htleaf, hchain, -⟩ := hwf.canonicalChain_tip (hwf.root_mem hroot)
  rw [hchain, hwf.ancestry_getLast?] at hp
  refine ⟨fun hmem => ?_, hsigned, ?_⟩
  · obtain ⟨x, hx⟩ := (BTreeMap.mem_iff_exists _ _).1 hmem
    have hxe : x = e := hfree x ⟨_, hx⟩ (hwf.keyed _ _ hx)
    refine htleaf.2 (e.hash C) ?_
    rw [parentOf_of_getElem? hx, hxe, hp]
  · rw [hp]
    exact htleaf.1

/-- One more gated entry outweighs every branch its parent outranked. -/
theorem standing_lt_joinStanding {l : Hash} (hgated : e.isCapabilityGated = true)
    (hle : log.standing l ≤ log.standing t) :
    log.standing l < log.joinStanding C e t := by
  rw [standing, standing, Prod.Lex.toLex_le_toLex] at hle
  rw [standing, joinStanding, Prod.Lex.toLex_lt_toLex, if_pos hgated]
  refine .inl ?_
  dsimp only at hle ⊢
  rcases hle with hlt | ⟨heq, -⟩
  · omega
  · omega

/-- A gated entry on the canonical tip extends the canonical chain. -/
theorem Wf.canonicalChain_grow (hwf : Wf C log)
    (hwf' : Wf C (log.inserted C e)) (hnew : e.hash C ∉ log.entries)
    (hlen : log.len + 1 < 2 ^ 32) (hne : log.canonicalChain ≠ [])
    (hp : e.parent = log.canonicalChain.getLast?)
    (hgated : e.isCapabilityGated = true) :
    (log.inserted C e).canonicalChain =
      log.canonicalChain ++ [e.hash C] := by
  obtain ⟨root, hroot⟩ := root_of_canonicalChain hne
  obtain ⟨t, htleaf, hteligible, hchain, hbest⟩ :=
    hwf.canonicalChain_eligible (by omega) hroot
  rw [hchain, hwf.ancestry_getLast?] at hp
  have hext := extends_inserted hnew
  have hlen' : (log.inserted C e).len < 2 ^ 32 := by
    rw [len_inserted hnew]
    exact hlen
  obtain ⟨root', hroot'⟩ := hwf'.root_isSome (hext.mem htleaf.1)
  obtain ⟨t', ht'leaf, ht'eligible, hchain', hbest'⟩ :=
    hwf'.canonicalChain_eligible hlen' hroot'
  -- the new entry is below the finalized one, since its parent is
  have heligible : (log.inserted C e).Eligible (e.hash C) := by
    intro f hf
    rw [inserted_finalized] at hf
    refine .trans ((hext.above_iff hwf hwf' htleaf.1).2 (hteligible f hf)) ?_
    refine Walk.above_iff.2 (.inr ⟨t, ?_, .refl t⟩)
    rw [parentOf_inserted, if_pos rfl, hp]
  have hleaf := (hwf.leaf_inserted hnew hp htleaf.1 (l := e.hash C)).2 (.inl rfl)
  have htop := hbest' _ hleaf heligible
  rcases (hwf.leaf_inserted hnew hp htleaf.1).1 ht'leaf with rfl | ⟨hold, -⟩
  · rw [hchain', ancestry_inserted hwf hwf' hnew hp htleaf.1, hchain]
  · refine absurd htop (not_le.2 ?_)
    rw [standing_inserted hwf hwf' hnew hp htleaf.1,
      hext.standing_eq hwf hwf' hold.1]
    refine standing_lt_joinStanding hgated (hbest t' hold fun f hf => ?_)
    refine (hext.above_iff hwf hwf' hold.1).1 (ht'eligible f ?_)
    rw [inserted_finalized, hf]

/-- The entries replay goes through. -/
def canonicalEntries (log : GovernanceLog) : List LogEntry :=
  log.canonicalChain.filterMap fun hash => log.entries[hash]?

theorem canonicalChain_ne_nil {s : GovernanceState}
    (hs : log.replayCanonical C = .ok s) : log.canonicalChain ≠ [] := by
  intro hnil
  rw [replayCanonical, hnil] at hs
  cases hs

theorem canonicalEntries_ne_nil {s : GovernanceState}
    (hs : log.replayCanonical C = .ok s) : log.canonicalEntries ≠ [] := by
  intro hnil
  have hs : GovernanceState.replay C log.canonicalEntries = .ok s := hs
  rw [hnil] at hs
  cases hs

/-- A new entry is not on the old chain. -/
theorem Wf.canonicalEntries_inserted (hwf : Wf C log)
    (hnew : e.hash C ∉ log.entries) :
    log.canonicalChain.filterMap (fun hash => (log.inserted C e).entries[hash]?) =
      log.canonicalEntries := by
  refine List.filterMap_congr fun a ha => ?_
  exact (extends_inserted hnew).getElem?_eq (hwf.mem_of_canonical ha)

theorem Wf.canonicalEntries_grow (hwf : Wf C log)
    (hnew : e.hash C ∉ log.entries)
    (hgrow : (log.inserted C e).canonicalChain =
      log.canonicalChain ++ [e.hash C]) :
    (log.inserted C e).canonicalEntries = log.canonicalEntries ++ [e] := by
  rw [canonicalEntries, hgrow, List.filterMap_append,
    hwf.canonicalEntries_inserted hnew, List.filterMap_cons,
    getElem?_inserted_self, List.filterMap_nil]

/-- What replays after an entry on the canonical tip. -/
theorem Wf.replayCanonical_grow (hwf : Wf C log) (hnew : e.hash C ∉ log.entries)
    (hgrow : (log.inserted C e).canonicalChain =
      log.canonicalChain ++ [e.hash C]) {s s' : GovernanceState}
    (hs : log.replayCanonical C = .ok s) :
    (log.inserted C e).replayCanonical C = .ok s' ↔ s.apply C e = .ok s' := by
  have hne := canonicalEntries_ne_nil hs
  have hs : GovernanceState.replay C log.canonicalEntries = .ok s := hs
  change GovernanceState.replay C (log.inserted C e).canonicalEntries = .ok s' ↔ _
  rw [hwf.canonicalEntries_grow hnew hgrow, GovernanceState.replay_snoc hne, hs]
  constructor
  · intro hgiven
    obtain ⟨m, hm, happ⟩ := hgiven
    cases hm
    exact happ
  · intro happ
    exact ⟨s, rfl, happ⟩

end GovernanceLog

/-! ## Admitting to `everyone` -/

namespace GovernanceState

variable {C : Crypto} {s s' : GovernanceState} {e : LogEntry}

theorem mem_groups_of_mutate (h : s.mutate C e = .ok s') {g : GroupId}
    (hg : g ∈ s.groups) : g ∈ s'.groups := by
  by_cases hdefine : ∃ g caps, e.body = .defineGroup g caps
  · obtain ⟨g', caps, hbody⟩ := hdefine
    rw [mutate, hbody] at h
    cases h
    exact (BTreeMap.mem_insert_iff _ _ _ _).2 (.inr hg)
  by_cases hmember : ∃ g id action, e.body = .membershipChange g id action
  · obtain ⟨g', id, action, hbody⟩ := hmember
    obtain ⟨group, members, -, -, rfl⟩ := mutate_membershipChange h hbody
    exact (BTreeMap.mem_insert_iff _ _ _ _).2 (.inr hg)
  rw [mutate_groups h (fun g caps hb => hdefine ⟨g, caps, hb⟩)
    fun g id action hb => hmember ⟨g, id, action, hb⟩]
  exact hg

theorem genesis_everyone {s₀ : GovernanceState} (h : genesis C e = .ok s₀) :
    GroupId.everyone ∈ s₀.groups ∧ s₀.checkPolicyCoherence = .ok () := by
  unfold genesis at h
  obtain ⟨_, -, h⟩ := Run.bind_ok.1 h
  dsimp only at h
  split at h
  · cases h
  · split at h
    · obtain ⟨_, -, h⟩ := Run.bind_ok.1 h
      obtain ⟨_, hcoherent, h⟩ := Run.bind_ok.1 h
      cases h
      exact ⟨(BTreeMap.mem_insert_iff _ _ _ _).2 (.inl rfl), hcoherent⟩
    · cases h

/-- A replayed state has its `everyone`, and a policy that passes the
coherence check. -/
theorem replay_everyone {chain : List LogEntry} (h : replay C chain = .ok s) :
    GroupId.everyone ∈ s.groups ∧ s.checkPolicyCoherence = .ok () := by
  refine replay_history (P := fun _ s => GroupId.everyone ∈ s.groups ∧
    s.checkPolicyCoherence = .ok ()) ?_ ?_ h
  · intro first s₀ hgen
    exact genesis_everyone hgen
  · intro pre s e s' _ ih happ
    have haccepted := apply_ok happ
    exact ⟨mem_groups_of_mutate haccepted.mutated ih.1, haccepted.coherent⟩

/-- Auto-admit rules member-vote out. -/
theorem capabilityHolders_of_autoAdmit
    (hcoherent : s.checkPolicyCoherence = .ok ())
    (hmode : s.policy.admissionMode = .autoAdmit) :
    s.policy.governanceModel = .capabilityHolders := by
  rw [checkPolicyCoherence, hmode] at hcoherent
  cases hmodel : s.policy.governanceModel with
  | capabilityHolders => rfl
  | memberVote electorate quorum window =>
      rw [hmodel] at hcoherent
      cases hcoherent

/-- An admission to `everyone` is accepted exactly when its author may manage
that group, in a state that takes admissions without a vote. -/
theorem apply_admission {chain : List LogEntry} (hs : replay C chain = .ok s)
    (hmodel : s.policy.governanceModel = .capabilityHolders)
    (hsigned : e.verifySignature C = .ok ()) (hparent : e.parent.isSome)
    {joiner : PerNetworkIdentityId} {via : Option InviteProvenance}
    (hbody : e.body = .membershipChange GroupId.everyone joiner (.add via)) :
    (∃ s', s.apply C e = .ok s') ↔
      s.identityHolds e.author (.manageMembership GroupId.everyone) = true := by
  obtain ⟨hmem, hcoherent⟩ := replay_everyone hs
  obtain ⟨group, hgroup⟩ := (BTreeMap.mem_iff_exists _ _).1 hmem
  constructor
  · intro hgiven
    obtain ⟨s', happ⟩ := hgiven
    exact apply_add_holds hmodel hbody happ
  · intro hholds
    have hcontains : s.groups.contains GroupId.everyone = true := hmem
    have hrequired : s.requiredCapability C e =
        .ok (some (.manageMembership GroupId.everyone)) := by
      simp [requiredCapability, hbody, hcontains, hmodel]
    have hauth : s.authorize C e = .ok () := by
      simp only [authorize, hrequired]
      rw [if_pos hholds]
    refine ⟨{ s with groups := s.groups.insert GroupId.everyone { group with
      members := group.members.insert joiner ⟨some e.author, e.timestamp, via⟩ } },
      Accepted.apply ⟨hsigned, ?_, hparent, hauth, ?_, ?_, hcoherent⟩⟩
    · rw [hbody]
      rfl
    · rw [mutate, hbody]
      dsimp only
      rw [hgroup]
    · refine (SameCapabilities.checkEveryoneInvariant_eq
        (sameCapabilities_insert hgroup _) rfl ?_).trans (replay_ceiling hs)
      rw [Std.ExtTreeMap.size_insert, if_pos hcontains]

/-- And then the joiner is in. -/
theorem inGroup_of_admission (h : s.apply C e = .ok s') {g : GroupId}
    {joiner : PerNetworkIdentityId} {via : Option InviteProvenance}
    (hbody : e.body = .membershipChange g joiner (.add via)) :
    s'.inGroup g joiner = true := by
  have hmut := (apply_ok h).mutated
  rw [mutate, hbody] at hmut
  dsimp only at hmut
  split at hmut
  · cases hmut
  · next target hgroup =>
      cases hmut
      refine inGroup_iff.2 ⟨_, by rw [BTreeMap.getElem?_insert_ite, if_pos rfl], ?_⟩
      exact Std.ExtTreeMap.contains_insert_self

end GovernanceState

/-! ## The answer -/

namespace Invite

variable {C : Crypto} {i : Invite} {presenter : PerNetworkIdentityId}
  {state : GovernanceState} {now : Timestamp}

/-- The part of `validate` behind the dates. -/
def validateUse (C : Crypto) (i : Invite) (presenter : PerNetworkIdentityId)
    (state : GovernanceState) : Except InviteError InviteProvenance :=
  match i.namesOther presenter with
  | some named => .error (.wrongSubject named.short presenter.short)
  | none =>
      if !state.identityHolds i.issuer .approveNode then
        .error (.issuerNotAuthorized i.issuer.short)
      else if i.maxUses.toNat ≤ state.inviteUseCount (i.inviteId C) then
        .error (.exhausted (state.inviteUseCount (i.inviteId C)) i.maxUses)
      else .ok (i.provenance C)

/-- An invite is valid within its dates, if nothing else is wrong with it. -/
theorem validate_ok_iff {provenance : InviteProvenance} :
    i.validate C presenter state now = .ok provenance ↔
      i.verifySignature C = .ok () ∧ ¬ i.network ≠ state.network ∧
        ¬ i.bootstrapAddresses.isEmpty = true ∧
        ¬ now.millis < i.issuedAt.millis ∧
        ¬ i.expiresAt.millis < now.millis ∧
        i.validateUse C presenter state = .ok provenance := by
  have hchecks : i.validate C presenter state now =
      i.verifySignature C >>= fun _ =>
        if i.network ≠ state.network then
          .error (.networkMismatch i.network.short state.network.short)
        else if i.bootstrapAddresses.isEmpty then .error .noBootstrapAddresses
        else if now.millis < i.issuedAt.millis then
          .error (.notYetValid i.issuedAt now)
        else if i.expiresAt.millis < now.millis then
          .error (.expired i.expiresAt now)
        else i.validateUse C presenter state := by
    rw [validate]
    cases i.verifySignature C <;> rfl
  rw [hchecks, Run.bind_ok]
  simp only [Run.ite_ok]
  constructor
  · rintro ⟨_, hsigned, h⟩
    exact ⟨hsigned, h⟩
  · rintro ⟨hsigned, h⟩
    exact ⟨(), hsigned, h⟩

/-- A valid invite comes with its provenance, and with a use to spare. -/
theorem validate_ok {provenance : InviteProvenance}
    (h : i.validate C presenter state now = .ok provenance) :
    provenance = i.provenance C ∧
      state.inviteUseCount (i.inviteId C) < i.maxUses.toNat := by
  obtain ⟨-, -, -, -, -, h⟩ := validate_ok_iff.1 h
  rw [validateUse] at h
  split at h
  · cases h
  · rw [Run.ite_ok, Run.ite_ok] at h
    obtain ⟨-, hused, h⟩ := h
    cases h
    exact ⟨rfl, not_le.1 hused⟩

end Invite

namespace JoinNode

variable {C : Crypto} {validKey : Bytes 32 → Bool} {node : JoinNode}
  {request : JoinRequest} {identity : PerNetworkIdentity C validKey}
  {now : Timestamp}

/-- The entry `decide_join` signs, for the provenance a valid invite has. -/
def admission (node : JoinNode) (request : JoinRequest)
    (identity : PerNetworkIdentity C validKey) (now : Timestamp) : LogEntry :=
  node.joinEntry request identity now (request.invite.provenance C)

theorem admission_signed (node : JoinNode) (request : JoinRequest)
    (identity : PerNetworkIdentity C validKey) (now : Timestamp) :
    (node.admission request identity now).verifySignature C = .ok () := by
  rw [LogEntry.verifySignature, if_pos]
  exact identity.verifies _

/-- The log takes the admission, as an entry it did not have. -/
theorem admission_new {s : GovernanceState} (hwf : node.log.Wf C)
    (hfree : ∀ x, node.log.Stored x →
      x.hash C = (node.admission request identity now).hash C →
        x = node.admission request identity now)
    (hs : node.log.replayCanonical C = .ok s) :
    (node.admission request identity now).hash C ∉ node.log.entries ∧
      node.log.Accepts C (node.admission request identity now) :=
  hwf.accepts_on_tip hfree (GovernanceLog.canonicalChain_ne_nil hs) rfl
    (admission_signed node request identity now)

/-- What signing the admission does to the log: it is stored, it extends the
canonical chain, and replay goes on to it. -/
theorem admission_lands {s : GovernanceState} (hwf : node.log.Wf C)
    (hfree : ∀ x, node.log.Stored x →
      x.hash C = (node.admission request identity now).hash C →
        x = node.admission request identity now)
    (hlen : node.log.len + 1 < 2 ^ 32)
    (hs : node.log.replayCanonical C = .ok s) :
    ∃ log, node.log.insert C (node.admission request identity now) =
        .ok ((node.admission request identity now).hash C, log) ∧
      (node.admission request identity now).parent.isSome ∧
      log.canonicalChain = node.log.canonicalChain ++
        [(node.admission request identity now).hash C] ∧
      ∀ next, log.replayCanonical C = .ok next ↔
        s.apply C (node.admission request identity now) = .ok next := by
  have hne := GovernanceLog.canonicalChain_ne_nil hs
  obtain ⟨hnew, hacc⟩ := admission_new hwf hfree hs
  have hgrow := hwf.canonicalChain_grow (hwf.inserted_new hacc hnew) hnew hlen
    hne rfl rfl
  refine ⟨_, GovernanceLog.insert_ok_iff.2 ⟨hacc, rfl, rfl⟩, ?_, hgrow,
    fun next => hwf.replayCanonical_grow hnew hgrow hs⟩
  exact List.getLast?_isSome.2 hne

/-- A member who may not admit is refused, a refusal leaves the log alone,
and a joiner reported admitted is in `everyone` after replay. -/
structure Truthful (C : Crypto) (node : JoinNode) (request : JoinRequest)
    (identity : PerNetworkIdentity C validKey) (now : Timestamp) : Prop where
  admitted : ∀ entry,
    (node.decideJoin C request identity now).1 = .admitted entry →
      ∃ s, (node.decideJoin C request identity now).2.log.replayCanonical C =
        .ok s ∧ s.inGroup GroupId.everyone request.joiner = true
  refused : ∀ reason,
    (node.decideJoin C request identity now).1 = .refused reason →
      (node.decideJoin C request identity now).2.log = node.log
  unauthorized : ∀ s, node.governanceState C = some s →
    s.isMember identity.id = true →
    s.identityHolds identity.id (.manageMembership GroupId.everyone) = false →
      ∃ reason,
        (node.decideJoin C request identity now).1 = .refused reason

/-- Under auto-admit a valid request is answered with what the log says of
the admission. -/
theorem decideJoin_autoAdmit {s : GovernanceState} {hash : Hash}
    {log : GovernanceLog} {provenance : InviteProvenance}
    (hs : node.log.replayCanonical C = .ok s)
    (hvalid : request.invite.validate C request.joiner s now = .ok provenance)
    (hmode : s.policy.admissionMode = .autoAdmit)
    (hins : node.log.insert C (node.admission request identity now) =
      .ok (hash, log)) :
    node.decideJoin C request identity now =
      (.admitted hash, { node with
        log
        waitingRoom := node.waitingRoom.remove request.joiner }) := by
  obtain ⟨rfl, -⟩ := Invite.validate_ok hvalid
  rw [admission] at hins
  rw [decideJoin, governanceState, hs]
  dsimp only [Except.toOption]
  rw [hvalid]
  dsimp only
  rw [hmode]
  dsimp only
  rw [hins]

/-- A valid request under auto-admit is answered truthfully if and only if
the answering identity may manage `everyone`. The log is any that `insert`
and `reconcile` lead to and that replays. -/
theorem join_answer_truthful_iff {calls : List GovernanceLog.Call}
    {s : GovernanceState} {provenance : InviteProvenance}
    (hlog : node.log = .run C calls)
    (hfree : CollisionFree C {e | .insert e ∈ calls ∨
      e = node.admission request identity now})
    (hlen : node.log.len + 1 < 2 ^ 32)
    (hs : node.log.replayCanonical C = .ok s)
    (hvalid : request.invite.validate C request.joiner s now = .ok provenance)
    (hmode : s.policy.admissionMode = .autoAdmit) :
    Truthful C node request identity now ↔
      s.identityHolds identity.id (.manageMembership GroupId.everyone) =
        true := by
  have hwithin : node.log.Within C {e | .insert e ∈ calls ∨
      e = node.admission request identity now} := by
    rw [hlog]
    exact GovernanceLog.within_run hfree fun e he => .inl he
  obtain ⟨log, hins, hparent, -, hreplay⟩ := admission_lands hwithin.wf
    (fun x hx heq => hfree (hwithin.mem x hx) (.inr rfl) heq) hlen hs
  have hanswer := decideJoin_autoAdmit hs hvalid hmode hins
  have happly := GovernanceState.apply_admission hs
    (GovernanceState.capabilityHolders_of_autoAdmit
      (GovernanceState.replay_everyone hs).2 hmode)
    (admission_signed node request identity now) hparent rfl
  constructor
  · intro htruthful
    obtain ⟨s', hs', -⟩ := htruthful.admitted _ (by rw [hanswer])
    rw [hanswer] at hs'
    exact happly.1 ⟨s', (hreplay s').1 hs'⟩
  · intro hholds
    obtain ⟨s', happ⟩ := happly.2 hholds
    constructor
    · intro entry _
      rw [hanswer]
      exact ⟨s', (hreplay s').2 happ,
        GovernanceState.inGroup_of_admission happ rfl⟩
    · intro reason hreason
      rw [hanswer] at hreason
      cases hreason
    · intro s₁ hs₁ _ hnot
      rw [governanceState, hs] at hs₁
      cases hs₁
      rw [hholds] at hnot
      cases hnot

/-! ### A founder answers, and a member who may not -/

/-- The founder's network under auto-admit, with identity 2 in `everyone`. -/
def openDoor : List LogEntry :=
  [Sample.genesis 0 { NetworkPolicy.conservativeDefault with
      admissionMode := .autoAdmit } [],
    Sample.entry 1 (some 0) 1 1 (Sample.admits 2)]

/-- The founder's invite for one bearer, with identifier 7. -/
def bearerInvite : Invite :=
  ⟨Sample.network, ["/ip4/10.0.0.1"], Sample.identity 1, .bearer, ⟨0⟩, ⟨1000⟩, 1,
    Sample.signature 1 7⟩

/-- Identity `n` presents the invite. -/
def knock (n : ℕ) : JoinRequest :=
  ⟨Sample.identity n, bearerInvite, Sample.signature n 8⟩

/-- A key pair whose next signature gives an entry the hash `nonce`. -/
def signer (n nonce : ℕ) : PerNetworkIdentity .sample (fun _ => true) where
  id := Sample.identity n
  sign _ := Sample.signature n nonce
  valid := rfl
  verifies payload := Sample.verify_signature n nonce payload

def doorNode : JoinNode := new (.run .sample (openDoor.map .insert))

theorem join_answer_truthful_iff_founder :
    Truthful .sample doorNode (knock 5) (signer 1 9) ⟨10⟩ := by
  have hcheck : Run.okAnd (doorNode.log.replayCanonical .sample) (fun s =>
      Run.okAnd ((knock 5).invite.validate .sample (knock 5).joiner s ⟨10⟩)
        (fun _ => true) &&
      decide (s.policy.admissionMode = .autoAdmit) &&
      s.identityHolds (signer 1 9).id (.manageMembership GroupId.everyone)) =
        true := by
    decide +kernel
  obtain ⟨s, hs, hcheck⟩ := Run.okAnd_iff.1 hcheck
  simp only [Bool.and_eq_true, decide_eq_true_eq] at hcheck
  obtain ⟨⟨hvalid, hmode⟩, hholds⟩ := hcheck
  obtain ⟨provenance, hvalid, -⟩ := Run.okAnd_iff.1 hvalid
  refine (join_answer_truthful_iff rfl ?_ (by decide +kernel) hs hvalid hmode).2
    hholds
  have hset : {e | GovernanceLog.Call.insert e ∈ openDoor.map .insert ∨
      e = doorNode.admission (knock 5) (signer 1 9) ⟨10⟩} =
      {e | e ∈ openDoor ++ [doorNode.admission (knock 5) (signer 1 9) ⟨10⟩]} := by
    ext e
    simp [eq_comm]
  rw [hset]
  exact collisionFree_of_nodup (by decide +kernel)

/-- Identity 2 is a member and may not admit anyone. It answers the same
request with an admission, and its log no longer replays. -/
theorem join_answer_untrue :
    ∃ s provenance, doorNode.log.replayCanonical .sample = .ok s ∧
      (knock 5).invite.validate .sample (knock 5).joiner s ⟨10⟩ =
        .ok provenance ∧
      s.policy.admissionMode = .autoAdmit ∧
      s.isMember (signer 2 9).id = true ∧
      ¬ Truthful .sample doorNode (knock 5) (signer 2 9) ⟨10⟩ := by
  have hcheck : Run.okAnd (doorNode.log.replayCanonical .sample) (fun s =>
      Run.okAnd ((knock 5).invite.validate .sample (knock 5).joiner s ⟨10⟩)
        (fun _ => true) &&
      decide (s.policy.admissionMode = .autoAdmit) &&
      s.isMember (signer 2 9).id) = true := by
    decide +kernel
  obtain ⟨s, hs, hcheck⟩ := Run.okAnd_iff.1 hcheck
  simp only [Bool.and_eq_true, decide_eq_true_eq] at hcheck
  obtain ⟨⟨hvalid, hmode⟩, hmember⟩ := hcheck
  obtain ⟨provenance, hvalid, -⟩ := Run.okAnd_iff.1 hvalid
  refine ⟨s, provenance, hs, hvalid, hmode, hmember, fun htruthful => ?_⟩
  have hanswer : (doorNode.decideJoin .sample (knock 5) (signer 2 9) ⟨10⟩).1 =
      .admitted (Sample.hash 9) := by
    decide +kernel
  have hbroken : Run.okAnd ((doorNode.decideJoin .sample (knock 5) (signer 2 9)
      ⟨10⟩).2.log.replayCanonical .sample) (fun _ => true) = false := by
    decide +kernel
  obtain ⟨after, hafter, -⟩ := htruthful.admitted _ hanswer
  rw [hafter] at hbroken
  cases hbroken

end JoinNode

end Intranet
