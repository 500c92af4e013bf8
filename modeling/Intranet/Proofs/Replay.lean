import Intranet.Lib.Run
import Intranet.Ref.State

/-!
# What one step of replay can do

Every result about governance state is about a run of `apply`, and `apply` is
a long function: a signature check, an authorization with a dozen branches,
an effect with as many, and two checks of the candidate state. This file
takes it apart once. `apply_ok` says which checks an accepted entry passed;
`apply_holds` says what the authorization of a capability-bound entry
amounts to; the frame lemmas say, field by field, which entries can change
it. The invariants of the later files never unfold `apply` again.

The replay rules at the end are `Lib/Run.lean` at this step function, with
genesis as the first action.
-/

namespace Intranet

namespace GovernanceState

variable {C : Crypto} {s s' : GovernanceState} {e : LogEntry}

/-! ## The checks -/

/-- What an accepted entry passed. -/
structure Accepted (C : Crypto) (s : GovernanceState) (e : LogEntry)
    (s' : GovernanceState) : Prop where
  signed : e.verifySignature C = .ok ()
  notGenesis : e.body.isGenesis = false
  hasParent : e.parent.isSome
  authorized : s.authorize C e = .ok ()
  mutated : s.mutate C e = .ok s'
  everyone : s'.checkEveryoneInvariant = .ok ()
  coherent : s'.checkPolicyCoherence = .ok ()

theorem apply_ok (h : s.apply C e = .ok s') : Accepted C s e s' := by
  unfold apply at h
  obtain ⟨_, hsig, h⟩ := Run.bind_ok.1 h
  dsimp only at h
  split at h
  · cases h
  · next hgen =>
      split at h
      · cases h
      · next hpar =>
          obtain ⟨_, hauth, h⟩ := Run.bind_ok.1 h
          obtain ⟨next, hmut, h⟩ := Run.bind_ok.1 h
          obtain ⟨_, hevery, h⟩ := Run.bind_ok.1 h
          obtain ⟨_, hcoh, h⟩ := Run.bind_ok.1 h
          cases h
          exact ⟨hsig, by simpa using hgen, by simpa [Option.isSome_iff_ne_none]
            using hpar, hauth, hmut, hevery, hcoh⟩

/-- And nothing else is checked. -/
theorem Accepted.apply (h : Accepted C s e s') : s.apply C e = .ok s' := by
  have hpar : e.parent.isNone = false := by
    rw [← Option.not_isSome, h.hasParent]
    rfl
  rw [GovernanceState.apply, h.signed, h.notGenesis, hpar, h.authorized,
    h.mutated]
  change (s'.checkEveryoneInvariant >>= fun _ =>
    s'.checkPolicyCoherence >>= fun _ => .ok s') = .ok s'
  rw [h.everyone, h.coherent]
  rfl

/-- What a founding entry produces, as far as later files look at it. -/
theorem genesis_ok {s₀ : GovernanceState} (h : genesis C e = .ok s₀) :
    e.body.isGenesis = true ∧ e.parent = none ∧ s₀.openVotes = ∅ ∧
      s₀.passedVotes = ∅ ∧ s₀.checkEveryoneInvariant = .ok () := by
  unfold genesis at h
  obtain ⟨_, -, h⟩ := Run.bind_ok.1 h
  dsimp only at h
  split at h
  · cases h
  · next hparent =>
      split at h
      · next hbody =>
          obtain ⟨_, hcheck, h⟩ := Run.bind_ok.1 h
          obtain ⟨_, -, h⟩ := Run.bind_ok.1 h
          cases h
          exact ⟨by rw [hbody]; rfl, by simpa using hparent, rfl, rfl, hcheck⟩
      · cases h

theorem authorize_ok (h : s.authorize C e = .ok ()) :
    ∃ required, s.requiredCapability C e = .ok required ∧
      ∀ c, required = some c → s.identityHolds e.author c = true := by
  unfold authorize at h
  split at h
  · cases h
  · next hreq => exact ⟨none, hreq, fun c hc => by cases hc⟩
  · next c hreq =>
      split at h
      · next hold =>
          refine ⟨some c, hreq, fun d hd => ?_⟩
          cases hd
          exact hold
      · cases h

/-- An accepted entry whose kind needs a capability was signed by a holder. -/
theorem apply_holds {c : Capability} (h : s.apply C e = .ok s')
    (hreq : s.requiredCapability C e = .ok (some c)) :
    s.identityHolds e.author c = true := by
  obtain ⟨required, hreq', hold⟩ := authorize_ok (apply_ok h).authorized
  rw [hreq] at hreq'
  cases hreq'
  exact hold c rfl

theorem identityHolds_iff {identity : PerNetworkIdentityId} {c : Capability} :
    s.identityHolds identity c = true ↔
      ∃ (g : GroupId) (group : Group), s.groups[g]? = some group ∧
        group.contains identity = true ∧ group.capabilities.grants c = true := by
  simp only [identityHolds, List.any_eq_true, Bool.and_eq_true, Prod.exists,
    Std.ExtTreeMap.mem_toList_iff_getElem?_eq_some]

/-! ## Frames -/

theorem eraseAll_subset (ids : List PerNetworkIdentityId)
    (members : BTreeMap PerNetworkIdentityId MembershipRecord)
    {id : PerNetworkIdentityId}
    (h : id ∈ ids.foldl (fun m id => m.erase id) members) : id ∈ members := by
  induction ids generalizing members with
  | nil => exact h
  | cons first rest ih =>
      exact Std.ExtTreeMap.mem_of_mem_erase (ih (members.erase first) h)

/-- A cascade only ever takes members out. -/
theorem cascadeLoop_subset (cutoff : Option Timestamp) (fuel : ℕ)
    (pending : List PerNetworkIdentityId)
    (members : BTreeMap PerNetworkIdentityId MembershipRecord)
    {id : PerNetworkIdentityId}
    (h : id ∈ cascadeLoop cutoff fuel pending members) : id ∈ members := by
  induction fuel generalizing pending members with
  | zero => exact h
  | succ fuel ih =>
      cases pending with
      | nil => exact h
      | cons remover pending =>
          exact eraseAll_subset _ _ (ih _ _ h)

/-- A removal rewrites one group, keeps its capabilities and adds no one. -/
theorem removeMembership_ok {groupId : GroupId}
    {identity : PerNetworkIdentityId} {cascade : Option Cascade}
    {removedAt : Timestamp}
    (h : s.removeMembership groupId identity cascade removedAt = .ok s') :
    ∃ group members, s.groups[groupId]? = some group ∧
      identity ∈ group.members ∧ (∀ id, id ∈ members → id ∈ group.members) ∧
      s' = { s with
        groups := s.groups.insert groupId { group with members } } := by
  unfold removeMembership at h
  split at h
  · cases h
  · next group hgroup =>
      split at h
      · cases h
      · next hin =>
          cases h
          refine ⟨group, _, hgroup, ?_, ?_, rfl⟩
          · simpa using hin
          · intro id hid
            cases cascade with
            | none => exact Std.ExtTreeMap.mem_of_mem_erase hid
            | some cascade =>
                exact Std.ExtTreeMap.mem_of_mem_erase
                  (cascadeLoop_subset _ _ _ _ hid)

/-- Two states agree on everything but who is in which group. -/
def SameCapabilities (s s' : GovernanceState) : Prop :=
  ∀ g : GroupId, s'.groups[g]?.map Group.capabilities =
    s.groups[g]?.map Group.capabilities

theorem SameCapabilities.refl (s : GovernanceState) : SameCapabilities s s :=
  fun _ => rfl

/-- Writing a stored group back with other members changes no capability. -/
theorem sameCapabilities_insert {g : GroupId} {group : Group}
    (hgroup : s.groups[g]? = some group)
    (members : BTreeMap PerNetworkIdentityId MembershipRecord) :
    SameCapabilities s
      { s with groups := s.groups.insert g { group with members } } := by
  intro a
  simp only [BTreeMap.getElem?_insert_ite]
  split
  · next hag =>
      rw [← hag, hgroup]
      rfl
  · rfl

/-- Only `DefineGroup` and `MembershipChange` touch the groups at all. -/
theorem mutate_groups (h : s.mutate C e = .ok s')
    (hdefine : ∀ g caps, e.body ≠ .defineGroup g caps)
    (hmember : ∀ g id action, e.body ≠ .membershipChange g id action) :
    s'.groups = s.groups := by
  unfold mutate at h
  split at h
  case h_2 hb => exact absurd hb (hdefine _ _)
  case h_3 hb => exact absurd hb (hmember _ _ _)
  all_goals
    (repeat' split at h) <;> cases h <;> rfl

/-- A membership change rewrites one stored group and keeps what it holds.
An `Add` lets in the identity it names, a `Remove` nobody. -/
theorem mutate_membershipChange {g : GroupId} {id : PerNetworkIdentityId}
    {action : MembershipAction} (h : s.mutate C e = .ok s')
    (hbody : e.body = .membershipChange g id action) :
    ∃ group members, s.groups[g]? = some group ∧
      (∀ a, a ∈ members → a ∈ group.members ∨
        (a = id ∧ ∃ via, action = .add via)) ∧
      s' = { s with groups := s.groups.insert g { group with members } } := by
  rw [mutate, hbody] at h
  cases action with
  | add viaInvite =>
      dsimp only at h
      split at h
      · cases h
      · next target htarget =>
          cases h
          refine ⟨target, _, htarget, fun a ha => ?_, rfl⟩
          rcases (BTreeMap.mem_insert_iff _ _ _ _).1 ha with rfl | ha
          · exact Or.inr ⟨rfl, viaInvite, rfl⟩
          · exact Or.inl ha
  | remove cascade =>
      obtain ⟨target, members, htarget, -, hsub, rfl⟩ := removeMembership_ok h
      exact ⟨target, members, htarget, fun a ha => Or.inl (hsub a ha), rfl⟩

/-- Only `DefineGroup` changes what a group holds. -/
theorem mutate_capabilities (h : s.mutate C e = .ok s')
    (hbody : ∀ g caps, e.body ≠ .defineGroup g caps) :
    SameCapabilities s s' := by
  by_cases hm : ∃ g id action, e.body = .membershipChange g id action
  · obtain ⟨g, id, action, hb⟩ := hm
    obtain ⟨group, members, hgroup, -, rfl⟩ := mutate_membershipChange h hb
    exact sameCapabilities_insert hgroup members
  · intro g
    rw [mutate_groups h hbody fun g id action hb => hm ⟨g, id, action, hb⟩]

/-- Only the two policy entries change the policy. -/
theorem mutate_policy (h : s.mutate C e = .ok s')
    (hpolicy : ∀ policy, e.body ≠ .policyChange policy)
    (hallow : ∀ allowlist, e.body ≠ .contentTypePolicy allowlist) :
    s'.policy = s.policy := by
  by_cases hm : ∃ g id action, e.body = .membershipChange g id action
  · obtain ⟨g, id, action, hb⟩ := hm
    obtain ⟨group, members, -, -, rfl⟩ := mutate_membershipChange h hb
    rfl
  · unfold mutate at h
    split at h
    case h_3 hb => exact absurd ⟨_, _, _, hb⟩ hm
    case h_4 hb => exact absurd hb (hpolicy _)
    case h_5 hb => exact absurd hb (hallow _)
    all_goals
      (repeat' split at h) <;> cases h <;> rfl

/-- Whether `identity` is in the group stored under `g`. -/
def inGroup (s : GovernanceState) (g : GroupId)
    (identity : PerNetworkIdentityId) : Bool :=
  s.groups[g]?.any fun group => group.contains identity

theorem inGroup_iff {g : GroupId} {identity : PerNetworkIdentityId} :
    s.inGroup g identity = true ↔
      ∃ group : Group, s.groups[g]? = some group ∧
        group.contains identity = true := by
  simp only [inGroup, Option.any_eq_true]

/-- Nobody enters a group but by an `Add` naming them and it. -/
theorem mutate_inGroup (h : s.mutate C e = .ok s') {g : GroupId}
    {identity : PerNetworkIdentityId} (hin : s'.inGroup g identity = true) :
    s.inGroup g identity = true ∨
      ∃ via, e.body = .membershipChange g identity (.add via) := by
  by_cases hm : ∃ g id action, e.body = .membershipChange g id action
  · obtain ⟨target, id, action, hb⟩ := hm
    obtain ⟨group, members, hgroup, hsub, rfl⟩ := mutate_membershipChange h hb
    rw [inGroup_iff] at hin ⊢
    obtain ⟨stored, hstored, hmem⟩ := hin
    simp only [BTreeMap.getElem?_insert_ite] at hstored
    split at hstored
    · next hg =>
        cases hstored
        subst hg
        rcases hsub _ (Std.ExtTreeMap.contains_iff_mem.1 hmem) with
          hold | ⟨rfl, via, rfl⟩
        · exact Or.inl ⟨group, hgroup, Std.ExtTreeMap.contains_iff_mem.2 hold⟩
        · exact Or.inr ⟨via, hb⟩
    · exact Or.inl ⟨stored, hstored, hmem⟩
  · by_cases hd : ∃ g caps, e.body = .defineGroup g caps
    · obtain ⟨target, caps, hb⟩ := hd
      left
      rw [mutate, hb] at h
      cases h
      rw [inGroup_iff] at hin ⊢
      obtain ⟨stored, hstored, hmem⟩ := hin
      simp only [BTreeMap.getElem?_insert_ite] at hstored
      split at hstored
      · next hg =>
          cases hstored
          subst hg
          -- a redefinition keeps the members, a new group has none
          cases hold : s.groups[target]? with
          | none =>
              rw [hold] at hmem
              simp [Group.new, Group.contains] at hmem
          | some existing =>
              rw [hold] at hmem
              exact ⟨existing, rfl, hmem⟩
      · exact ⟨stored, hstored, hmem⟩
    · left
      have hgroups := mutate_groups h (fun g caps hb => hd ⟨g, caps, hb⟩)
        (fun g id action hb => hm ⟨g, id, action, hb⟩)
      rw [inGroup, hgroups] at hin
      exact hin

/-- A proposal opens a vote over the membership it names, an outcome that
passes moves its subject to the passed votes, and nothing else touches
either. -/
theorem mutate_votes (h : s.mutate C e = .ok s') :
    (∃ proposal group, e.body = .voteProposed proposal ∧
      s.groups[proposal.electorate]? = some group ∧
      proposal.electorateSnapshot =
        Std.ExtTreeSet.ofList group.members.keys compare ∧
      s'.openVotes = s.openVotes.insert (proposal.voteId C) proposal ∧
      s'.passedVotes = s.passedVotes) ∨
    (∃ certificate proposal, e.body = .voteOutcome certificate ∧
      s.openVotes[certificate.voteId]? = some proposal ∧
      certificate.verify C proposal = .ok .passed ∧
      s'.openVotes = s.openVotes.erase certificate.voteId ∧
      s'.passedVotes = s.passedVotes.insert proposal.subject) ∨
    (s'.openVotes = s.openVotes ∧ s'.passedVotes = s.passedVotes) := by
  by_cases hm : ∃ g id action, e.body = .membershipChange g id action
  · obtain ⟨g, id, action, hb⟩ := hm
    obtain ⟨group, members, -, -, rfl⟩ := mutate_membershipChange h hb
    exact Or.inr (Or.inr ⟨rfl, rfl⟩)
  · unfold mutate at h
    split at h
    case h_3 hb => exact absurd ⟨_, _, _, hb⟩ hm
    case h_6 proposal hb =>
      split at h
      · cases h
      · next group hgroup =>
          split at h
          · cases h
          · next hsnap =>
              cases h
              exact Or.inl ⟨proposal, group, hb, hgroup, not_not.1 hsnap, rfl, rfl⟩
    case h_7 certificate hb =>
      split at h
      · cases h
      · next proposal hopen =>
          split at h
          · cases h
          · cases h
          · next hverify =>
              cases h
              exact Or.inr (Or.inl
                ⟨certificate, proposal, hb, hopen, hverify, rfl, rfl⟩)
    all_goals
      refine Or.inr (Or.inr ?_)
      (repeat' split at h) <;> cases h <;> exact ⟨rfl, rfl⟩

/-! ## The replay rules -/

theorem replay_cons {first : LogEntry} {rest : List LogEntry} :
    replay C (first :: rest) = .ok s ↔
      ∃ s₀, genesis C first = .ok s₀ ∧ rest.foldlM (apply C) s₀ = .ok s := by
  rw [replay, Run.bind_ok]

/-- An accepted chain is accepted up to every point of it. -/
theorem replay_append {pre rest : List LogEntry} (hpre : pre ≠ []) :
    replay C (pre ++ rest) = .ok s ↔
      ∃ m, replay C pre = .ok m ∧ rest.foldlM (apply C) m = .ok s := by
  obtain ⟨first, pre, rfl⟩ := List.exists_cons_of_ne_nil hpre
  rw [List.cons_append, replay_cons]
  constructor
  · intro hgiven
    obtain ⟨s₀, hgen, hrun⟩ := hgiven
    obtain ⟨m, hm, hrest⟩ := Run.foldlM_ok_append.1 hrun
    exact ⟨m, replay_cons.2 ⟨s₀, hgen, hm⟩, hrest⟩
  · intro hgiven
    obtain ⟨m, hm, hrest⟩ := hgiven
    obtain ⟨s₀, hgen, hrun⟩ := replay_cons.1 hm
    exact ⟨s₀, hgen, Run.foldlM_ok_append.2 ⟨m, hrun, hrest⟩⟩

theorem replay_snoc {pre : List LogEntry} (hpre : pre ≠ []) :
    replay C (pre ++ [e]) = .ok s' ↔
      ∃ s, replay C pre = .ok s ∧ s.apply C e = .ok s' := by
  rw [replay_append hpre]
  simp only [Run.foldlM_ok_singleton]

/-- The induction over an accepted chain: genesis first, then one accepted
entry after another, with the chain so far in hand. -/
theorem replay_history {P : List LogEntry → GovernanceState → Prop}
    (hgen : ∀ first s₀, genesis C first = .ok s₀ → P [first] s₀)
    (hstep : ∀ pre s e s', replay C pre = .ok s → P pre s →
      s.apply C e = .ok s' → P (pre ++ [e]) s')
    {chain : List LogEntry} (h : replay C chain = .ok s) : P chain s := by
  induction chain using List.reverseRecOn generalizing s with
  | nil => cases h
  | append_singleton pre e ih =>
      by_cases hpre : pre = []
      · subst hpre
        obtain ⟨s₀, hg, hrun⟩ := replay_cons.1 h
        cases hrun
        exact hgen e s hg
      · obtain ⟨m, hm, happ⟩ := (replay_snoc hpre).1 h
        exact hstep pre m e s hm (ih hm) happ

end GovernanceState

end Intranet
