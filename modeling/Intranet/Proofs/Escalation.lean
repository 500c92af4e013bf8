import Intranet.Proofs.Tier
import Intranet.Ref.Sample

/-!
# Members of `everyone` never gain power

The `everyone` ceiling is checked against every candidate state, and
`Proofs/Tier.lean` says what it buys: no group reachable from `everyone`
through `ManageMembership` grants holds anything governance-tier. This file
turns that into a statement about attackers. Identities that start out in
`everyone` alone, and are the only ones to act, can only move: each `Add`
they author needs a grant held by a group they are already in, so every group
they ever reach is one `everyone` could reach to begin with. The graph of
grants itself stays put, because changing it needs the power they do not
have.

`Confined` is that invariant, `confined_step` its preservation by one
accepted entry, and the run lemma follows by `Run.foldlM_history`.
-/

namespace Intranet

namespace GovernanceState

variable {C : Crypto} {s t t' : GovernanceState}

/-- The ceiling holds in every replayed state. -/
theorem replay_ceiling {chain : List LogEntry} (h : replay C chain = .ok s) :
    s.checkEveryoneInvariant = .ok () := by
  refine replay_history (P := fun _ s => s.checkEveryoneInvariant = .ok ())
    (fun _ _ hgen => ?_) (fun _ _ _ _ _ _ happ => (apply_ok happ).everyone) h
  obtain ⟨-, -, -, -, hcheck⟩ := genesis_ok hgen
  exact hcheck

/-! ## The graph of grants depends on capabilities and policy only -/

theorem SameCapabilities.trans {a b c : GovernanceState}
    (hab : SameCapabilities a b) (hbc : SameCapabilities b c) :
    SameCapabilities a c :=
  fun g => (hbc g).trans (hab g)

/-- A stored group has a counterpart with the same capabilities. -/
theorem SameCapabilities.stored (h : SameCapabilities s t) {g : GroupId}
    {group : Group} (hg : t.groups[g]? = some group) :
    ∃ group₀ : Group, s.groups[g]? = some group₀ ∧
      group₀.capabilities = group.capabilities := by
  have hmap := h g
  rw [hg, Option.map_some] at hmap
  exact Option.map_eq_some_iff.1 hmap.symm

theorem SameCapabilities.manages (h : SameCapabilities s t) {g g' : GroupId}
    (hm : t.Manages g g') : s.Manages g g' := by
  obtain ⟨group, set, hgroup, hset, hmem⟩ := hm
  obtain ⟨group₀, hgroup₀, hcaps⟩ := h.stored hgroup
  exact ⟨group₀, set, hgroup₀, hcaps.trans hset, hmem⟩

theorem DirectPower.of_policy {c : Capability} (hpolicy : t.policy = s.policy)
    (h : t.DirectPower c) : s.DirectPower c := by
  rcases h with hi | ⟨name, rfl, htier⟩
  · exact Or.inl hi
  · exact Or.inr ⟨name, rfl, hpolicy ▸ htier⟩

theorem SameCapabilities.power (h : SameCapabilities s t)
    (hpolicy : t.policy = s.policy) {c : Capability}
    (hc : t.GovernancePower c) : s.GovernancePower c := by
  cases hc with
  | direct hd => exact .direct (hd.of_policy hpolicy)
  | managed hpath hpow =>
      refine .managed (hpath.lift id fun _ _ hm => h.manages hm) ?_
      obtain ⟨group, hgroup, hpow⟩ := hpow
      obtain ⟨group₀, hgroup₀, hcaps⟩ := h.stored hgroup
      refine ⟨group₀, hgroup₀, ?_⟩
      rw [hcaps]
      rcases hpow with hall | ⟨set, d, hset, hd, hdir⟩
      · exact Or.inl hall
      · exact Or.inr ⟨set, d, hset, hd, hdir.of_policy hpolicy⟩

/-! ## Confinement -/

/-- Since `s`, neither the policy nor what any group holds has changed, and
the attackers are in groups reachable from `everyone` only. -/
structure Confined (s : GovernanceState) (attackers : Set PerNetworkIdentityId)
    (t : GovernanceState) : Prop where
  policy : t.policy = s.policy
  capabilities : SameCapabilities s t
  reach : ∀ a ∈ attackers, ∀ g, t.inGroup g a = true →
    s.ReachableFromEveryone g

/-- What a confined attacker holds confers no power, and the groups it can
manage are reachable too. -/
theorem Confined.holds {attackers : Set PerNetworkIdentityId}
    {a : PerNetworkIdentityId} {c : Capability}
    (hceiling : s.checkEveryoneInvariant = .ok ())
    (hconf : Confined s attackers t) (ha : a ∈ attackers)
    (hold : t.identityHolds a c = true) :
    ¬ s.GovernancePower c ∧
      ∀ g, c = .manageMembership g → s.ReachableFromEveryone g := by
  obtain ⟨g, group, hgroup, hin, hgrants⟩ := identityHolds_iff.1 hold
  have hreach := hconf.reach a ha g (inGroup_iff.2 ⟨group, hgroup, hin⟩)
  obtain ⟨group₀, hgroup₀, hcaps⟩ := hconf.capabilities.stored hgroup
  have hpowerless := checkEveryoneInvariant_reach hceiling hreach
  rw [← hcaps] at hgrants
  cases hset : group₀.capabilities with
  | all => exact absurd ⟨group₀, hgroup₀, Or.inl hset⟩ hpowerless
  | explicit set =>
      have hc : c ∈ set := by
        rw [hset] at hgrants
        exact Std.ExtTreeSet.contains_iff_mem.1 hgrants
      constructor
      · intro hcase
        rcases hcase with hd | ⟨hpath, hpow⟩
        · exact hpowerless ⟨group₀, hgroup₀, Or.inr ⟨set, c, hset, hc, hd⟩⟩
        · have hfirst : s.Manages g _ := ⟨group₀, set, hgroup₀, hset, hc⟩
          exact checkEveryoneInvariant_reach hceiling
            ((hreach.tail hfirst).trans hpath) hpow
      · intro g' heq
        subst heq
        exact hreach.tail ⟨group₀, set, hgroup₀, hset, hc⟩

/-- Under `CapabilityHolders`, the author of an accepted `Add` holds
`ManageMembership` over the group. -/
theorem apply_add_holds {e : LogEntry} {g : GroupId}
    {id : PerNetworkIdentityId} {via : Option InviteProvenance}
    (hmodel : t.policy.governanceModel = .capabilityHolders)
    (hbody : e.body = .membershipChange g id (.add via))
    (h : t.apply C e = .ok t') :
    t.identityHolds e.author (.manageMembership g) = true := by
  obtain ⟨required, hreq, hold⟩ := authorize_ok (apply_ok h).authorized
  rw [requiredCapability, hbody] at hreq
  dsimp only at hreq
  split at hreq
  · cases hreq
  · rw [hmodel] at hreq
    cases hreq
    exact hold _ rfl

theorem confined_step {attackers : Set PerNetworkIdentityId} {e : LogEntry}
    (hceiling : s.checkEveryoneInvariant = .ok ())
    (hmodel : s.policy.governanceModel = .capabilityHolders)
    (hconf : Confined s attackers t) (hauthor : e.author ∈ attackers)
    (h : t.apply C e = .ok t') : Confined s attackers t' := by
  have hmut := (apply_ok h).mutated
  -- no entry that needs a governance-tier capability gets through
  have hrefused : ∀ c, c.intrinsicTier = some .governance →
      t.requiredCapability C e ≠ .ok (some c) := by
    intro c hc hreq
    exact (hconf.holds hceiling hauthor (apply_holds h hreq)).1 (.direct (.inl hc))
  have hdefine : ∀ g caps, e.body ≠ .defineGroup g caps := by
    intro g caps hb
    exact hrefused .defineGroup rfl (by rw [requiredCapability, hb])
  have hpolicy : ∀ policy, e.body ≠ .policyChange policy := by
    intro policy hb
    exact hrefused .definePolicy rfl (by rw [requiredCapability, hb])
  have hallow : ∀ allowlist, e.body ≠ .contentTypePolicy allowlist := by
    intro allowlist hb
    exact hrefused .defineContentPolicy rfl (by rw [requiredCapability, hb])
  refine ⟨(mutate_policy hmut hpolicy hallow).trans hconf.policy,
    hconf.capabilities.trans (mutate_capabilities hmut hdefine), ?_⟩
  intro a ha g hin
  rcases mutate_inGroup hmut hin with hold | ⟨via, hb⟩
  · exact hconf.reach a ha g hold
  · have hholds := apply_add_holds (hconf.policy ▸ hmodel) hb h
    exact (hconf.holds hceiling hauthor hholds).2 g rfl

/-- No privilege escalation from `everyone`: under `CapabilityHolders`, a run
authored entirely by identities that start in no group but `everyone` ends
with none of them holding a capability that confers governance power, and
with every group's capabilities and the policy as they were. -/
theorem everyone_never_escalates {chain es : List LogEntry}
    {s s' : GovernanceState} (hs : replay C chain = .ok s)
    (hrun : es.foldlM (apply C) s = .ok s')
    (hauthors : ∀ e ∈ es, ∀ g, s.inGroup g e.author = true →
      g = GroupId.everyone)
    (hmodel : s.policy.governanceModel = .capabilityHolders) :
    (∀ e ∈ es, ∀ c, s'.GovernancePower c →
      s'.identityHolds e.author c = false) ∧
    SameCapabilities s s' ∧ s'.policy = s.policy := by
  have hceiling := replay_ceiling hs
  let attackers : Set PerNetworkIdentityId := {a | ∃ e ∈ es, e.author = a}
  have hinit : Confined s attackers s := by
    refine ⟨rfl, SameCapabilities.refl s, ?_⟩
    intro a hgiven g hin
    obtain ⟨e, he, rfl⟩ := hgiven
    rw [hauthors e he g hin]
    exact .refl
  have hconf : Confined s attackers s' := by
    refine Run.foldlM_history (P := fun _ t => Confined s attackers t) hinit
      (fun pre m e m' hpre hm happ => ?_) hrun
    have he : e ∈ es := hpre.subset (by simp)
    exact confined_step hceiling hmodel hm ⟨e, he, rfl⟩ happ
  refine ⟨fun e he c hc => ?_, hconf.capabilities, hconf.policy⟩
  by_contra hne
  have hold : s'.identityHolds e.author c = true := by simpa using hne
  exact (hconf.holds hceiling ⟨e, he, rfl⟩ hold).1
    (hconf.capabilities.power hconf.policy hc)

/-- A group `everyone` may manage: read access, and nothing else. -/
def crew : GroupId := ⟨"crew"⟩

/-- The founder lets `everyone` manage `crew` and admits identity 2. -/
def openCrewChain : List LogEntry :=
  [Sample.genesis 0 .conservativeDefault [],
    Sample.entry 1 (some 0) 1 1 (.defineGroup crew
      (.explicit (Std.ExtTreeSet.ofList [.readContent] compare))),
    Sample.entry 2 (some 1) 2 1 (.defineGroup GroupId.everyone
      (.explicit (Std.ExtTreeSet.ofList [.manageMembership crew] compare))),
    Sample.entry 3 (some 2) 3 1 (.membershipChange GroupId.everyone
      (Sample.identity 2) (.add none))]

/-- Identity 2 moves itself into `crew`. -/
def joinCrew : LogEntry :=
  Sample.entry 4 (some 3) 4 2
    (.membershipChange crew (Sample.identity 2) (.add none))

theorem everyone_never_escalates_crew :
    ∃ s s', replay .sample openCrewChain = .ok s ∧
      s.apply .sample joinCrew = .ok s' ∧
      s'.inGroup crew (Sample.identity 2) = true ∧
      (∀ c, s'.GovernancePower c →
        s'.identityHolds (Sample.identity 2) c = false) ∧
      SameCapabilities s s' ∧ s'.policy = s.policy := by
  have hcheck : Run.okAnd (replay .sample openCrewChain) (fun s =>
      decide (s.policy.governanceModel = .capabilityHolders) &&
      s.groups.keys.all (fun g => !s.inGroup g (Sample.identity 2) ||
        decide (g = GroupId.everyone)) &&
      Run.okAnd (s.apply .sample joinCrew) fun s' =>
        s'.inGroup crew (Sample.identity 2)) = true := by
    decide +kernel
  obtain ⟨s, hs, hp⟩ := Run.okAnd_iff.1 hcheck
  simp only [Bool.and_eq_true, decide_eq_true_eq, List.all_eq_true] at hp
  obtain ⟨⟨hmodel, hgroups⟩, hstep⟩ := hp
  obtain ⟨s', hs', hin⟩ := Run.okAnd_iff.1 hstep
  have hauthors : ∀ e ∈ [joinCrew], ∀ g, s.inGroup g e.author = true →
      g = GroupId.everyone := by
    intro e he g hg
    rw [List.mem_singleton.1 he] at hg
    obtain ⟨group, hgroup, -⟩ := inGroup_iff.1 hg
    have hkey : g ∈ s.groups.keys :=
      Std.ExtTreeMap.mem_keys.2 ((BTreeMap.mem_iff_exists _ _).2 ⟨group, hgroup⟩)
    have := hgroups g hkey
    rw [show s.inGroup g (Sample.identity 2) = true from hg] at this
    simpa using this
  obtain ⟨hpower, hcaps, hpolicy⟩ := everyone_never_escalates hs
    (Run.foldlM_ok_singleton.2 hs') hauthors hmodel
  exact ⟨s, s', hs, hs', hin, hpower joinCrew (by simp), hcaps, hpolicy⟩

end GovernanceState

end Intranet
