import Intranet.Lib.Reach
import Intranet.Proofs.Replay

/-!
# Tier resolution is sound

`tier_of` decides whether a capability leads to governance power by a
depth-first walk over the `ManageMembership` grants, and answers `Ordinary`
when it re-enters a group it is already inside. This file says what that
answer is worth: an `Ordinary` means that no chain of grants, cyclic or not,
ends at a group with power (`tierOf_ordinary`), and an accepted `everyone`
ceiling means that nothing `everyone` can reach has any
(`checkEveryoneInvariant_reach`).

The walk's fuel is bookkeeping. Each level adds a stored group to the
visiting set, so the groups still outside it bound the depth, and with fuel
above that number the walk is a finished run of the source's recursion
(`resolves_tierOfInner`). The other two answers are read off such a run as
well: `Governance` has found a group with power, an error has found a group
that is undefined or holds an unregistered extension.
-/

namespace Intranet

namespace GovernanceState

variable {s : GovernanceState}

/-! ## What the walk looks for -/

/-- Governance-tier by itself: intrinsically, or by the policy registry. -/
def DirectPower (s : GovernanceState) (c : Capability) : Prop :=
  c.intrinsicTier = some .governance ∨
    ∃ name, c = .extension name ∧ s.policy.extensionTier name = some .governance

/-- A stored group that holds everything, or something governance-tier. -/
def PowerfulGroup (s : GovernanceState) (g : GroupId) : Prop :=
  ∃ group, s.groups[g]? = some group ∧
    (group.capabilities = .all ∨ ∃ set c, group.capabilities = .explicit set ∧
      c ∈ set ∧ s.DirectPower c)

/-- The members of `g` may change the membership of `h` by an explicit
grant. -/
def Manages (s : GovernanceState) (g h : GroupId) : Prop :=
  ∃ group set, s.groups[g]? = some group ∧
    group.capabilities = .explicit set ∧ Capability.manageMembership h ∈ set

/-- A capability from which governance power can be had: it is
governance-tier itself, or it manages a group from which a chain of grants
leads to a powerful one. -/
inductive GovernancePower (s : GovernanceState) : Capability → Prop where
  | direct {c : Capability} : s.DirectPower c → GovernancePower s c
  | managed {g h : GroupId} : Relation.ReflTransGen s.Manages g h →
      s.PowerfulGroup h → GovernancePower s (.manageMembership g)

/-! ## The walk -/

theorem scanHeld_ordinary {tierOf : Capability → Except GovernanceError Tier}
    {caps : List Capability} (h : scanHeld tierOf caps = .ok .ordinary) :
    ∀ c ∈ caps, tierOf c = .ok .ordinary := by
  induction caps with
  | nil => simp
  | cons held rest ih =>
      unfold scanHeld at h
      split at h
      · cases h
      · cases h
      · next hheld =>
          intro c hc
          rcases List.mem_cons.1 hc with rfl | hc
          · exact hheld
          · exact ih h c hc

/-- How many stored groups the walk has not entered. -/
def outside (s : GovernanceState) (visiting : BTreeSet GroupId) : ℕ :=
  (s.groups.keys.filter fun g => decide (g ∉ visiting)).length

/-- Entering a stored group leaves one fewer outside. -/
theorem outside_insert {visiting : BTreeSet GroupId} {g : GroupId}
    (hg : g ∈ s.groups) (hv : g ∉ visiting) :
    s.outside (visiting.insert g) < s.outside visiting := by
  refine BTreeMap.length_filter_keys_lt (fun h hh hin => hh ?_) hg hv ?_
  · exact (BTreeSet.mem_insert_iff _ _ _).2 (.inr hin)
  · simp

theorem outside_empty : s.outside ∅ = s.groups.size := by
  simp [outside]

/-! ## Finished walks

The source's recursion carries no counter. A `Resolves` is one finished run of
it, and what an answer says is read off the run. -/

/-- An extension capability the policy registers no tier for. -/
def Unregistered (s : GovernanceState) (c : Capability) : Prop :=
  ∃ name, c = .extension name ∧ s.policy.extensionTier name = none

/-- A group that is undefined, or that holds an unregistered extension. -/
def BrokenGroup (s : GovernanceState) (g : GroupId) : Prop :=
  s.groups[g]? = none ∨ ∃ group set c, s.groups[g]? = some group ∧
    group.capabilities = .explicit set ∧ c ∈ set ∧ s.Unregistered c

/-- `tier_of_inner`, run to its end inside the groups of `visiting`. A scan of
a group's capabilities stops at the first that is not ordinary. -/
inductive Resolves (s : GovernanceState) :
    Capability → BTreeSet GroupId → Except GovernanceError Tier → Prop where
  | intrinsic {c : Capability} {visiting : BTreeSet GroupId} {tier : Tier} :
      c.intrinsicTier = some tier → Resolves s c visiting (.ok tier)
  | registered {name : String} {visiting : BTreeSet GroupId} {tier : Tier} :
      s.policy.extensionTier name = some tier →
      Resolves s (.extension name) visiting (.ok tier)
  | unregistered {name : String} {visiting : BTreeSet GroupId} :
      s.policy.extensionTier name = none →
      Resolves s (.extension name) visiting
        (.error (.unregisteredExtensionCapability name))
  | reentered {g : GroupId} {visiting : BTreeSet GroupId} : g ∈ visiting →
      Resolves s (.manageMembership g) visiting (.ok .ordinary)
  | undefined {g : GroupId} {visiting : BTreeSet GroupId} : g ∉ visiting →
      s.groups[g]? = none →
      Resolves s (.manageMembership g) visiting (.error (.unknownGroup g))
  | unrestricted {g : GroupId} {visiting : BTreeSet GroupId} {group : Group} :
      g ∉ visiting → s.groups[g]? = some group → group.capabilities = .all →
      Resolves s (.manageMembership g) visiting (.ok .governance)
  | exhausted {g : GroupId} {visiting : BTreeSet GroupId} {group : Group}
      {set : BTreeSet Capability} : g ∉ visiting → s.groups[g]? = some group →
      group.capabilities = .explicit set →
      (∀ c ∈ set, Resolves s c (visiting.insert g) (.ok .ordinary)) →
      Resolves s (.manageMembership g) visiting (.ok .ordinary)
  | stopped {g : GroupId} {visiting : BTreeSet GroupId} {group : Group}
      {set : BTreeSet Capability} {held : Capability}
      {answer : Except GovernanceError Tier} : g ∉ visiting →
      s.groups[g]? = some group → group.capabilities = .explicit set →
      held ∈ set → Resolves s held (visiting.insert g) answer →
      answer ≠ .ok .ordinary →
      Resolves s (.manageMembership g) visiting answer

/-- A scan that does not end in `Ordinary` answers what one of the
capabilities answers. -/
theorem scanHeld_stopped {tierOf : Capability → Except GovernanceError Tier}
    {caps : List Capability} (h : scanHeld tierOf caps ≠ .ok .ordinary) :
    ∃ c ∈ caps, scanHeld tierOf caps = tierOf c := by
  induction caps with
  | nil => exact absurd rfl h
  | cons held rest ih =>
      unfold scanHeld at h ⊢
      cases htier : tierOf held with
      | error err => exact ⟨held, List.mem_cons_self, by rw [htier]⟩
      | ok tier =>
          cases tier with
          | governance => exact ⟨held, List.mem_cons_self, by rw [htier]⟩
          | ordinary =>
              rw [htier] at h
              obtain ⟨c, hc, heq⟩ := ih h
              exact ⟨c, List.mem_cons_of_mem held hc, heq⟩

/-- With more fuel than there are groups outside, the walk is a finished run:
its fuel never runs out. -/
theorem resolves_tierOfInner (fuel : ℕ) (c : Capability)
    (visiting : BTreeSet GroupId) (hfuel : s.outside visiting < fuel) :
    s.Resolves c visiting (s.tierOfInner fuel c visiting) := by
  induction fuel generalizing c visiting with
  | zero => exact absurd hfuel (Nat.not_lt_zero _)
  | succ fuel ih =>
      cases c with
      | extension name =>
          rw [tierOfInner]
          cases htier : s.policy.extensionTier name with
          | some tier => exact .registered htier
          | none => exact .unregistered htier
      | manageMembership g =>
          rw [tierOfInner]
          by_cases hv : g ∈ visiting
          · rw [if_pos (Std.ExtTreeSet.contains_iff_mem.2 hv)]
            exact .reentered hv
          rw [if_neg (mt Std.ExtTreeSet.contains_iff_mem.1 hv)]
          cases hgroup : s.groups[g]? with
          | none => exact .undefined hv hgroup
          | some group =>
              have hlt := outside_insert
                ((BTreeMap.mem_iff_exists _ _).2 ⟨group, hgroup⟩) hv
              have hheld : ∀ c, s.Resolves c (visiting.insert g)
                  (s.tierOfInner fuel c (visiting.insert g)) :=
                fun c => ih c _ (by omega)
              dsimp only
              cases hcaps : group.capabilities with
              | all => exact .unrestricted hv hgroup hcaps
              | explicit set =>
                  by_cases hord : scanHeld (fun held => s.tierOfInner fuel held
                      (visiting.insert g)) set.toList = .ok .ordinary
                  · dsimp only
                    rw [hord]
                    refine .exhausted hv hgroup hcaps fun c hc => ?_
                    rw [← scanHeld_ordinary hord c
                      (Std.ExtTreeSet.mem_toList.2 hc)]
                    exact hheld c
                  · obtain ⟨c, hc, heq⟩ := scanHeld_stopped hord
                    refine .stopped hv hgroup hcaps
                      (Std.ExtTreeSet.mem_toList.1 hc) ?_ hord
                    dsimp only
                    rw [heq]
                    exact hheld c
      | _ => exact .intrinsic rfl

theorem resolves_tierOf (s : GovernanceState) (c : Capability) :
    s.Resolves c ∅ (s.tierOf c) := by
  refine resolves_tierOfInner _ c ∅ ?_
  rw [outside_empty]
  exact Nat.lt_succ_self _

theorem not_directPower_manageMembership (g : GroupId) :
    ¬ s.DirectPower (.manageMembership g) := by
  rintro (hi | ⟨n, hn, -⟩)
  · cases hi
  · cases hn

/-- A group whose capabilities are listed has no power and is not broken, if
that is so of every one of them. -/
theorem group_ordinary {g : GroupId} {group : Group}
    {set : BTreeSet Capability} (hgroup : s.groups[g]? = some group)
    (hcaps : group.capabilities = .explicit set)
    (hset : ∀ d ∈ set, ¬ s.DirectPower d ∧ ¬ s.Unregistered d) :
    ¬ s.PowerfulGroup g ∧ ¬ s.BrokenGroup g := by
  constructor
  · rintro ⟨group', hgroup', hpow⟩
    rw [hgroup] at hgroup'
    cases hgroup'
    rcases hpow with hall | ⟨set', d, hcaps', hd, hdirect⟩
    · rw [hcaps] at hall
      cases hall
    · rw [hcaps] at hcaps'
      cases hcaps'
      exact (hset d hd).1 hdirect
  · rintro (hnone | ⟨group', set', d, hgroup', hcaps', hd, hunreg⟩)
    · rw [hgroup] at hnone
      cases hnone
    · rw [hgroup] at hgroup'
      cases hgroup'
      rw [hcaps] at hcaps'
      cases hcaps'
      exact (hset d hd).2 hunreg

/-- An `Ordinary` answer rules out power and breakage: of the capability, and
of every group at the end of a chain of grants that keeps out of the visiting
set. -/
theorem Resolves.ordinary {c : Capability} {visiting : BTreeSet GroupId}
    {answer : Except GovernanceError Tier} (h : s.Resolves c visiting answer)
    (hanswer : answer = .ok .ordinary) :
    (¬ s.DirectPower c ∧ ¬ s.Unregistered c) ∧
      ∀ g, c = .manageMembership g → g ∉ visiting → ∀ x,
        Relation.ReflTransGen (Reach.Avoid s.Manages {v | v ∈ visiting}) g x →
          ¬ s.PowerfulGroup x ∧ ¬ s.BrokenGroup x := by
  induction h with
  | @intrinsic c visiting tier htier =>
      cases hanswer
      refine ⟨⟨?_, ?_⟩, ?_⟩
      · rintro (hi | ⟨n, rfl, -⟩)
        · rw [htier] at hi
          cases hi
        · cases htier
      · rintro ⟨n, rfl, -⟩
        cases htier
      · rintro g rfl
        cases htier
  | @registered name visiting tier htier =>
      cases hanswer
      refine ⟨⟨?_, ?_⟩, fun g hc => by cases hc⟩
      · rintro (hi | ⟨n, hn, hgov⟩)
        · cases hi
        · cases hn
          rw [htier] at hgov
          cases hgov
      · rintro ⟨n, hn, hnone⟩
        cases hn
        rw [htier] at hnone
        cases hnone
  | unregistered => cases hanswer
  | @reentered g visiting hv =>
      refine ⟨⟨not_directPower_manageMembership g, ?_⟩, ?_⟩
      · rintro ⟨n, hn, -⟩
        cases hn
      · intro g' hg' hv'
        cases hg'
        exact absurd hv hv'
  | undefined => cases hanswer
  | unrestricted => cases hanswer
  | @exhausted g visiting group set hv hgroup hcaps _ ih =>
      refine ⟨⟨not_directPower_manageMembership g, ?_⟩, ?_⟩
      · rintro ⟨n, hn, -⟩
        cases hn
      intro g' hg' _ x hpath
      cases hg'
      rcases Reach.reflTransGen_avoid_insert hpath with
        rfl | ⟨m, ⟨group', set', hgroup', hcaps', hmem⟩, hm, hrest⟩
      · -- the group itself: every held capability was scanned
        exact group_ordinary hgroup hcaps fun d hd => (ih d hd rfl).1
      · -- further on: the grant it leaves by was scanned
        rw [hgroup] at hgroup'
        cases hgroup'
        rw [hcaps] at hcaps'
        cases hcaps'
        rw [← BTreeSet.setOf_mem_insert] at hm hrest
        exact (ih _ hmem rfl).2 m rfl hm x hrest
  | stopped _ _ _ _ _ hne => exact absurd hanswer hne

/-- A `Governance` answer has found the power it speaks of. -/
theorem Resolves.governance {c : Capability} {visiting : BTreeSet GroupId}
    {answer : Except GovernanceError Tier} (h : s.Resolves c visiting answer)
    (hanswer : answer = .ok .governance) : s.GovernancePower c := by
  induction h with
  | intrinsic htier =>
      cases hanswer
      exact .direct (.inl htier)
  | registered htier =>
      cases hanswer
      exact .direct (.inr ⟨_, rfl, htier⟩)
  | unregistered => cases hanswer
  | reentered => cases hanswer
  | undefined => cases hanswer
  | unrestricted _ hgroup hcaps =>
      exact .managed .refl ⟨_, hgroup, .inl hcaps⟩
  | exhausted => cases hanswer
  | @stopped g _ group set held _ _ hgroup hcaps hheld _ _ ih =>
      rcases ih hanswer with hdirect | ⟨hpath, hpow⟩
      · exact .managed .refl ⟨group, hgroup, .inr ⟨set, held, hcaps, hheld, hdirect⟩⟩
      · exact .managed (.head ⟨group, set, hgroup, hcaps, hheld⟩ hpath) hpow

/-- An error has found the breakage it complains of: an unregistered
extension, or a chain of grants to a broken group. -/
theorem Resolves.broken {c : Capability} {visiting : BTreeSet GroupId}
    {answer : Except GovernanceError Tier} {err : GovernanceError}
    (h : s.Resolves c visiting answer) (hanswer : answer = .error err) :
    s.Unregistered c ∨ ∃ g x, c = .manageMembership g ∧
      Relation.ReflTransGen s.Manages g x ∧ s.BrokenGroup x := by
  induction h with
  | intrinsic => cases hanswer
  | registered => cases hanswer
  | unregistered htier => exact Or.inl ⟨_, rfl, htier⟩
  | reentered => cases hanswer
  | undefined _ hgroup => exact Or.inr ⟨_, _, rfl, .refl, .inl hgroup⟩
  | unrestricted => cases hanswer
  | exhausted => cases hanswer
  | @stopped g _ group set held _ _ hgroup hcaps hheld _ _ ih =>
      refine Or.inr ?_
      rcases ih hanswer with hunreg | ⟨h, x, rfl, hpath, hbroken⟩
      · exact ⟨g, g, rfl, .refl, .inr ⟨group, set, held, hgroup, hcaps, hheld, hunreg⟩⟩
      · exact ⟨g, x, rfl, .head ⟨group, set, hgroup, hcaps, hheld⟩ hpath, hbroken⟩

/-- Without a visiting set the chains are all of them. -/
theorem Resolves.ordinary_reach {g x : GroupId}
    (h : s.Resolves (.manageMembership g) ∅ (.ok .ordinary))
    (hpath : Relation.ReflTransGen s.Manages g x) :
    ¬ s.PowerfulGroup x ∧ ¬ s.BrokenGroup x := by
  refine (h.ordinary rfl).2 g rfl (by simp) x ?_
  have hV : {v | v ∈ (∅ : BTreeSet GroupId)} = ∅ := by simp
  rwa [hV, Reach.avoid_empty]

theorem tierOf_ordinary {c : Capability} (h : s.tierOf c = .ok .ordinary) :
    ¬ s.GovernancePower c := by
  have hrun := resolves_tierOf s c
  rw [h] at hrun
  intro hcase
  rcases hcase with hdirect | ⟨hpath, hpow⟩
  · exact (hrun.ordinary rfl).1.1 hdirect
  · exact (hrun.ordinary_reach hpath).1 hpow

/-- Tier resolution is exact, on cyclic graphs of grants too. The recursion
comes to an end; `Ordinary` means that no group reachable from `g` has power
and that all of them resolve; `Governance` means that one has power; and an
error means that one does not resolve. -/
theorem tier_resolution_exact (s : GovernanceState) (g : GroupId) :
    s.Resolves (.manageMembership g) ∅ (s.tierOf (.manageMembership g)) ∧
    (s.tierOf (.manageMembership g) = .ok .ordinary →
      ∀ x, Relation.ReflTransGen s.Manages g x →
        ¬ s.PowerfulGroup x ∧ ¬ s.BrokenGroup x) ∧
    (s.tierOf (.manageMembership g) = .ok .governance →
      ∃ x, Relation.ReflTransGen s.Manages g x ∧ s.PowerfulGroup x) ∧
    ∀ err, s.tierOf (.manageMembership g) = .error err →
      ∃ x, Relation.ReflTransGen s.Manages g x ∧ s.BrokenGroup x := by
  have hrun := resolves_tierOf s (.manageMembership g)
  refine ⟨hrun, fun h x hpath => ?_, fun h => ?_, fun err h => ?_⟩
  · rw [h] at hrun
    exact hrun.ordinary_reach hpath
  · rcases hrun.governance h with hdirect | ⟨hpath, hpow⟩
    · exact absurd hdirect (not_directPower_manageMembership g)
    · exact ⟨_, hpath, hpow⟩
  · rcases hrun.broken h with ⟨n, hn, -⟩ | ⟨g', x, hg', hpath, hbroken⟩
    · cases hn
    · cases hg'
      exact ⟨x, hpath, hbroken⟩

/-! ## The `everyone` ceiling -/

theorem checkHeld_ok {caps : List Capability} (h : s.checkHeld caps = .ok ()) :
    ∀ c ∈ caps, s.tierOf c = .ok .ordinary := by
  induction caps with
  | nil => simp
  | cons held rest ih =>
      unfold checkHeld at h
      split at h
      · cases h
      · cases h
      · next hheld =>
          intro c hc
          rcases List.mem_cons.1 hc with rfl | hc
          · exact hheld
          · exact ih h c hc

/-- The groups `everyone` can reach by grants. -/
def ReachableFromEveryone (s : GovernanceState) (g : GroupId) : Prop :=
  Relation.ReflTransGen s.Manages GroupId.everyone g

/-- Under the ceiling, nothing reachable from `everyone` has power. -/
theorem checkEveryoneInvariant_reach (h : s.checkEveryoneInvariant = .ok ())
    {g : GroupId} (hg : s.ReachableFromEveryone g) : ¬ s.PowerfulGroup g := by
  unfold checkEveryoneInvariant at h
  split at h
  · next hnone =>
      -- without the group there are no grants to follow
      rcases Relation.ReflTransGen.cases_head hg with rfl | ⟨m, hm, -⟩
      · intro hgiven
        obtain ⟨group, hgroup, -⟩ := hgiven
        rw [hnone] at hgroup
        cases hgroup
      · obtain ⟨group, -, hgroup, -⟩ := hm
        rw [hnone] at hgroup
        cases hgroup
  · next everyone heveryone =>
      split at h
      · cases h
      · next held hheld =>
          have hord : ∀ c ∈ held, ¬ s.GovernancePower c := fun c hc =>
            tierOf_ordinary (checkHeld_ok h c (Std.ExtTreeSet.mem_toList.2 hc))
          rcases Relation.ReflTransGen.cases_head hg with rfl | ⟨m, hm, hrest⟩
          · intro hgiven
            obtain ⟨group, hgroup, hpow⟩ := hgiven
            rw [heveryone] at hgroup
            cases hgroup
            rcases hpow with hall | ⟨set, c, hset, hc, hdir⟩
            · rw [hheld] at hall
              cases hall
            · rw [hheld] at hset
              cases hset
              exact hord c hc (.direct hdir)
          · obtain ⟨group, set, hgroup, hset, hmem⟩ := hm
            rw [heveryone] at hgroup
            cases hgroup
            rw [hheld] at hset
            cases hset
            intro hpow
            exact hord _ hmem (.managed hrest hpow)

/-! ## What the ceiling reads

Tiers look at the policy and at what groups hold, never at who is in them. -/

theorem SameCapabilities.tierOfInner_eq {t : GovernanceState}
    (h : SameCapabilities s t) (hpolicy : t.policy = s.policy) (fuel : ℕ)
    (c : Capability) (visiting : BTreeSet GroupId) :
    t.tierOfInner fuel c visiting = s.tierOfInner fuel c visiting := by
  induction fuel generalizing c visiting with
  | zero => rfl
  | succ fuel ih =>
      cases c with
      | manageMembership g =>
          rw [tierOfInner, tierOfInner]
          split
          · rfl
          · have hg := h g
            cases hs : s.groups[g]? with
            | none =>
                rw [hs] at hg
                rw [Option.map_eq_none_iff.1 hg]
            | some group =>
                rw [hs] at hg
                obtain ⟨group', ht, hcaps⟩ := Option.map_eq_some_iff.1 hg
                rw [ht]
                dsimp only
                rw [hcaps]
                simp only [ih]
      | extension name => rw [tierOfInner, tierOfInner, hpolicy]
      | _ => rfl

theorem SameCapabilities.checkEveryoneInvariant_eq {t : GovernanceState}
    (h : SameCapabilities s t) (hpolicy : t.policy = s.policy)
    (hsize : t.groups.size = s.groups.size) :
    t.checkEveryoneInvariant = s.checkEveryoneInvariant := by
  have htier : ∀ c, t.tierOf c = s.tierOf c := by
    intro c
    rw [tierOf, tierOf, hsize, h.tierOfInner_eq hpolicy]
  have hheld : ∀ caps, t.checkHeld caps = s.checkHeld caps := by
    intro caps
    induction caps with
    | nil => rfl
    | cons c caps ih => rw [checkHeld, checkHeld, htier, ih]
  have heveryone := h GroupId.everyone
  rw [checkEveryoneInvariant, checkEveryoneInvariant]
  cases hs : s.groups[GroupId.everyone]? with
  | none =>
      rw [hs] at heveryone
      rw [Option.map_eq_none_iff.1 heveryone]
  | some group =>
      rw [hs] at heveryone
      obtain ⟨group', ht, hcaps⟩ := Option.map_eq_some_iff.1 heveryone
      rw [ht]
      dsimp only
      rw [hcaps]
      simp only [hheld]

end GovernanceState

end Intranet
