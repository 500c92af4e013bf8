import Intranet.Lib.Run
import Intranet.Ref.Replication
import Intranet.Ref.Sample

/-!
# Repair restores the target and then rests

Whether content needs repair is a question about two lists without
repetitions: the ranking of the eligible nodes, and the holders. The first
`target` nodes of the ranking are the ones whose copies count. What is missing
among them is what the repair walk takes: the walk leaves out holders and
stops when as many nodes have been taken as copies are missing, and the
missing nodes come first (`take_missing`). Once they all announce the content
nothing is missing any more.
-/

namespace Intranet

/-! ## The first nodes of a ranking -/

section Ranking

variable {α : Type} [DecidableEq α] {holders nodes : List α}

/-- The nodes of the first `target` that hold, and those that do not. -/
theorem length_durable_add_missing (hholders : holders.Nodup)
    (hnodes : nodes.Nodup) (target : ℕ) :
    (holders.filter fun node => node ∈ nodes.take target).length +
      ((nodes.take target).filter fun node => node ∉ holders).length =
      (nodes.take target).length := by
  have hperm : (holders.filter fun node => node ∈ nodes.take target).Perm
      ((nodes.take target).filter fun node => node ∈ holders) := by
    refine (List.perm_ext_iff_of_nodup (hholders.filter _)
      ((hnodes.sublist (List.take_sublist _ _)).filter _)).2 fun node => ?_
    simp only [List.mem_filter, decide_eq_true_eq]
    exact and_comm
  rw [hperm.length_eq]
  have hsplit := List.length_eq_length_filter_add (l := nodes.take target)
    fun node => decide (node ∈ holders)
  rw [hsplit]
  simp only [decide_not]

/-- Taking as many non-holders of the ranking as copies are missing takes the
non-holders among the first `target` nodes. -/
theorem take_missing (hholders : holders.Nodup) (hnodes : nodes.Nodup)
    (target : ℕ) :
    (nodes.filter fun node => node ∉ holders).take
      (target - (holders.filter fun node => node ∈ nodes.take target).length) =
      (nodes.take target).filter fun node => node ∉ holders := by
  have hcount := length_durable_add_missing hholders hnodes target
  have hsplit : (nodes.filter fun node => node ∉ holders) =
      ((nodes.take target).filter fun node => node ∉ holders) ++
        (nodes.drop target).filter fun node => node ∉ holders := by
    rw [← List.filter_append, List.take_append_drop]
  have hlen : (nodes.take target).length = min target nodes.length :=
    List.length_take
  rw [hsplit]
  rcases Nat.lt_or_ge target nodes.length with hlt | hge
  · -- the ranking is longer: the walk stops at the end of the first part
    refine List.take_left' ?_
    omega
  · -- every eligible node is among the first
    rw [List.drop_eq_nil_of_le hge, List.filter_nil, List.append_nil]
    refine List.take_of_length_le ?_
    omega

/-- Nothing is missing exactly when every one of the first nodes holds. -/
theorem durable_full_iff (hholders : holders.Nodup) (hnodes : nodes.Nodup)
    (target : ℕ) :
    (nodes.take target).length ≤
      (holders.filter fun node => node ∈ nodes.take target).length ↔
      ∀ node ∈ nodes.take target, node ∈ holders := by
  have hcount := length_durable_add_missing hholders hnodes target
  constructor
  · intro hfull node hnode
    by_contra hnot
    have hnil : ((nodes.take target).filter fun node => node ∉ holders) = [] := by
      rw [← List.length_eq_zero_iff]
      omega
    have hkept := List.filter_eq_nil_iff.1 hnil node hnode
    exact hkept (decide_eq_true hnot)
  · intro hall
    have hnil : ((nodes.take target).filter fun node => node ∉ holders) = [] := by
      refine List.filter_eq_nil_iff.2 fun node hnode => ?_
      simpa using hall node hnode
    rw [hnil, List.length_nil] at hcount
    omega

end Ranking

/-! ## The ledger's ranking -/

theorem CapabilityLedger.nodup_nodes (ledger : CapabilityLedger) :
    (ledger.storageCandidates.map CapabilityAdvertisement.node).Nodup := by
  have hkeys : (ledger.entries.toList.map fun e => e.2.node) =
      ledger.entries.keys := by
    rw [← Std.ExtTreeMap.map_fst_toList_eq_keys]
    refine List.map_congr_left fun e he => ?_
    exact ledger.keyed e.1 e.2 ((BTreeMap.mem_toList_iff _ _).1 he)
  have hnodup : ((ledger.entries.toList.map Prod.snd).map
      CapabilityAdvertisement.node).Nodup := by
    rw [List.map_map]
    show (ledger.entries.toList.map fun e => e.2.node).Nodup
    rw [hkeys]
    exact Std.ExtTreeMap.nodup_keys
  exact hnodup.sublist (List.filter_sublist.map _)

/-- A ranking of candidates with distinct nodes names no node twice. -/
theorem Placement.nodup_rank (C : Crypto) (key : List UInt8)
    {candidates : List CapabilityAdvertisement} (field : WeightField)
    (h : (candidates.map CapabilityAdvertisement.node).Nodup) :
    ((Placement.rank C key candidates field).map ScoredCandidate.node).Nodup := by
  unfold Placement.rank
  refine ((List.perm_insertionSort Placement.rankOrder _).map _).nodup_iff.2 ?_
  have hsub : ((candidates.filterMap fun a =>
      if 0 < field.weightOf a then
        some (⟨a.node, Placement.score C key a.node (field.weightOf a)⟩ :
          ScoredCandidate)
      else none).map ScoredCandidate.node).Sublist
      (candidates.map CapabilityAdvertisement.node) := by
    induction candidates with
    | nil => exact List.Sublist.refl _
    | cons a candidates ih =>
        have htail := ih (List.nodup_cons.1 h).2
        rw [List.filterMap_cons]
        split
        · exact htail.cons _
        · next scored hscored =>
            split at hscored
            · cases hscored
              exact htail.cons_cons _
            · cases hscored
  exact h.sublist hsub

namespace ReplicationView

variable {C : Crypto} {cid : Cid} {ledger : CapabilityLedger}

/-- The ranked nodes. -/
def nodes (C : Crypto) (cid : Cid) (ledger : CapabilityLedger) :
    List PerNetworkIdentityId :=
  (ranked C cid ledger).map ScoredCandidate.node

theorem nodup_nodes (C : Crypto) (cid : Cid) (ledger : CapabilityLedger) :
    (nodes C cid ledger).Nodup :=
  Placement.nodup_rank C _ _ ledger.nodup_nodes

theorem selectReplicas_eq (target : ℕ) :
    ledger.selectReplicas C cid.hash.bytes.toList target =
      (nodes C cid ledger).take target :=
  List.map_take

theorem nodup_holdersOf (view : ReplicationView) (cid : Cid) :
    (view.holdersOf cid).Nodup := by
  unfold holdersOf
  cases view.holders[cid]? with
  | none => exact List.nodup_nil
  | some nodes => exact Std.ExtTreeMap.nodup_keys

/-! ## Assessing -/

/-- The holders among the nodes placement assigned. -/
def durable (C : Crypto) (view : ReplicationView) (cid : Cid)
    (ledger : CapabilityLedger) (target : ℕ) : List PerNetworkIdentityId :=
  (view.holdersOf cid).filter fun node => node ∈ (nodes C cid ledger).take target

/-- The nodes placement assigned that hold no copy. -/
def missing (C : Crypto) (view : ReplicationView) (cid : Cid)
    (ledger : CapabilityLedger) (target : ℕ) : List PerNetworkIdentityId :=
  ((nodes C cid ledger).take target).filter fun node =>
    node ∉ view.holdersOf cid

variable {view : ReplicationView} {target : ℕ}

theorem mem_assigned (node : PerNetworkIdentityId) :
    (Std.ExtTreeSet.ofList (((ranked C cid ledger).take target).map
      ScoredCandidate.node) compare : BTreeSet PerNetworkIdentityId).contains
      node = decide (node ∈ (nodes C cid ledger).take target) := by
  rw [Std.ExtTreeSet.contains_ofList, List.contains_eq_mem, nodes, List.map_take]

theorem assess_durableHolders :
    (view.assess C cid ledger target).durableHolders =
      view.durable C cid ledger target := by
  simp only [assess, durable, mem_assigned]

/-- The standing of a content item, in terms of the first nodes of the
ranking. -/
theorem assess_health :
    (view.assess C cid ledger target).health =
      if view.holdersOf cid = [] then .lost
      else if target ≤ (view.durable C cid ledger target).length then .healthy
      else if ((nodes C cid ledger).take target).length ≤
        (view.durable C cid ledger target).length then .degraded
      else .underReplicated := by
  have hlen : ((nodes C cid ledger).take target).length =
      min target (ranked C cid ledger).length := by
    rw [List.length_take, nodes, List.length_map]
  have hcount := length_durable_add_missing (view.nodup_holdersOf cid)
    (nodup_nodes C cid ledger) target
  have hle : (view.durable C cid ledger target).length ≤
      min target (ranked C cid ledger).length := by
    unfold durable
    omega
  have hlost : (((view.holdersOf cid).filter fun node =>
      decide (node ∈ (nodes C cid ledger).take target)).isEmpty &&
      ((view.holdersOf cid).filter fun node =>
        !decide (node ∈ (nodes C cid ledger).take target)).isEmpty) = true ↔
      view.holdersOf cid = [] := by
    rw [Bool.and_eq_true, List.isEmpty_iff, List.isEmpty_iff,
      List.filter_eq_nil_iff, List.filter_eq_nil_iff]
    constructor
    · intro hnone
      refine List.eq_nil_iff_forall_not_mem.2 fun node hnode => ?_
      have hfirst := hnone.1 node hnode
      have hsecond := hnone.2 node hnode
      simp only [Bool.not_eq_true] at hfirst hsecond
      rw [hfirst] at hsecond
      cases hsecond
    · intro hnil
      rw [hnil]
      simp
  simp only [assess, mem_assigned, hlen]
  rw [show (view.holdersOf cid).filter
    (fun node => decide (node ∈ (nodes C cid ledger).take target)) =
      view.durable C cid ledger target from rfl] at hlost ⊢
  split
  · next hnone => rw [if_pos (hlost.1 hnone)]
  · next hsome =>
      rw [if_neg fun h => hsome (hlost.2 h)]
      generalize (view.durable C cid ledger target).length = held at hle ⊢
      by_cases hfull : target ≤ held
      · rw [if_pos hfull, if_pos ⟨by omega, hfull⟩]
      · rw [if_neg hfull, if_neg fun h => hfull h.2]
        by_cases hreach : min target (ranked C cid ledger).length ≤ held
        · rw [if_pos hreach, ite_self]
        · rw [if_neg hreach, if_neg (by omega)]

/-- Content needs repair when somebody holds it and an assigned node does
not. -/
theorem health_underReplicated_iff :
    (view.assess C cid ledger target).health = .underReplicated ↔
      view.holdersOf cid ≠ [] ∧ view.missing C cid ledger target ≠ [] := by
  have hcount := length_durable_add_missing (view.nodup_holdersOf cid)
    (nodup_nodes C cid ledger) target
  have hmissing : view.missing C cid ledger target ≠ [] ↔
      (view.durable C cid ledger target).length <
        ((nodes C cid ledger).take target).length := by
    rw [← List.length_pos_iff]
    unfold missing durable
    omega
  have hlen : ((nodes C cid ledger).take target).length ≤ target :=
    List.length_take_le _ _
  rw [assess_health, hmissing]
  split
  · next hnil => simp [hnil]
  · next hne =>
      split
      · simp only [reduceCtorEq, false_iff, not_and]
        intro _
        omega
      · split
        · simp only [reduceCtorEq, false_iff, not_and]
          intro _
          omega
        · simp only [true_iff]
          exact ⟨hne, by omega⟩

theorem missing_eq_nil_iff :
    view.missing C cid ledger target = [] ↔
      ∀ node ∈ (nodes C cid ledger).take target, node ∈ view.holdersOf cid := by
  rw [missing, List.filter_eq_nil_iff]
  simp only [decide_eq_true_eq, not_not]

/-- With every assigned node holding it, content is as safe as it can be. -/
theorem health_of_missing_nil (hheld : view.holdersOf cid ≠ [])
    (hnil : view.missing C cid ledger target = []) :
    (view.assess C cid ledger target).health = .healthy ∨
      (view.assess C cid ledger target).health = .degraded := by
  have hfull : ((nodes C cid ledger).take target).length ≤
      (view.durable C cid ledger target).length :=
    (durable_full_iff (view.nodup_holdersOf cid) (nodup_nodes C cid ledger)
      target).2 (missing_eq_nil_iff.1 hnil)
  rw [assess_health, if_neg hheld]
  split
  · exact .inl rfl
  · exact .inr rfl

theorem holdersOf_eq_nil_of_lost
    (h : (view.assess C cid ledger target).health = .lost) :
    view.holdersOf cid = [] := by
  rw [assess_health] at h
  split at h
  · next hnil => exact hnil
  · split at h
    · cases h
    · split at h <;> cases h

theorem missing_eq_nil_of_healthy
    (h : (view.assess C cid ledger target).health = .healthy) :
    view.missing C cid ledger target = [] := by
  by_contra hmissing
  by_cases hheld : view.holdersOf cid = []
  · rw [assess_health, if_pos hheld] at h
    cases h
  · rw [health_underReplicated_iff.2 ⟨hheld, hmissing⟩] at h
    cases h

/-! ## Planning -/

/-- The plan names the assigned nodes that are missing a copy, in placement
order. -/
theorem planRepair_eq :
    view.planRepair C cid ledger target =
      if view.holdersOf cid ≠ [] ∧ view.missing C cid ledger target ≠ [] then
        some ⟨cid, view.missing C cid ledger target⟩
      else none := by
  have hassign : (((nodes C cid ledger).filter fun node =>
      !(Std.ExtTreeSet.ofList (view.holdersOf cid) compare :
        BTreeSet PerNetworkIdentityId).contains node).take
        (target - (view.durable C cid ledger target).length)) =
      view.missing C cid ledger target := by
    simp only [Std.ExtTreeSet.contains_ofList, List.contains_eq_mem,
      ← decide_not]
    exact take_missing (view.nodup_holdersOf cid) (nodup_nodes C cid ledger)
      target
  unfold planRepair
  simp only [assess_durableHolders]
  rw [show (ranked C cid ledger).map ScoredCandidate.node = nodes C cid ledger
    from rfl, hassign]
  by_cases hunder : (view.assess C cid ledger target).health = .underReplicated
  · have hneeds := health_underReplicated_iff.1 hunder
    rw [if_neg (not_not.2 hunder), if_pos hneeds,
      if_neg (by simpa using hneeds.2)]
  · rw [if_pos hunder, if_neg fun hneeds =>
      hunder (health_underReplicated_iff.2 hneeds)]

/-! ## Announcing -/

/-- The holders of `a` in the map of a view. -/
theorem mem_holdersOf {a : Cid} {node : PerNetworkIdentityId} :
    node ∈ view.holdersOf a ↔ node ∈ view.holders[a]?.getD ∅ := by
  unfold holdersOf
  cases view.holders[a]? with
  | none => simp
  | some nodes => exact Std.ExtTreeMap.mem_keys

theorem mem_foldl_recordHolding (announcer node : PerNetworkIdentityId)
    (time : Timestamp) (cids : List Cid)
    (holders : BTreeMap Cid (BTreeMap PerNetworkIdentityId Timestamp))
    (a : Cid) :
    node ∈ (cids.foldl (recordHolding announcer time) holders)[a]?.getD ∅ ↔
      node ∈ holders[a]?.getD ∅ ∨ (node = announcer ∧ a ∈ cids) := by
  induction cids generalizing holders with
  | nil => simp
  | cons c cids ih =>
      have hround : node ∈ (recordHolding announcer time holders c)[a]?.getD ∅ ↔
          node ∈ holders[a]?.getD ∅ ∨ (node = announcer ∧ a = c) := by
        unfold recordHolding
        simp only
        rw [BTreeMap.getElem?_insert_ite]
        split
        · next hca =>
            rw [Option.getD_some, BTreeMap.mem_insert_iff, hca]
            constructor
            · intro hcase
              rcases hcase with rfl | hmem
              · exact .inr ⟨rfl, rfl⟩
              · exact .inl hmem
            · intro hcase
              rcases hcase with hmem | ⟨rfl, -⟩
              · exact .inr hmem
              · exact .inl rfl
        · next hca =>
            constructor
            · exact .inl
            · intro hcase
              rcases hcase with hmem | ⟨-, heq⟩
              · exact hmem
              · exact absurd heq.symm hca
      rw [List.foldl_cons, ih, hround, List.mem_cons]
      tauto

/-- An announcement that was accepted is recorded for each of its content
items. -/
theorem record_eq {after : ReplicationView} {ann : HoldingAnnouncement}
    {state : GovernanceState} (h : view.record C ann state = .ok after) :
    after = { view with
      holders := ann.holdings.toList.foldl
        (recordHolding ann.node ann.announcedAt) view.holders } := by
  unfold record at h
  obtain ⟨-, -, h⟩ := Run.bind_ok.1 h
  dsimp only at h
  split at h
  · cases h
  · split at h
    · cases h
    · cases h
      rfl

/-- Who holds `a` after an announcement that was accepted. -/
theorem mem_holdersOf_record {after : ReplicationView}
    {ann : HoldingAnnouncement} {state : GovernanceState}
    (h : view.record C ann state = .ok after) {a : Cid}
    {node : PerNetworkIdentityId} :
    node ∈ after.holdersOf a ↔
      node ∈ view.holdersOf a ∨ (node = ann.node ∧ a ∈ ann.holdings) := by
  rw [record_eq h, mem_holdersOf, mem_holdersOf]
  simp only
  rw [mem_foldl_recordHolding, Std.ExtTreeSet.mem_toList]

theorem mem_holdersOf_recordAll {announcements :
    List (HoldingAnnouncement × GovernanceState)} {after : ReplicationView}
    (h : view.recordAll C announcements = .ok after) {a : Cid}
    {node : PerNetworkIdentityId} :
    node ∈ after.holdersOf a ↔ node ∈ view.holdersOf a ∨
      ∃ ann ∈ announcements, node = ann.1.node ∧ a ∈ ann.1.holdings := by
  induction announcements generalizing view with
  | nil =>
      cases h
      simp
  | cons ann announcements ih =>
      obtain ⟨mid, hfirst, hrest⟩ := Run.foldlM_ok_cons.1 h
      rw [ih hrest, mem_holdersOf_record hfirst]
      simp only [List.mem_cons, exists_eq_or_imp]
      tauto

/-! ## Repair -/

/-- A plan names each node once, and no holder. -/
theorem planned_nodes {plan : RepairPlan}
    (h : view.planRepair C cid ledger target = some plan) :
    plan.assignTo.Nodup ∧
      ∀ node ∈ plan.assignTo, node ∉ view.holdersOf cid := by
  rw [planRepair_eq] at h
  split at h
  · cases h
    refine ⟨?_, fun node hnode => ?_⟩
    · exact ((nodup_nodes C cid ledger).sublist
        (List.take_sublist _ _)).filter _
    · exact of_decide_eq_true (List.mem_filter.1 hnode).2
  · cases h

/-- When exactly the nodes of a plan announce the content, nothing is missing
any more. -/
theorem plan_repairs {plan : RepairPlan} {announcements :
    List (HoldingAnnouncement × GovernanceState)} {after : ReplicationView}
    (h : view.planRepair C cid ledger target = some plan)
    (hrecord : view.recordAll C announcements = .ok after)
    (hexactly : ∀ node, node ∈ plan.assignTo ↔
      ∃ ann ∈ announcements, node = ann.1.node ∧ cid ∈ ann.1.holdings) :
    after.holdersOf cid ≠ [] ∧ after.missing C cid ledger target = [] := by
  rw [planRepair_eq] at h
  split at h
  · next hneeds =>
      cases h
      constructor
      · obtain ⟨node, hnode⟩ := List.exists_mem_of_ne_nil _ hneeds.1
        exact List.ne_nil_of_mem
          ((mem_holdersOf_recordAll hrecord).2 (.inl hnode))
      · refine missing_eq_nil_iff.2 fun node hnode => ?_
        rw [mem_holdersOf_recordAll hrecord]
        by_cases hold : node ∈ view.holdersOf cid
        · exact .inl hold
        · exact .inr ((hexactly node).1
            (List.mem_filter.2 ⟨hnode, decide_eq_true hold⟩))
  · cases h

theorem planRepair_eq_none_iff :
    view.planRepair C cid ledger target = none ↔
      (view.assess C cid ledger target).health = .lost ∨
      (view.assess C cid ledger target).health = .healthy ∨
      ∀ node ∈ ledger.selectReplicas C cid.hash.bytes.toList target,
        node ∈ view.holdersOf cid := by
  rw [selectReplicas_eq, ← missing_eq_nil_iff, planRepair_eq,
    ite_eq_right_iff]
  constructor
  · intro hnone
    by_cases hheld : view.holdersOf cid = []
    · refine .inl ?_
      rw [assess_health, if_pos hheld]
    · refine .inr (.inr (not_not.1 fun hmissing => ?_))
      cases hnone ⟨hheld, hmissing⟩
  · intro hcase hneeds
    rcases hcase with hlost | hhealthy | hnil
    · exact absurd (holdersOf_eq_nil_of_lost hlost) hneeds.1
    · exact absurd (missing_eq_nil_of_healthy hhealthy) hneeds.2
    · exact absurd hnil hneeds.2

/-- A plan names each node once and no holder. When exactly its nodes announce
the content, with announcements the view accepts, the content is healthy or as
good as the network can do, and no plan is made any more. Views that agree on
the holders plan the same, and no plan is made exactly when the content is
lost, healthy, or held by every node that placement selects for it. -/
theorem repair_restores (C : Crypto) (view : ReplicationView)
    (ledger : CapabilityLedger) (cid : Cid) (target : ℕ) :
    (∀ plan, view.planRepair C cid ledger target = some plan →
      plan.assignTo.Nodup ∧
      (∀ node ∈ plan.assignTo, node ∉ view.holdersOf cid) ∧
      ∀ announcements after, view.recordAll C announcements = .ok after →
        (∀ node, node ∈ plan.assignTo ↔
          ∃ ann ∈ announcements, node = ann.1.node ∧ cid ∈ ann.1.holdings) →
        ((after.assess C cid ledger target).health = .healthy ∨
          (after.assess C cid ledger target).health = .degraded) ∧
        after.planRepair C cid ledger target = none) ∧
    (∀ other : ReplicationView, other.holdersOf cid = view.holdersOf cid →
      other.planRepair C cid ledger target =
        view.planRepair C cid ledger target) ∧
    (view.planRepair C cid ledger target = none ↔
      (view.assess C cid ledger target).health = .lost ∨
      (view.assess C cid ledger target).health = .healthy ∨
      ∀ node ∈ ledger.selectReplicas C cid.hash.bytes.toList target,
        node ∈ view.holdersOf cid) := by
  refine ⟨fun plan hplan => ?_, fun other hsame => ?_, planRepair_eq_none_iff⟩
  · obtain ⟨hnodup, hnew⟩ := planned_nodes hplan
    refine ⟨hnodup, hnew, fun announcements after hrecord hexactly => ?_⟩
    obtain ⟨hheld, hnil⟩ := plan_repairs hplan hrecord hexactly
    refine ⟨health_of_missing_nil hheld hnil, ?_⟩
    rw [planRepair_eq, if_neg fun h => h.2 hnil]
  · rw [planRepair_eq, planRepair_eq, missing, missing, hsame]

end ReplicationView

end Intranet
