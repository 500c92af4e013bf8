import Intranet.Proofs.Ledger
import Intranet.Proofs.Replication

/-!
# Repair and the nodes that never take their copy

A plan names the assigned nodes that are missing a copy, and nothing it reads
tells it that a node was named before. A node that stays without its copy
stays in every later plan, and the next node of the ranking is never asked:
what repair can reach is the present nodes among the first `target`, beside
whoever held a copy already (`mem_holdersOf_rounds`). That is enough only
where as many present nodes hold a copy outside the assigned ones as there are
absent nodes among them (`repair_avoids_absent_iff`).
-/

namespace Intranet

namespace ReplicationView

variable {C : Crypto} {cid : Cid} {ledger : CapabilityLedger} {target : ℕ}
  {absent : List PerNetworkIdentityId} {view next : ReplicationView}

/-- One round of repair: the nodes of the plan announce the content, all but
the absent ones, and the view takes their announcements in. Where there is no
plan nothing happens. -/
def Round (C : Crypto) (cid : Cid) (ledger : CapabilityLedger) (target : ℕ)
    (absent : List PerNetworkIdentityId) (view next : ReplicationView) : Prop :=
  match view.planRepair C cid ledger target with
  | none => next = view
  | some plan =>
      ∃ announcements, view.recordAll C announcements = .ok next ∧
        ∀ node, node ∈ plan.assignTo ∧ node ∉ absent ↔
          ∃ ann ∈ announcements, node = ann.1.node ∧ cid ∈ ann.1.holdings

/-- The holders of the content that are not absent. -/
def present (view : ReplicationView) (cid : Cid)
    (absent : List PerNetworkIdentityId) : List PerNetworkIdentityId :=
  (view.holdersOf cid).filter fun node => node ∉ absent

/-- What a round adds to the holders: the assigned nodes that are not
absent. -/
theorem mem_holdersOf_round (hheld : view.holdersOf cid ≠ [])
    (h : Round C cid ledger target absent view next)
    {node : PerNetworkIdentityId} :
    node ∈ next.holdersOf cid ↔ node ∈ view.holdersOf cid ∨
      (node ∈ (nodes C cid ledger).take target ∧ node ∉ absent) := by
  unfold Round at h
  rw [planRepair_eq] at h
  by_cases hmissing : view.missing C cid ledger target = []
  · rw [if_neg fun hneeds => hneeds.2 hmissing] at h
    dsimp only at h
    subst h
    constructor
    · exact .inl
    · intro hcase
      rcases hcase with hold | ⟨hfirst, -⟩
      · exact hold
      · exact missing_eq_nil_iff.1 hmissing node hfirst
  · rw [if_pos ⟨hheld, hmissing⟩] at h
    obtain ⟨announcements, hrecord, hexactly⟩ := h
    rw [mem_holdersOf_recordAll hrecord, ← hexactly node, missing,
      List.mem_filter, decide_eq_true_eq]
    constructor
    · intro hcase
      rcases hcase with hold | ⟨⟨hfirst, -⟩, hpresent⟩
      · exact .inl hold
      · exact .inr ⟨hfirst, hpresent⟩
    · intro hcase
      rcases hcase with hold | ⟨hfirst, hpresent⟩
      · exact .inl hold
      · by_cases hold : node ∈ view.holdersOf cid
        · exact .inl hold
        · exact .inr ⟨⟨hfirst, hold⟩, hpresent⟩

section Rounds

variable {run : ℕ → ReplicationView}

/-- A holder stays one, so there is always somebody to copy from. -/
theorem holdersOf_rounds_ne_nil (hheld : (run 0).holdersOf cid ≠ [])
    (hround : ∀ n, Round C cid ledger target absent (run n) (run (n + 1)))
    (n : ℕ) : (run n).holdersOf cid ≠ [] := by
  induction n with
  | zero => exact hheld
  | succ n ih =>
      obtain ⟨holder, hholder⟩ := List.exists_mem_of_ne_nil _ ih
      exact List.ne_nil_of_mem
        ((mem_holdersOf_round ih (hround n)).2 (.inl hholder))

/-- The holders after any number of rounds: the first round reaches whom
repair can reach, and no later one reaches anybody else. -/
theorem mem_holdersOf_rounds (hheld : (run 0).holdersOf cid ≠ [])
    (hround : ∀ n, Round C cid ledger target absent (run n) (run (n + 1)))
    (n : ℕ) {node : PerNetworkIdentityId} :
    node ∈ (run (n + 1)).holdersOf cid ↔ node ∈ (run 0).holdersOf cid ∨
      (node ∈ (nodes C cid ledger).take target ∧ node ∉ absent) := by
  induction n with
  | zero => exact mem_holdersOf_round hheld (hround 0)
  | succ n ih =>
      rw [mem_holdersOf_round (holdersOf_rounds_ne_nil hheld hround (n + 1))
        (hround (n + 1)), ih, or_assoc, or_self]

/-- The present holders after a round, counted: the assigned nodes that are
present, and the present holders beside them. -/
theorem length_present_rounds (hheld : (run 0).holdersOf cid ≠ [])
    (hround : ∀ n, Round C cid ledger target absent (run n) (run (n + 1)))
    (n : ℕ) :
    ((run (n + 1)).present cid absent).length =
      (((nodes C cid ledger).take target).filter
        fun node => node ∉ absent).length +
      (((run 0).present cid absent).filter
        fun node => node ∉ (nodes C cid ledger).take target).length := by
  rw [← List.length_append]
  refine List.Perm.length_eq ((List.perm_ext_iff_of_nodup ?_ ?_).2 ?_)
  · exact ((run (n + 1)).nodup_holdersOf cid).filter _
  · refine List.Nodup.append ?_ ?_ ?_
    · exact ((nodup_nodes C cid ledger).sublist (List.take_sublist _ _)).filter _
    · exact (((run 0).nodup_holdersOf cid).filter _).filter _
    · intro node hfirst hbeside
      exact of_decide_eq_true (List.mem_filter.1 hbeside).2
        (List.mem_filter.1 hfirst).1
  · intro node
    simp only [present, List.mem_append, List.mem_filter, decide_eq_true_eq,
      mem_holdersOf_rounds hheld hround n]
    tauto

/-- A present holder of the start is still one. -/
theorem length_present_le (hheld : (run 0).holdersOf cid ≠ [])
    (hround : ∀ n, Round C cid ledger target absent (run n) (run (n + 1)))
    (n : ℕ) :
    ((run n).present cid absent).length ≤
      ((run 1).present cid absent).length := by
  cases n with
  | zero =>
      refine (List.subperm_of_subset
        (((run 0).nodup_holdersOf cid).filter _) fun node hnode => ?_).length_le
      obtain ⟨hold, hpresent⟩ := List.mem_filter.1 hnode
      exact List.mem_filter.2
        ⟨(mem_holdersOf_rounds hheld hround 0).2 (.inl hold), hpresent⟩
  | succ n =>
      rw [length_present_rounds hheld hround n,
        length_present_rounds hheld hround 0]

/-- With at least `target` eligible nodes that are present and somebody to
copy from, rounds of repair in which the absent nodes never take their copies
end with `target` present holders if and only if the absent nodes among the
first `target` of the ranking are no more than the present nodes that held the
content at the start beside those. -/
theorem repair_avoids_absent_iff (C : Crypto) (cid : Cid)
    (ledger : CapabilityLedger) (target : ℕ)
    (absent : List PerNetworkIdentityId) (run : ℕ → ReplicationView)
    (heligible : target ≤
      ((nodes C cid ledger).filter fun node => node ∉ absent).length)
    (hheld : (run 0).holdersOf cid ≠ [])
    (hround : ∀ n, Round C cid ledger target absent (run n) (run (n + 1))) :
    (∃ n, target ≤ ((run n).present cid absent).length) ↔
      ((ledger.selectReplicas C cid.hash.bytes.toList target).filter
        fun node => node ∈ absent).length ≤
      (((run 0).present cid absent).filter fun node =>
        node ∉ ledger.selectReplicas C cid.hash.bytes.toList target).length := by
  have hfirst : ((nodes C cid ledger).take target).length = target := by
    have hsome := heligible.trans (List.length_filter_le _ _)
    rw [List.length_take, Nat.min_eq_left hsome]
  have hsplit := List.length_eq_length_filter_add
    (l := (nodes C cid ledger).take target) fun node => decide (node ∈ absent)
  have hone := length_present_rounds hheld hround 0
  rw [Nat.zero_add] at hone
  have hreach : (∃ n, target ≤ ((run n).present cid absent).length) ↔
      target ≤ ((run 1).present cid absent).length := by
    constructor
    · rintro ⟨n, hn⟩
      exact hn.trans (length_present_le hheld hround n)
    · exact fun h => ⟨1, h⟩
  rw [hreach, selectReplicas_eq]
  simp only [decide_not] at hone ⊢
  omega

end Rounds

/-! ### An absent node of three -/

/-- Three nodes that offer storage; placement prefers the lower number. -/
def threeNodes : CapabilityLedger :=
  (((CapabilityLedger.new Sample.network).put
    (CapabilityLedger.sampleAd 1 100 0)).put
    (CapabilityLedger.sampleAd 2 100 0)).put
    (CapabilityLedger.sampleAd 3 100 0)

/-- The content is held by one node. -/
def heldBy (n : ℕ) : ReplicationView :=
  { new Sample.network with
    holders := recordHolding (Sample.identity n) ⟨0⟩ ∅ ⟨Sample.hash 5⟩ }

/-- The second node announces the content. -/
def secondAnnounces : HoldingAnnouncement × GovernanceState :=
  (⟨Sample.network, Sample.identity 2,
    Std.ExtTreeSet.ofList [⟨Sample.hash 5⟩] compare, ⟨1⟩,
    Sample.signature 2 0⟩, CapabilityLedger.sampleState [2])

/-- The first node is absent, and the third holds a copy beside the assigned
nodes: repair reaches the second. -/
theorem repair_avoids_absent_third :
    ∃ run : ℕ → ReplicationView, run 0 = heldBy 3 ∧
      (∀ n, Round .sample ⟨Sample.hash 5⟩ threeNodes 2 [Sample.identity 1]
        (run n) (run (n + 1))) ∧
      ∃ n, 2 ≤ ((run n).present ⟨Sample.hash 5⟩ [Sample.identity 1]).length := by
  have hplan : (heldBy 3).planRepair .sample ⟨Sample.hash 5⟩ threeNodes 2 =
      some ⟨⟨Sample.hash 5⟩, [Sample.identity 1, Sample.identity 2]⟩ := by
    decide +kernel
  have hcheck : Run.okAnd ((heldBy 3).recordAll .sample [secondAnnounces])
      (fun next => decide (next.planRepair .sample ⟨Sample.hash 5⟩ threeNodes 2 =
        some ⟨⟨Sample.hash 5⟩, [Sample.identity 1]⟩)) = true := by
    decide +kernel
  obtain ⟨next, hrecord, hnext⟩ := Run.okAnd_iff.1 hcheck
  have hnext := of_decide_eq_true hnext
  have hround : ∀ n, Round .sample ⟨Sample.hash 5⟩ threeNodes 2
      [Sample.identity 1] (if n = 0 then heldBy 3 else next)
      (if n + 1 = 0 then heldBy 3 else next) := by
    intro n
    rw [if_neg n.succ_ne_zero]
    split
    · rw [Round, hplan]
      refine ⟨[secondAnnounces], hrecord, fun node => ?_⟩
      have hne : Sample.identity 2 ≠ Sample.identity 1 := by decide
      have hholds : (⟨Sample.hash 5⟩ : Cid) ∈ secondAnnounces.1.holdings := by
        decide +kernel
      simp only [List.mem_cons, List.not_mem_nil, or_false, exists_eq_left]
      constructor
      · rintro ⟨rfl | rfl, hpresent⟩
        · exact absurd rfl hpresent
        · exact ⟨rfl, hholds⟩
      · rintro ⟨rfl, -⟩
        exact ⟨.inr rfl, hne⟩
    · rw [Round, hnext]
      refine ⟨[], rfl, fun node => ?_⟩
      simp
  refine ⟨fun n => if n = 0 then heldBy 3 else next, rfl, hround, ?_⟩
  refine (repair_avoids_absent_iff .sample ⟨Sample.hash 5⟩ threeNodes 2
    [Sample.identity 1] _ ?_ ?_ hround).2 ?_
  · decide +kernel
  · show (heldBy 3).holdersOf _ ≠ []
    decide +kernel
  · rw [if_pos rfl]
    decide +kernel

/-- The first node is absent and the second holds the content: every plan
names the first again, and the third is never asked. -/
theorem absent_node_stalls :
    ¬ ∀ (C : Crypto) (cid : Cid) (ledger : CapabilityLedger) (target : ℕ)
        (absent : List PerNetworkIdentityId) (run : ℕ → ReplicationView),
      (∀ node ∈ absent, node ∈ nodes C cid ledger) →
      target ≤ ((nodes C cid ledger).filter fun node => node ∉ absent).length →
      (run 0).holdersOf cid ≠ [] →
      (∀ n, Round C cid ledger target absent (run n) (run (n + 1))) →
      ∃ n, target ≤ ((run n).present cid absent).length := by
  intro h
  have hplan : (heldBy 2).planRepair .sample ⟨Sample.hash 5⟩ threeNodes 2 =
      some ⟨⟨Sample.hash 5⟩, [Sample.identity 1]⟩ := by
    decide +kernel
  obtain ⟨n, hn⟩ := h .sample ⟨Sample.hash 5⟩ threeNodes 2
    [Sample.identity 1] (fun _ => heldBy 2) (by decide +kernel)
    (by decide +kernel) (by decide +kernel) (by
      intro n
      rw [Round, hplan]
      refine ⟨[], rfl, fun node => ?_⟩
      simp)
  exact absurd hn (by decide +kernel)

end ReplicationView

end Intranet
