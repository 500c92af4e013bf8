import Intranet.Lib.Branch
import Intranet.Proofs.LogTree
import Intranet.Proofs.Replay

/-!
# Fork choice picks the best leaf

`best_branch_below` compares siblings one level at a time. Read globally it
does something simpler: among the leaves below the start, it picks the one
whose whole ancestry holds the most capability-gated entries, the lower hash
on a tie (`chainThrough_best`), and returns that leaf's ancestry. The
`standing` of a leaf is that pair, and the leaf picked is the only one of its
standing.

The counters are `u32`. What holds for any log is that the result is the
ancestry of *some* leaf (`chainThrough_tip`); that it is the best one needs
the counts not to wrap, hence the bound of 2^32 entries in the results that
speak of weight.
-/

namespace Intranet

namespace GovernanceLog

variable {C : Crypto} {log log' : GovernanceLog} {e : LogEntry} {h p start : Hash}

/-! ## The recursion as a walk of `Lib/Branch.lean` -/

/-- The children of a node, in the order the loop visits them. -/
def kids (log : GovernanceLog) (node : Hash) : List Hash :=
  (log.children[node]?.getD ∅).toList

/-- What the comparison of `best_branch_below` looks at. -/
def offerKey (log : GovernanceLog) (offer : Hash × List Hash) : ℕ ×ₗ Hashᵒᵈ :=
  toLex ((log.childBranch offer.2 offer.1).1.toNat,
    OrderDual.toDual (log.childBranch offer.2 offer.1).2.1)

theorem betterBranch_some (a b : Hash × List Hash) :
    betterBranch (some (log.childBranch a.2 a.1)) (log.childBranch b.2 b.1) =
      if log.offerKey a < log.offerKey b then some (log.childBranch b.2 b.1)
      else some (log.childBranch a.2 a.1) := by
  simp only [betterBranch, offerKey, Prod.Lex.toLex_lt_toLex,
    OrderDual.toDual_lt_toDual, UInt32.lt_iff_toNat_lt, UInt32.toNat_inj]

theorem foldl_betterBranch (log : GovernanceLog) (sub : Hash → List Hash)
    (cs : List Hash) (acc : Option (Hash × List Hash)) :
    cs.foldl (fun best child =>
        betterBranch best (log.childBranch (sub child) child))
        (acc.map fun o => log.childBranch o.2 o.1) =
      ((cs.map fun c => (c, sub c)).foldl
        (List.argAux fun b c => log.offerKey c < log.offerKey b) acc).map
          fun o => log.childBranch o.2 o.1 := by
  induction cs generalizing acc with
  | nil => rfl
  | cons c cs ih =>
      rw [List.foldl_cons, List.map_cons, List.foldl_cons, ← ih]
      congr 1
      cases acc with
      | none => rfl
      | some a =>
          rw [Option.map_some, betterBranch_some a (c, sub c), List.argAux]
          dsimp only
          split <;> rfl

theorem bestBranchBelow_eq (fuel : ℕ) (node : Hash) :
    log.bestBranchBelow fuel node =
      Branch.best log.kids log.offerKey fuel node := by
  induction fuel generalizing node with
  | zero => rfl
  | succ fuel ih =>
      have hfold := foldl_betterBranch log
        (fun c => Branch.best log.kids log.offerKey fuel c) (log.kids node) none
      rw [Option.map_none] at hfold
      rw [Branch.best, List.argmax, bestBranchBelow]
      simp only [ih]
      cases hc : log.children[node]? with
      | none =>
          have hkids : log.kids node = [] := by
            rw [kids, hc]
            rfl
          rw [hkids]
          rfl
      | some children =>
          have hkids : log.kids node = children.toList := by
            rw [kids, hc]
            rfl
          rw [hkids] at hfold ⊢
          dsimp only
          rw [hfold]
          cases (children.toList.map fun c =>
              (c, Branch.best log.kids log.offerKey fuel c)).foldl
            (List.argAux fun b c => log.offerKey c < log.offerKey b) none <;> rfl

/-! ## Leaves and their branches -/

/-- A stored entry nothing builds on. -/
def Leaf (log : GovernanceLog) (l : Hash) : Prop :=
  l ∈ log.entries ∧ ∀ h, log.parentOf h ≠ some l

/-- The gated entries from the root down to `l`. -/
def weight (log : GovernanceLog) (l : Hash) : ℕ :=
  ((log.ancestry l).filter log.gatedAt).length

/-- How a leaf fares in fork choice: weight first, then the lower hash. -/
def standing (log : GovernanceLog) (l : Hash) : ℕ ×ₗ Hashᵒᵈ :=
  toLex (log.weight l, OrderDual.toDual l)

theorem standing_injective : Function.Injective log.standing := by
  intro a b hab
  have := congrArg (fun k => (ofLex k).2) hab
  exact OrderDual.toDual_inj.1 this

theorem Wf.mem_kids (hwf : Wf C log) {c k : Hash} :
    c ∈ log.kids k ↔ log.parentOf c = some k := by
  rw [kids, Std.ExtTreeSet.mem_toList, mem_siblings, hwf.child_iff]

theorem Wf.height (hwf : Wf C log) : ∃ height : Hash → ℕ,
    (∀ k, ∀ c ∈ log.kids k, height c < height k) ∧
      ∀ k, height k ≤ log.len := by
  obtain ⟨rank, hfall, hbound⟩ := hwf.ranked
  refine ⟨fun k => log.len - rank k, fun k c hc => ?_, fun k => Nat.sub_le _ _⟩
  have h1 := hfall c k (hwf.mem_kids.1 hc)
  have h2 := hbound c
  dsimp only
  omega

/-- A path to a leaf is the rest of that leaf's ancestry. -/
theorem Wf.leafPath_tip (hwf : Wf C log) {k : Hash} {path : List Hash}
    (hpath : Branch.LeafPath log.kids k path) (hk : k ∈ log.entries) :
    log.Leaf (path.getLast?.getD k) ∧
      Walk.Above log.parentOf k (path.getLast?.getD k) ∧
      log.ancestry (path.getLast?.getD k) = log.ancestry k ++ path := by
  induction hpath with
  | @leaf k hleaf =>
      refine ⟨⟨hk, fun h hh => ?_⟩, .refl k, by simp⟩
      have hc : h ∈ log.kids k := hwf.mem_kids.2 hh
      rw [hleaf] at hc
      cases hc
  | @step k c path hc _ ih =>
      have hparent := hwf.mem_kids.1 hc
      obtain ⟨hleaf, habove, hanc⟩ := ih (mem_of_parentOf hparent)
      have htip : (c :: path).getLast?.getD k = path.getLast?.getD c := by
        rw [List.getLast?_cons, Option.getD_some]
      rw [htip]
      refine ⟨hleaf, .trans ?_ habove, ?_⟩
      · exact Walk.above_iff.2 (.inr ⟨k, hparent, .refl k⟩)
      · rw [hanc, hwf.ancestry_some hparent, List.append_assoc]
        rfl

/-- Every leaf below a node is at the end of a path from it. -/
theorem Wf.exists_leafPath (hwf : Wf C log) {l k : Hash} (hl : log.Leaf l)
    (habove : Walk.Above log.parentOf k l) :
    ∃ path, Branch.LeafPath log.kids k path ∧ path.getLast?.getD k = l := by
  induction habove with
  | refl =>
      refine ⟨[], .leaf ?_, rfl⟩
      refine List.eq_nil_iff_forall_not_mem.2 fun c hc => ?_
      exact hl.2 c (hwf.mem_kids.1 hc)
  | @tail x y _ hxy ih =>
      obtain ⟨path, hpath, htip⟩ := ih
      refine ⟨x :: path, .step (hwf.mem_kids.2 hxy) hpath, ?_⟩
      rw [List.getLast?_cons, Option.getD_some, htip]

/-- The chain through a stored entry is the ancestry of a leaf below it. -/
theorem Wf.chainThrough_tip (hwf : Wf C log) (hstart : start ∈ log.entries) :
    ∃ t, log.Leaf t ∧ Walk.Above log.parentOf start t ∧
      log.chainThrough start = log.ancestry t := by
  obtain ⟨height, hfall, hbound⟩ := hwf.height
  have hpath := Branch.best_leafPath hfall log.offerKey
    (Nat.lt_succ_of_le (hbound start))
  obtain ⟨hleaf, habove, hanc⟩ := hwf.leafPath_tip hpath hstart
  exact ⟨_, hleaf, habove, by rw [chainThrough, bestBranchBelow_eq, hanc]⟩

/-! ## The leaf it picks -/

/-- As long as the path is short enough for a `u32`, an offer is worth its
gated entries and its tip. -/
theorem offerKey_eq {c : Hash} {path : List Hash}
    (hlen : (c :: path).length < 2 ^ 32) :
    log.offerKey (c, path) = toLex (((c :: path).filter log.gatedAt).length,
      OrderDual.toDual (path.getLast?.getD c)) := by
  have hfilter : (path.filter log.gatedAt).length ≤ path.length :=
    List.length_filter_le _ _
  rw [List.length_cons] at hlen
  have hcount : (path.filter log.gatedAt).length < UInt32.size := by
    rw [UInt32.size]
    omega
  rw [offerKey, childBranch, List.filter_cons]
  dsimp only
  congr 2
  split
  · rw [List.length_cons, UInt32.toNat_add, UInt32.toNat_ofNat_of_lt' hcount]
    rw [show (1 : UInt32).toNat = 1 from rfl, Nat.mod_eq_of_lt (by omega)]
    omega
  · rw [UInt32.zero_add, UInt32.toNat_ofNat_of_lt' hcount]

theorem lex_add_le {a b n : ℕ} {x y : Hashᵒᵈ} :
    toLex (n + a, x) ≤ toLex (n + b, y) ↔ toLex (a, x) ≤ toLex (b, y) := by
  simp only [Prod.Lex.toLex_le_toLex, Nat.add_lt_add_iff_left,
    Nat.add_left_cancel_iff]

theorem weight_append {l : Hash} {path : List Hash}
    (hanc : log.ancestry l = log.ancestry start ++ path) :
    log.weight l = log.weight start + (path.filter log.gatedAt).length := by
  rw [weight, hanc, List.filter_append, List.length_append]
  rfl

/-- Fork choice below a stored entry ends at the leaf of the best standing. -/
theorem Wf.chainThrough_best (hwf : Wf C log) (hlen : log.len < 2 ^ 32)
    (hstart : start ∈ log.entries) :
    ∃ t, log.Leaf t ∧ Walk.Above log.parentOf start t ∧
      log.chainThrough start = log.ancestry t ∧
      ∀ l, log.Leaf l → Walk.Above log.parentOf start l →
        log.standing l ≤ log.standing t := by
  obtain ⟨height, hfall, hbound⟩ := hwf.height
  have hfuel := Nat.lt_succ_of_le (hbound start)
  have hpath := Branch.best_leafPath hfall log.offerKey hfuel
  obtain ⟨hleaf, habove, hanc⟩ := hwf.leafPath_tip hpath hstart
  refine ⟨_, hleaf, habove, by rw [chainThrough, bestBranchBelow_eq, hanc], ?_⟩
  -- no path below a child is too long to count
  have hshort : ∀ k c path, c ∈ log.kids k → Branch.LeafPath log.kids c path →
      (c :: path).length < 2 ^ 32 := by
    intro k c path hc hp
    have := Branch.LeafPath.length_le hfall (.step hc hp)
    exact (this.trans (hbound k)).trans_lt hlen
  have hmono : ∀ k c d d' p p', c ∈ log.kids k →
      Branch.LeafPath log.kids c (d :: p) → Branch.LeafPath log.kids c (d' :: p') →
      log.offerKey (d, p) ≤ log.offerKey (d', p') →
        log.offerKey (c, d :: p) ≤ log.offerKey (c, d' :: p') := by
    intro k c d d' p p' hc hp hp' hle
    have h1 := hshort k c _ hc hp
    have h2 := hshort k c _ hc hp'
    rw [offerKey_eq (by simp at h1 ⊢; omega), offerKey_eq (by simp at h2 ⊢; omega)]
      at hle
    rw [offerKey_eq h1, offerKey_eq h2]
    rw [List.filter_cons (x := c), List.filter_cons (x := c),
      List.getLast?_cons, List.getLast?_cons, Option.getD_some, Option.getD_some]
    split
    · rw [List.length_cons, List.length_cons, Nat.add_comm _ 1, Nat.add_comm _ 1]
      exact lex_add_le.2 hle
    · exact hle
  intro l hl hal
  obtain ⟨q, hq, rfl⟩ := hwf.exists_leafPath hl hal
  obtain ⟨-, -, hlanc⟩ := hwf.leafPath_tip hq hstart
  rw [standing, standing, weight_append hanc, weight_append hlanc, lex_add_le]
  cases hq with
  | leaf hnil =>
      rw [Branch.best_nil hnil]
  | @step _ d q hd hq =>
      obtain ⟨c, p, hbest, hle⟩ := Branch.key_le_best hfall hmono hfuel hd hq
      rw [hbest] at hpath ⊢
      cases hpath with
      | step hc hp =>
          rw [offerKey_eq (hshort _ _ _ hd hq), offerKey_eq (hshort _ _ _ hc hp)]
            at hle
          rw [List.getLast?_cons, List.getLast?_cons, Option.getD_some,
            Option.getD_some]
          exact hle

/-! ## The canonical chain before anything is final -/

theorem Wf.root_above (hwf : Wf C log) {root : Hash}
    (hroot : log.root = some root) (hmem : h ∈ log.entries) :
    Walk.Above log.parentOf root h := by
  obtain ⟨hhead, -⟩ := hwf.ancestry_head hmem
  rw [hroot] at hhead
  exact hwf.mem_ancestry.1 (List.mem_of_head? hhead)

theorem Wf.root_mem (hwf : Wf C log) {root : Hash}
    (hroot : log.root = some root) : root ∈ log.entries :=
  ((hwf.root_iff root).1 hroot).1

theorem Wf.root_isSome (hwf : Wf C log) (hmem : h ∈ log.entries) :
    ∃ root, log.root = some root :=
  Option.isSome_iff_exists.1 (hwf.ancestry_head hmem).2

/-- The leaf is at or below the finalized entry, if there is one. -/
def Eligible (log : GovernanceLog) (l : Hash) : Prop :=
  ∀ f, log.finalized = some f → Walk.Above log.parentOf f l

/-- The canonical chain is the ancestry of the leaf of the best standing,
of those at or below the finalized entry. -/
theorem Wf.canonicalChain_eligible (hwf : Wf C log) (hlen : log.len < 2 ^ 32)
    {root : Hash} (hroot : log.root = some root) :
    ∃ t, log.Leaf t ∧ log.Eligible t ∧ log.canonicalChain = log.ancestry t ∧
      ∀ l, log.Leaf l → log.Eligible l → log.standing l ≤ log.standing t := by
  have hstart : log.finalized.getD root ∈ log.entries := by
    cases hf : log.finalized with
    | none => exact hwf.root_mem hroot
    | some f => exact hwf.finalized_mem f hf
  obtain ⟨t, hleaf, habove, hchain, hbest⟩ := hwf.chainThrough_best hlen hstart
  refine ⟨t, hleaf, ?_, ?_, fun l hl heligible => hbest l hl ?_⟩
  · intro f hf
    rwa [hf] at habove
  · rw [canonicalChain, hroot]
    exact hchain
  · cases hf : log.finalized with
    | none => exact hwf.root_above hroot hl.1
    | some f => exact heligible f hf

/-- With nothing final, the canonical chain is the ancestry of the leaf of
the best standing. -/
theorem Wf.canonicalChain_best (hwf : Wf C log) (hlen : log.len < 2 ^ 32)
    (hfinal : log.finalized = none) {root : Hash}
    (hroot : log.root = some root) :
    ∃ t, log.Leaf t ∧ log.canonicalChain = log.ancestry t ∧
      ∀ l, log.Leaf l → log.standing l ≤ log.standing t := by
  obtain ⟨t, hleaf, -, hchain, hbest⟩ := hwf.canonicalChain_eligible hlen hroot
  refine ⟨t, hleaf, hchain, fun l hl => hbest l hl fun f hf => ?_⟩
  rw [hfinal] at hf
  cases hf

end GovernanceLog

end Intranet
