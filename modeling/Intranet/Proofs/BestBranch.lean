import Intranet.Proofs.Finality

/-!
# The greedy choice is the best of all branches

`ForkChoice.lean` finds the leaf fork choice ends at. This file reads the same
fact off the recursion itself: below any stored entry, what
`best_branch_below` returns is the one branch that an exhaustive comparison of
all of them, by gated entries and then by the lower tip, would pick
(`best_branch_optimal`).
-/

namespace Intranet

namespace GovernanceLog

variable {C : Crypto} {log : GovernanceLog} {start : Hash} {path : List Hash}

/-- Every branch from below `start` down to a leaf. -/
def branchesBelow (log : GovernanceLog) (start : Hash) : List (List Hash) :=
  Branch.paths log.kids (log.len + 1) start

/-- The last entry of a branch, `start` itself where nothing is below it. -/
def tipBelow (start : Hash) (path : List Hash) : Hash :=
  path.getLast?.getD start

/-- What the two rules of fork choice say of a branch below `start`: its
gated entries first, then the lower tip. -/
def worth (log : GovernanceLog) (start : Hash) (path : List Hash) :
    ℕ ×ₗ Hashᵒᵈ :=
  toLex ((path.filter log.gatedAt).length,
    OrderDual.toDual (tipBelow start path))

theorem Wf.mem_branchesBelow (hwf : Wf C log) :
    path ∈ log.branchesBelow start ↔ Branch.LeafPath log.kids start path := by
  obtain ⟨height, hfall, hbound⟩ := hwf.height
  exact Branch.mem_paths hfall (Nat.lt_succ_of_le (hbound start))

theorem Wf.bestBranchBelow_mem (hwf : Wf C log) :
    log.bestBranchBelow (log.len + 1) start ∈ log.branchesBelow start := by
  obtain ⟨height, hfall, hbound⟩ := hwf.height
  rw [hwf.mem_branchesBelow, bestBranchBelow_eq]
  exact Branch.best_leafPath hfall log.offerKey
    (Nat.lt_succ_of_le (hbound start))

/-- A branch fares below `start` as its leaf fares in the whole log. -/
theorem Wf.worth_le_iff (hwf : Wf C log) (hstart : start ∈ log.entries)
    {path' : List Hash} (hpath : path ∈ log.branchesBelow start)
    (hpath' : path' ∈ log.branchesBelow start) :
    log.worth start path ≤ log.worth start path' ↔
      log.standing (tipBelow start path) ≤
        log.standing (tipBelow start path') := by
  obtain ⟨-, -, hanc⟩ := hwf.leafPath_tip (hwf.mem_branchesBelow.1 hpath) hstart
  obtain ⟨-, -, hanc'⟩ :=
    hwf.leafPath_tip (hwf.mem_branchesBelow.1 hpath') hstart
  rw [standing, standing, tipBelow, tipBelow, weight_append hanc,
    weight_append hanc', lex_add_le]
  rfl

/-- A branch is known by its tip. -/
theorem Wf.eq_of_tip_eq (hwf : Wf C log) (hstart : start ∈ log.entries)
    {path' : List Hash} (hpath : path ∈ log.branchesBelow start)
    (hpath' : path' ∈ log.branchesBelow start)
    (htip : tipBelow start path = tipBelow start path') : path = path' := by
  obtain ⟨-, -, hanc⟩ := hwf.leafPath_tip (hwf.mem_branchesBelow.1 hpath) hstart
  obtain ⟨-, -, hanc'⟩ :=
    hwf.leafPath_tip (hwf.mem_branchesBelow.1 hpath') hstart
  rw [tipBelow, tipBelow] at htip
  rw [htip, hanc'] at hanc
  exact (List.append_cancel_left hanc).symm

theorem Wf.worth_injOn (hwf : Wf C log) (hstart : start ∈ log.entries)
    {path' : List Hash} (hpath : path ∈ log.branchesBelow start)
    (hpath' : path' ∈ log.branchesBelow start)
    (heq : log.worth start path = log.worth start path') : path = path' := by
  have hsame : log.standing (tipBelow start path) =
      log.standing (tipBelow start path') :=
    le_antisymm ((hwf.worth_le_iff hstart hpath hpath').1 heq.le)
      ((hwf.worth_le_iff hstart hpath' hpath).1 heq.ge)
  exact hwf.eq_of_tip_eq hstart hpath hpath' (standing_injective hsame)

/-- No branch below `start` is worth more than the one the recursion takes. -/
theorem Wf.worth_le_best (hwf : Wf C log) (hlen : log.len < 2 ^ 32)
    (hstart : start ∈ log.entries) (hpath : path ∈ log.branchesBelow start) :
    log.worth start path ≤
      log.worth start (log.bestBranchBelow (log.len + 1) start) := by
  have hmem : log.bestBranchBelow (log.len + 1) start ∈
      log.branchesBelow start := hwf.bestBranchBelow_mem
  obtain ⟨-, -, hanc⟩ := hwf.leafPath_tip (hwf.mem_branchesBelow.1 hmem) hstart
  obtain ⟨hleaf, habove, -⟩ :=
    hwf.leafPath_tip (hwf.mem_branchesBelow.1 hpath) hstart
  obtain ⟨t, ht, hstartt, hchain, hbest⟩ := hwf.chainThrough_best hlen hstart
  obtain ⟨q, hq, hqt⟩ := hwf.exists_leafPath ht hstartt
  have hqmem := hwf.mem_branchesBelow.2 hq
  obtain ⟨-, -, hqanc⟩ := hwf.leafPath_tip hq hstart
  -- the branch taken is the one to the leaf of the best standing
  have heq : q = log.bestBranchBelow (log.len + 1) start := by
    rw [hqt, ← hchain, chainThrough] at hqanc
    exact (List.append_cancel_left hqanc).symm
  rw [← heq, hwf.worth_le_iff hstart hpath hqmem, tipBelow, tipBelow, hqt]
  exact hbest _ hleaf habove

/-- Fork choice is globally optimal. In every log of fewer than 2^32 entries
and from every stored entry, the branch `best_branch_below` takes ends in a
childless entry; it is worth at least as much as any other branch below that
entry, and only itself as much; so it is what comparing all the branches
exhaustively picks. -/
theorem best_branch_optimal {calls : List Call}
    (hfree : CollisionFree C {e | .insert e ∈ calls})
    (hlen : (run C calls).len < 2 ^ 32)
    (hstart : start ∈ (run C calls).entries) :
    Branch.LeafPath (run C calls).kids start
      ((run C calls).bestBranchBelow ((run C calls).len + 1) start) ∧
    (run C calls).Leaf (tipBelow start
      ((run C calls).bestBranchBelow ((run C calls).len + 1) start)) ∧
    (∀ path, Branch.LeafPath (run C calls).kids start path →
      (run C calls).worth start path ≤ (run C calls).worth start
        ((run C calls).bestBranchBelow ((run C calls).len + 1) start) ∧
      ((run C calls).worth start path = (run C calls).worth start
          ((run C calls).bestBranchBelow ((run C calls).len + 1) start) →
        path = (run C calls).bestBranchBelow ((run C calls).len + 1) start)) ∧
    ((run C calls).branchesBelow start).argmax ((run C calls).worth start) =
      some ((run C calls).bestBranchBelow ((run C calls).len + 1) start) := by
  have hwf : Wf C (run C calls) := (within_run hfree fun _ he => he).wf
  have hmem : (run C calls).bestBranchBelow ((run C calls).len + 1) start ∈
      (run C calls).branchesBelow start := hwf.bestBranchBelow_mem
  have hpath := hwf.mem_branchesBelow.1 hmem
  refine ⟨hpath, (hwf.leafPath_tip hpath hstart).1, fun path h => ?_, ?_⟩
  · have hin := hwf.mem_branchesBelow.2 h
    exact ⟨hwf.worth_le_best hlen hstart hin, hwf.worth_injOn hstart hin hmem⟩
  · refine List.argmax_eq_some_iff.2 ⟨hmem, fun path hin => ?_, fun path hin hle => ?_⟩
    · exact hwf.worth_le_best hlen hstart hin
    · have heq := le_antisymm (hwf.worth_le_best hlen hstart hin) hle
      rw [hwf.worth_injOn hstart hin hmem heq]

/-- Three branches on the founding entry: two of one gated entry and one of
two. -/
def threeBranches : List Call :=
  [.insert (Sample.genesis 0 .conservativeDefault []),
    .insert (Sample.entry 1 (some 0) 1 1 (Sample.admits 2)),
    .insert (Sample.entry 2 (some 0) 2 1 (Sample.admits 3)),
    .insert (Sample.entry 3 (some 2) 3 1 (Sample.admits 4)),
    .insert (Sample.entry 4 (some 0) 4 1 (Sample.admits 5))]

/-- The entry a call inserts. -/
def Call.entry? : Call → Option LogEntry
  | .insert e => some e
  | .reconcile _ => none

theorem collisionFree_threeBranches :
    CollisionFree .sample {e | .insert e ∈ threeBranches} := by
  have hfree : CollisionFree .sample
      {e | e ∈ threeBranches.filterMap Call.entry?} :=
    collisionFree_of_nodup (by decide +kernel)
  refine hfree.mono fun e he => ?_
  exact List.mem_filterMap.2 ⟨.insert e, he, rfl⟩

theorem best_branch_optimal_three :
    ((run .sample threeBranches).branchesBelow (Sample.hash 0)).argmax
      ((run .sample threeBranches).worth (Sample.hash 0)) =
        some [Sample.hash 2, Sample.hash 3] := by
  have hstart : Sample.hash 0 ∈ (run .sample threeBranches).entries := by
    decide +kernel
  obtain ⟨-, -, -, hbest⟩ := best_branch_optimal collisionFree_threeBranches
    (by decide +kernel) hstart
  rw [hbest]
  decide +kernel

end GovernanceLog

end Intranet
