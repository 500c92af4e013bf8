import Mathlib

/-!
# The best branch of a finite tree

`kids` lists the children of a node, `key` says what a child and the branch
chosen below it are worth together. `best` walks down, at every node taking
the child whose offer is worth most, the first such one on a tie.

For any `key` at all the result is a path to a leaf (`best_leafPath`). When,
among such paths, a better continuation never makes the whole worth less
(`hmono`), taking the best child at every step finds the best path overall
(`key_le_best`). The height falls along every edge and pays for the
recursion; it pays as well for listing all the paths (`mem_paths`).
-/

namespace Branch

variable {K W : Type} [LinearOrder W]

/-- What the walk below `k` takes, excluding `k` itself. -/
def best (kids : K → List K) (key : K × List K → W) : ℕ → K → List K
  | 0, _ => []
  | fuel + 1, k =>
      match ((kids k).map fun c => (c, best kids key fuel c)).argmax key with
      | none => []
      | some offer => offer.1 :: offer.2

/-- A path from below a node down to a leaf. -/
inductive LeafPath (kids : K → List K) : K → List K → Prop where
  | leaf {k : K} : kids k = [] → LeafPath kids k []
  | step {k c : K} {p : List K} : c ∈ kids k → LeafPath kids c p →
      LeafPath kids k (c :: p)

variable {kids : K → List K} {key : K × List K → W}

/-- At an inner node the walk takes one of the offers, and the best one. -/
theorem best_succ (key : K × List K → W) (fuel : ℕ) {k : K}
    (hk : kids k ≠ []) :
    ∃ c ∈ kids k, best kids key (fuel + 1) k = c :: best kids key fuel c ∧
      ∀ d ∈ kids k, key (d, best kids key fuel d) ≤
        key (c, best kids key fuel c) := by
  rw [best]
  cases hmax : ((kids k).map fun c => (c, best kids key fuel c)).argmax key with
  | none =>
      rw [List.argmax_eq_none, List.map_eq_nil_iff] at hmax
      exact absurd hmax hk
  | some offer =>
      obtain ⟨c, hc, rfl⟩ := List.mem_map.1 (List.argmax_mem hmax)
      refine ⟨c, hc, rfl, fun d hd => ?_⟩
      exact List.le_of_mem_argmax (List.mem_map.2 ⟨d, hd, rfl⟩) hmax

theorem best_nil {fuel : ℕ} {k : K} (hk : kids k = []) :
    best kids key fuel k = [] := by
  cases fuel with
  | zero => rfl
  | succ fuel => rw [best, hk]; rfl

/-- Every path from below a node down to a leaf, listed exhaustively. -/
def paths (kids : K → List K) : ℕ → K → List (List K)
  | 0, _ => []
  | fuel + 1, k =>
      match kids k with
      | [] => [[]]
      | c :: cs => (c :: cs).flatMap fun c => (paths kids fuel c).map (c :: ·)

theorem paths_leaf {fuel : ℕ} {k : K} (hk : kids k = []) :
    paths kids (fuel + 1) k = [[]] := by
  rw [paths, hk]

theorem paths_inner {fuel : ℕ} {k : K} (hk : kids k ≠ []) :
    paths kids (fuel + 1) k =
      (kids k).flatMap fun c => (paths kids fuel c).map (c :: ·) := by
  rw [paths]
  cases hc : kids k with
  | nil => exact absurd hc hk
  | cons c cs => rfl

section Height

variable {height : K → ℕ} (hfall : ∀ k, ∀ c ∈ kids k, height c < height k)
include hfall

theorem LeafPath.length_le {k : K} {p : List K} (h : LeafPath kids k p) :
    p.length ≤ height k := by
  induction h with
  | leaf _ => exact Nat.zero_le _
  | step hc _ ih =>
      have := hfall _ _ hc
      rw [List.length_cons]
      omega

theorem best_leafPath (key : K × List K → W) {fuel : ℕ} {k : K}
    (hf : height k < fuel) :
    LeafPath kids k (best kids key fuel k) := by
  induction fuel generalizing k with
  | zero => exact absurd hf (Nat.not_lt_zero _)
  | succ fuel ih =>
      by_cases hk : kids k = []
      · rw [best_nil hk]
        exact .leaf hk
      · obtain ⟨c, hc, heq, -⟩ := best_succ key fuel hk
        rw [heq]
        have := hfall k c hc
        exact .step hc (ih (by omega))

theorem mem_paths {fuel : ℕ} {k : K} {p : List K} (hf : height k < fuel) :
    p ∈ paths kids fuel k ↔ LeafPath kids k p := by
  induction fuel generalizing k p with
  | zero => exact absurd hf (Nat.not_lt_zero _)
  | succ fuel ih =>
      by_cases hk : kids k = []
      · rw [paths_leaf hk, List.mem_singleton]
        constructor
        · rintro rfl
          exact .leaf hk
        · intro h
          cases h with
          | leaf => rfl
          | step hc => rw [hk] at hc; cases hc
      · simp only [paths_inner hk, List.mem_flatMap, List.mem_map]
        constructor
        · rintro ⟨c, hc, q, hq, rfl⟩
          have := hfall k c hc
          exact .step hc ((ih (by omega)).1 hq)
        · intro h
          cases h with
          | leaf hleaf => exact absurd hleaf hk
          | @step _ c q hc hq =>
              have := hfall k c hc
              exact ⟨c, hc, q, (ih (by omega)).2 hq, rfl⟩

/-- No path to a leaf is worth more than the one the walk takes. -/
theorem key_le_best
    (hmono : ∀ k c d d' p p', c ∈ kids k → LeafPath kids c (d :: p) →
      LeafPath kids c (d' :: p') → key (d, p) ≤ key (d', p') →
        key (c, d :: p) ≤ key (c, d' :: p'))
    {fuel : ℕ} {k d : K} {q : List K} (hf : height k < fuel)
    (hd : d ∈ kids k) (hq : LeafPath kids d q) :
    ∃ c p, best kids key fuel k = c :: p ∧ key (d, q) ≤ key (c, p) := by
  induction fuel generalizing k d q with
  | zero => exact absurd hf (Nat.not_lt_zero _)
  | succ fuel ih =>
      obtain ⟨c, hc, heq, hmax⟩ :=
        best_succ key fuel (List.ne_nil_of_mem hd)
      refine ⟨c, _, heq, le_trans ?_ (hmax d hd)⟩
      -- it is enough to compare with what the walk offers below `d`
      cases hq with
      | leaf hleaf => rw [best_nil hleaf]
      | step hx hrest =>
          have hlt := hfall k d hd
          obtain ⟨c', p', heq', hle⟩ := ih (by omega) hx hrest
          have hwalk : LeafPath kids d (best kids key fuel d) :=
            best_leafPath hfall key (by omega)
          rw [heq'] at hwalk ⊢
          exact hmono k d _ _ _ _ hd (.step hx hrest) hwalk hle

end Height

end Branch
