import Mathlib

/-!
# Gossip

Replicas that hold sets of things and pull from each other along the edges of
a graph. Nothing is ever given up, and everything comes out of a finite stock.
Such replicas are at rest after some time (`settles`). If one that lacks
something of a neighbour's never stays without everybody gaining nothing, they
all hold the same by then (`agree`). How long a pull takes, and what else goes
on meanwhile, is left open.
-/

namespace Gossip

variable {ι E : Type} {hold : ℕ → ι → Set E} {stock : Set E}
  {edge : ι → ι → Prop}

theorem hold_mono (hgrow : ∀ n i, hold n i ⊆ hold (n + 1) i) : Monotone hold :=
  monotone_nat_of_le_succ hgrow

/-- What only ever grows, out of a finite stock, stops growing. -/
theorem settles [Finite ι] (hstock : stock.Finite)
    (hwithin : ∀ n i, hold n i ⊆ stock)
    (hgrow : ∀ n i, hold n i ⊆ hold (n + 1) i) :
    ∃ n, ∀ m, n ≤ m → hold m = hold n := by
  have := hstock.to_subtype
  let inStock : ℕ →o (ι → Set stock) :=
    ⟨fun n i => {x | x.1 ∈ hold n i},
      fun n m hnm i x hx => hold_mono hgrow hnm i hx⟩
  obtain ⟨n, hn⟩ := WellFoundedGT.monotone_chain_condition inStock
  refine ⟨n, fun m hnm => funext fun i => Set.ext fun x => ⟨fun hx => ?_, ?_⟩⟩
  · have hsame : inStock n i = inStock m i := congrFun (hn m hnm) i
    have hmem : (⟨x, hwithin m i hx⟩ : stock) ∈ inStock m i := hx
    rw [← hsame] at hmem
    exact hmem
  · exact fun hx => hold_mono hgrow hnm i hx

/-- Replicas linked by pulls come to hold the same. -/
theorem agree [Finite ι] (hold : ℕ → ι → Set E) (hstock : stock.Finite)
    (hwithin : ∀ n i, hold n i ⊆ stock)
    (hgrow : ∀ n i, hold n i ⊆ hold (n + 1) i)
    (hpull : ∀ i j, edge i j → ∀ n, ∃ m, n ≤ m ∧
      (¬ hold m j ⊆ hold m i → ∃ k, m ≤ k ∧ hold k ≠ hold m))
    (hlinked : ∀ i j, Relation.ReflTransGen edge i j) :
    ∃ n all, ∀ m, n ≤ m → ∀ i, hold m i = all := by
  obtain ⟨n, hn⟩ := settles hstock hwithin hgrow
  have hedge : ∀ i j, edge i j → hold n j ⊆ hold n i := by
    intro i j hij
    obtain ⟨m, hnm, hgains⟩ := hpull i j hij n
    rw [← hn m hnm]
    by_contra hlacks
    obtain ⟨k, hmk, hmore⟩ := hgains hlacks
    exact hmore ((hn k (hnm.trans hmk)).trans (hn m hnm).symm)
  have hpath : ∀ i j, hold n j ⊆ hold n i := by
    intro i j
    induction hlinked i j with
    | refl => exact subset_rfl
    | tail _ hij ih => exact (hedge _ _ hij).trans ih
  refine ⟨n, ⋃ i, hold n i, fun m hnm i => ?_⟩
  rw [hn m hnm]
  exact (Set.subset_iUnion (hold n) i).antisymm (Set.iUnion_subset (hpath i))

end Gossip
