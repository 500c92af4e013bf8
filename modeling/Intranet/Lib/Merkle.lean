import Mathlib

/-!
# Combining a list pairwise, level by level

One level up, neighbours are combined and an odd last element goes up as it
is. Levels follow each other until one element is left, which takes no more of
them than the list is long (`exists_single`).

What was combined with what is a tree whose leaves are the list, and the
element left is the value of the tree (`exists_tree`). A value tells its tree
apart where combinations differ from each other and from the leaves, and only
those that occur need to (`Tree.value_inj`). So two lists that come to the
same element are equal, whatever their lengths (`top_inj`): nothing is said of
the shapes of the two trees, which follow.
-/

namespace Merkle

variable {α β : Type} {combine : α → α → α} {l : List α} {n : ℕ}

/-- One level up. -/
def level (combine : α → α → α) : List α → List α
  | a :: b :: rest => combine a b :: level combine rest
  | rest => rest

/-- The pairs that are combined on the way one level up. -/
def pairs : List α → List (α × α)
  | a :: b :: rest => (a, b) :: pairs rest
  | _ => []

/-- The pairs that are combined in the first `n` levels. -/
def combined (combine : α → α → α) : ℕ → List α → List (α × α)
  | 0, _ => []
  | n + 1, l => pairs l ++ combined combine n (level combine l)

/-! ## Going up -/

theorem length_level : (level combine l).length = (l.length + 1) / 2 := by
  induction l using List.twoStepInduction with
  | nil => simp [level]
  | singleton a => simp [level]
  | cons_cons a b l ih _ =>
      rw [level, List.length_cons, ih, List.length_cons, List.length_cons]
      omega

/-- A level of one element, or none, stays as it is. -/
theorem level_of_short (h : l.length ≤ 1) : level combine l = l := by
  match l with
  | [] => rfl
  | [a] => rfl
  | a :: b :: rest =>
      rw [List.length_cons, List.length_cons] at h
      omega

theorem iterate_of_short (h : l.length ≤ 1) (n : ℕ) :
    (level combine)^[n] l = l :=
  Function.iterate_fixed (level_of_short h) n

theorem length_iterate_le (combine : α → α → α) (l : List α) (n : ℕ) :
    ((level combine)^[n] l).length ≤ max 1 (l.length - n) := by
  induction n with
  | zero => exact le_max_right _ _
  | succ n ih =>
      rw [Function.iterate_succ_apply', length_level]
      omega

theorem iterate_ne_nil (combine : α → α → α) (n : ℕ) (h : l ≠ []) :
    (level combine)^[n] l ≠ [] := by
  induction n with
  | zero => exact h
  | succ n ih =>
      have hpos := List.length_pos_iff.2 ih
      rw [Function.iterate_succ_apply', ← List.length_pos_iff, length_level]
      omega

theorem exists_single (combine : α → α → α) (h : l ≠ []) :
    ∃ a, (level combine)^[l.length] l = [a] := by
  have hle := length_iterate_le combine l l.length
  have hpos := List.length_pos_iff.2 (iterate_ne_nil combine l.length h)
  exact List.length_eq_one_iff.1 (by omega)

/-- The level on which going up ends: the first that is short. -/
theorem exists_end (combine : α → α → α) (l : List α) :
    ∃ n ≤ l.length, (∀ m < n, 1 < ((level combine)^[m] l).length) ∧
      ((level combine)^[n] l).length ≤ 1 ∧
      (level combine)^[l.length] l = (level combine)^[n] l := by
  have hlast : ((level combine)^[l.length] l).length ≤ 1 := by
    have hle := length_iterate_le combine l l.length
    omega
  have hshort : ∃ n, ((level combine)^[n] l).length ≤ 1 := ⟨_, hlast⟩
  refine ⟨Nat.find hshort, Nat.find_min' hshort hlast, fun m hm => ?_,
    Nat.find_spec hshort, ?_⟩
  · exact Nat.not_le.1 (Nat.find_min hshort hm)
  · obtain ⟨k, hk⟩ := Nat.exists_eq_add_of_le (Nat.find_min' hshort hlast)
    rw [hk, Nat.add_comm, Function.iterate_add_apply]
    exact iterate_of_short (Nat.find_spec hshort) k

/-! ## Trees -/

/-- What was combined with what. -/
inductive Tree (α : Type) where
  | leaf (a : α)
  | node (left right : Tree α)

namespace Tree

def value (combine : α → α → α) : Tree α → α
  | leaf a => a
  | node left right => combine (left.value combine) (right.value combine)

def leaves : Tree α → List α
  | leaf a => [a]
  | node left right => left.leaves ++ right.leaves

/-- The leaves are in one set, and the pairs combined in another. -/
def Over (combine : α → α → α) (A : Set α) (P : Set (α × α)) : Tree α → Prop
  | leaf a => a ∈ A
  | node left right =>
      (left.value combine, right.value combine) ∈ P ∧
        left.Over combine A P ∧ right.Over combine A P

/-- The value tells the tree, if no combination that occurs is another one or
a leaf. -/
theorem value_inj {A : Set α} {P : Set (α × α)}
    (hinj : ∀ p ∈ P, ∀ q ∈ P, combine p.1 p.2 = combine q.1 q.2 → p = q)
    (hleaf : ∀ a ∈ A, ∀ p ∈ P, a ≠ combine p.1 p.2) {s t : Tree α}
    (hs : s.Over combine A P) (ht : t.Over combine A P)
    (h : s.value combine = t.value combine) : s = t := by
  induction s generalizing t with
  | leaf a =>
      cases t with
      | leaf b => rw [show a = b from h]
      | node left right => exact absurd h (hleaf a hs _ ht.1)
  | node left right ihl ihr =>
      cases t with
      | leaf b => exact absurd h.symm (hleaf b ht _ hs.1)
      | node left' right' =>
          obtain ⟨hpair, hleft, hright⟩ := hs
          obtain ⟨hpair', hleft', hright'⟩ := ht
          obtain ⟨hl, hr⟩ := Prod.mk.inj (hinj _ hpair _ hpair' h)
          rw [ihl hleft hleft' hl, ihr hright hright' hr]

end Tree

/-- Levels of trees are levels of their values. -/
theorem map_level {f : β → α} {join : β → β → β}
    (h : ∀ x y, f (join x y) = combine (f x) (f y)) (ts : List β) :
    (level join ts).map f = level combine (ts.map f) := by
  induction ts using List.twoStepInduction with
  | nil => rfl
  | singleton x => rfl
  | cons_cons x y ts ih _ =>
      rw [level, List.map_cons, List.map_cons, List.map_cons, level, ih, h]

theorem leaves_level (ts : List (Tree α)) :
    (level Tree.node ts).flatMap Tree.leaves = ts.flatMap Tree.leaves := by
  induction ts using List.twoStepInduction with
  | nil => rfl
  | singleton t => rfl
  | cons_cons s t ts ih _ =>
      rw [level, List.flatMap_cons, List.flatMap_cons, List.flatMap_cons, ih,
        Tree.leaves, List.append_assoc]

theorem over_level {A : Set α} {P : Set (α × α)} {ts : List (Tree α)}
    (hts : ∀ t ∈ ts, t.Over combine A P)
    (hpairs : ∀ p ∈ pairs (ts.map (Tree.value combine)), p ∈ P) :
    ∀ t ∈ level Tree.node ts, t.Over combine A P := by
  induction ts using List.twoStepInduction with
  | nil => exact hts
  | singleton t => exact hts
  | cons_cons s t ts ih _ =>
      rw [List.map_cons, List.map_cons, pairs] at hpairs
      intro u hu
      rcases List.mem_cons.1 hu with rfl | hu
      · exact ⟨hpairs _ List.mem_cons_self, hts s (by simp), hts t (by simp)⟩
      · refine ih (fun v hv => hts v (by simp [hv])) (fun p hp => ?_) u hu
        exact hpairs p (List.mem_cons_of_mem _ hp)

/-- Going up with trees keeps what they are over, their leaves and values. -/
theorem iterate_trees {A : Set α} {P : Set (α × α)} {ts : List (Tree α)}
    (hts : ∀ t ∈ ts, t.Over combine A P)
    (hpairs : ∀ p ∈ combined combine n (ts.map (Tree.value combine)), p ∈ P) :
    (∀ t ∈ (level Tree.node)^[n] ts, t.Over combine A P) ∧
      ((level Tree.node)^[n] ts).flatMap Tree.leaves =
        ts.flatMap Tree.leaves ∧
      ((level Tree.node)^[n] ts).map (Tree.value combine) =
        (level combine)^[n] (ts.map (Tree.value combine)) := by
  induction n generalizing ts with
  | zero => exact ⟨hts, rfl, rfl⟩
  | succ n ih =>
      have hvalues : (level Tree.node ts).map (Tree.value combine) =
          level combine (ts.map (Tree.value combine)) :=
        map_level (fun _ _ => rfl) ts
      have hup : ∀ t ∈ level Tree.node ts, t.Over combine A P :=
        over_level hts fun p hp => hpairs p (List.mem_append_left _ hp)
      obtain ⟨hover, hleaves, hmap⟩ := ih hup fun p hp =>
        hpairs p (List.mem_append_right _ (hvalues ▸ hp))
      rw [Function.iterate_succ_apply, Function.iterate_succ_apply, ← hvalues]
      exact ⟨hover, hleaves.trans (leaves_level ts), hmap⟩

/-- The element left is the value of a tree whose leaves are the list. -/
theorem exists_tree (combine : α → α → α) {A : Set α} {P : Set (α × α)}
    (hne : l ≠ [])
    (hleaves : ∀ a ∈ l, a ∈ A)
    (hpairs : ∀ p ∈ combined combine l.length l, p ∈ P) :
    ∃ t : Tree α, t.Over combine A P ∧ t.leaves = l ∧
      (level combine)^[l.length] l = [t.value combine] := by
  have hmap : (l.map Tree.leaf).map (Tree.value combine) = l := by
    rw [List.map_map]
    exact List.map_id l
  have hflat : (l.map Tree.leaf).flatMap Tree.leaves = l := by
    rw [List.flatMap_map]
    exact List.flatMap_singleton' l
  have hstart : ∀ t ∈ l.map Tree.leaf, t.Over combine A P := by
    intro t ht
    obtain ⟨a, ha, rfl⟩ := List.mem_map.1 ht
    exact hleaves a ha
  obtain ⟨hover, hall, hvalues⟩ := iterate_trees (n := l.length) hstart
    (by rwa [hmap])
  rw [hmap] at hvalues
  obtain ⟨a, ha⟩ := exists_single combine hne
  rw [ha] at hvalues
  obtain ⟨t, ht, rfl⟩ := List.map_eq_singleton_iff.1 hvalues
  rw [ht] at hover hall
  rw [List.flatMap_singleton, hflat] at hall
  exact ⟨t, hover t List.mem_cons_self, hall, ha⟩

/-- Two lists that come to the same element are equal. -/
theorem top_inj {k l : List α} (hk : k ≠ []) (hl : l ≠ [])
    (hinj : ∀ p ∈ combined combine k.length k ++ combined combine l.length l,
      ∀ q ∈ combined combine k.length k ++ combined combine l.length l,
        combine p.1 p.2 = combine q.1 q.2 → p = q)
    (hleaf : ∀ a ∈ k ++ l,
      ∀ p ∈ combined combine k.length k ++ combined combine l.length l,
        a ≠ combine p.1 p.2)
    (h : (level combine)^[k.length] k = (level combine)^[l.length] l) :
    k = l := by
  obtain ⟨s, hs, rfl, hkey⟩ := exists_tree combine
    (A := {a | a ∈ k ++ l})
    (P := {p | p ∈ combined combine k.length k ++ combined combine l.length l})
    hk (fun a ha => List.mem_append_left _ ha)
    (fun p hp => List.mem_append_left _ hp)
  obtain ⟨t, ht, rfl, htop⟩ := exists_tree combine
    (A := {a | a ∈ s.leaves ++ l})
    (P := {p | p ∈ combined combine s.leaves.length s.leaves ++
      combined combine l.length l})
    hl (fun a ha => List.mem_append_right _ ha)
    (fun p hp => List.mem_append_right _ hp)
  rw [hkey, htop] at h
  rw [Tree.value_inj hinj hleaf hs ht (List.singleton_inj.1 h)]

end Merkle
