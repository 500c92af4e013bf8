import Mathlib

/-!
# Reachability past a visited set

A depth-first search that refuses to enter a node twice explores less than
the graph offers: below each node it only takes edges that avoid what it has
visited. This file says why nothing is lost. A path that avoids `V` either
stays where it is or continues past its last return to the start, and from
there it avoids the start as well.
-/

namespace Reach

variable {α : Type} {r : α → α → Prop} {V : Set α}

/-- The edges of `r` that do not lead back into `V`. -/
def Avoid (r : α → α → Prop) (V : Set α) (a b : α) : Prop :=
  r a b ∧ b ∉ V

theorem avoid_empty : Avoid r ∅ = r := by
  ext a b
  simp [Avoid]

/-- A path that avoids `V` can be cut at its last visit to its start. -/
theorem reflTransGen_avoid_insert {g x : α}
    (h : Relation.ReflTransGen (Avoid r V) g x) :
    x = g ∨ ∃ m, r g m ∧ m ∉ insert g V ∧
      Relation.ReflTransGen (Avoid r (insert g V)) m x := by
  induction h with
  | refl => exact Or.inl rfl
  | @tail y z _ hyz ih =>
      by_cases hz : z = g
      · exact Or.inl hz
      · have hzV : z ∉ insert g V := by
          intro hcase
          rcases hcase with h | h
          · exact hz h
          · exact hyz.2 h
        rcases ih with rfl | ⟨m, hgm, hm, hpath⟩
        · exact Or.inr ⟨z, hyz.1, hzV, .refl⟩
        · exact Or.inr ⟨m, hgm, hm, hpath.tail ⟨hyz.1, hzV⟩⟩

end Reach
