import Mathlib

/-!
# Rankings by a total order

Sorting by a total order is a function of what is sorted and of nothing else:
the order the list came in is forgotten (`sort_perm`), and what is left out
before sorting might as well be left out afterwards (`sort_filter`). The place
of an element is the number of elements ahead of it (`findIdx_sort`), which
turns statements about positions into counting, and the first is the least
(`head?_sort_eq_some_iff`).

Leaving one element out of a ranking moves a cutoff by one: of the first `n`
the element goes, and at most one comes in behind (`take_filter_ne`).
-/

namespace Ranking

variable {α : Type}

section Sorting

variable {r : α → α → Prop} [DecidableRel r] [IsTrans α r] [Std.Total r]
  [Std.Antisymm r]

theorem sort_perm {l l' : List α} (h : l.Perm l') :
    l.insertionSort r = l'.insertionSort r := by
  have hsorted : (l.insertionSort r).Perm (l'.insertionSort r) :=
    ((List.perm_insertionSort r l).trans h).trans
      (List.perm_insertionSort r l').symm
  exact hsorted.eq_of_pairwise' (List.pairwise_insertionSort r l)
    (List.pairwise_insertionSort r l')

theorem sort_filter (p : α → Bool) (l : List α) :
    (l.filter p).insertionSort r = (l.insertionSort r).filter p := by
  have hperm : ((l.filter p).insertionSort r).Perm
      ((l.insertionSort r).filter p) :=
    (List.perm_insertionSort r (l.filter p)).trans
      ((List.perm_insertionSort r l).filter p).symm
  exact hperm.eq_of_pairwise' (List.pairwise_insertionSort r _)
    ((List.pairwise_insertionSort r l).filter p)

omit [IsTrans α r] in
/-- In a sorted list, the place of the one element with a property. -/
theorem findIdx_of_pairwise {p : α → Bool} {x : α} {l : List α}
    (hsorted : l.Pairwise r) (hx : x ∈ l) (hp : p x = true)
    (honly : ∀ y ∈ l, p y = true → y = x) :
    l.findIdx p = l.countP fun y => !decide (r x y) := by
  induction l with
  | nil => cases hx
  | cons y l ih =>
      obtain ⟨hfirst, hrest⟩ := List.pairwise_cons.1 hsorted
      rw [List.findIdx_cons]
      cases hy : p y with
      | true =>
          obtain rfl := honly y List.mem_cons_self hy
          have hnone : ∀ z ∈ y :: l, ¬ (!decide (r y z)) = true := by
            intro z hz
            have hyz : r y z := by
              rcases List.mem_cons.1 hz with rfl | hz
              · exact (Std.Total.total z z).elim id id
              · exact hfirst z hz
            simp [hyz]
          rw [List.countP_eq_zero.2 hnone]
          rfl
      | false =>
          have hne : y ≠ x := by
            rintro rfl
            rw [hp] at hy
            cases hy
          have hxl : x ∈ l := (List.mem_cons.1 hx).resolve_left hne.symm
          have hahead : ¬ r x y := fun hxy =>
            hne (antisymm_of r (hfirst x hxl) hxy)
          have hcount : (y :: l).countP (fun z => !decide (r x z)) =
              l.countP (fun z => !decide (r x z)) + 1 :=
            List.countP_cons_of_pos (by simp [hahead])
          rw [hcount, ← ih hrest hxl fun z hz => honly z
            (List.mem_cons_of_mem y hz)]
          rfl

theorem findIdx_sort {p : α → Bool} {x : α} {l : List α} (hx : x ∈ l)
    (hp : p x = true) (honly : ∀ y ∈ l, p y = true → y = x) :
    (l.insertionSort r).findIdx p = l.countP fun y => !decide (r x y) := by
  rw [findIdx_of_pairwise (List.pairwise_insertionSort r l)
    ((List.mem_insertionSort r).2 hx) hp fun y hy =>
      honly y ((List.mem_insertionSort r).1 hy)]
  exact (List.perm_insertionSort r l).countP_eq _

/-- The first of a ranking is the one element ahead of all. -/
theorem head?_sort_eq_some_iff {x : α} {l : List α} :
    (l.insertionSort r).head? = some x ↔ x ∈ l ∧ ∀ y ∈ l, r x y := by
  have hsorted := List.pairwise_insertionSort r l
  cases hl : l.insertionSort r with
  | nil =>
      have hnil : l = [] := by
        rw [← List.length_eq_zero_iff, ← List.length_insertionSort r l, hl]
        rfl
      simp [hnil]
  | cons y rest =>
      rw [hl] at hsorted
      have hfirst := (List.pairwise_cons.1 hsorted).1
      have hmem : ∀ z, z ∈ l ↔ z ∈ y :: rest := by
        intro z
        rw [← hl, List.mem_insertionSort]
      have hleast : ∀ z ∈ l, r y z := by
        intro z hz
        rcases List.mem_cons.1 ((hmem z).1 hz) with rfl | hz
        · exact (Std.Total.total z z).elim id id
        · exact hfirst z hz
      have hy : y ∈ l := (hmem y).2 List.mem_cons_self
      rw [List.head?_cons, Option.some.injEq]
      constructor
      · rintro rfl
        exact ⟨hy, hleast⟩
      · intro h
        exact antisymm_of r (hleast x h.1) (h.2 y hy)

end Sorting

variable [DecidableEq α]

/-- The first `n` after one element was left out. -/
theorem take_filter_ne {l : List α} (hnodup : l.Nodup) (x : α) (n : ℕ) :
    ∃ entering : List α, entering.length ≤ 1 ∧
      (l.filter fun y => y ≠ x).take n =
        ((l.take n).filter fun y => y ≠ x) ++ entering := by
  induction l generalizing n with
  | nil => exact ⟨[], Nat.zero_le _, by simp⟩
  | cons y l ih =>
      obtain ⟨hy, hl⟩ := List.nodup_cons.1 hnodup
      cases n with
      | zero => exact ⟨[], Nat.zero_le _, by simp⟩
      | succ n =>
          by_cases hyx : y = x
          · subst hyx
            have hall : ∀ k, (l.take k).filter (fun z => z ≠ y) = l.take k := by
              intro k
              refine List.filter_eq_self.2 fun z hz => decide_eq_true ?_
              rintro rfl
              exact hy (List.mem_of_mem_take hz)
            have hwhole := hall l.length
            rw [List.take_length] at hwhole
            refine ⟨(l.drop n).take 1, List.length_take_le _ _, ?_⟩
            rw [List.filter_cons_of_neg (by simp), hwhole, List.take_succ_cons,
              List.filter_cons_of_neg (by simp), hall, List.take_add]
          · obtain ⟨entering, hlen, heq⟩ := ih hl n
            refine ⟨entering, hlen, ?_⟩
            rw [List.filter_cons_of_pos (by simpa using hyx),
              List.take_succ_cons, List.take_succ_cons,
              List.filter_cons_of_pos (by simpa using hyx), heq,
              List.cons_append]

end Ranking
