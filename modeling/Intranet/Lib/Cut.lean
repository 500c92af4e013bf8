import Mathlib

/-!
# Cutting a sequence greedily

A greedy cutter takes one piece off the front, of a length that depends on
what is left alone, and goes on with the rest. When a cut that falls before
the end stays where it is however the data goes on, every piece but the last
is final: appending re-cuts the last piece and what came after it, and
nothing else.
-/

namespace Cut

variable {α : Type}

/-- `cut` takes `next` elements at a time, at least one while any are left,
and a cut before the end of the data does not move when data is appended. -/
structure Greedy (cut : List α → List (List α)) (next : List α → ℕ) : Prop where
  nil : cut [] = []
  cons : ∀ xs, xs ≠ [] → cut xs = xs.take (next xs) :: cut (xs.drop (next xs))
  pos : ∀ xs, xs ≠ [] → 0 < next xs
  le : ∀ xs, next xs ≤ xs.length
  stable : ∀ xs ys, next xs < xs.length → next (xs ++ ys) = next xs

namespace Greedy

variable {cut : List α → List (List α)} {next : List α → ℕ}

theorem length_drop_lt (h : Greedy cut next) {xs : List α} (hxs : xs ≠ []) :
    (xs.drop (next xs)).length < xs.length := by
  have hpos := h.pos xs hxs
  have hlen := List.length_pos_iff.2 hxs
  rw [List.length_drop]
  omega

theorem cut_ne_nil (h : Greedy cut next) {xs : List α} (hxs : xs ≠ []) :
    cut xs ≠ [] := by
  rw [h.cons xs hxs]
  exact List.cons_ne_nil _ _

/-- The pieces, put back together, are the data. -/
theorem flatten_cut (h : Greedy cut next) (xs : List α) :
    (cut xs).flatten = xs := by
  induction hlen : xs.length using Nat.strong_induction_on generalizing xs with
  | _ n ih =>
      subst hlen
      by_cases hxs : xs = []
      · rw [hxs, h.nil]
        rfl
      · rw [h.cons xs hxs, List.flatten_cons,
          ih _ (h.length_drop_lt hxs) _ rfl, List.take_append_drop]

/-- No piece is empty. -/
theorem ne_nil_of_mem (h : Greedy cut next) {piece : List α} (xs : List α)
    (hmem : piece ∈ cut xs) : piece ≠ [] := by
  induction hlen : xs.length using Nat.strong_induction_on generalizing xs with
  | _ n ih =>
      subst hlen
      by_cases hxs : xs = []
      · rw [hxs, h.nil] at hmem
        cases hmem
      · rw [h.cons xs hxs] at hmem
        rcases List.mem_cons.1 hmem with rfl | hmem
        · have hpos := h.pos xs hxs
          have hlen := List.length_pos_iff.2 hxs
          rw [← List.length_pos_iff, List.length_take]
          omega
        · exact ih _ (h.length_drop_lt hxs) _ hmem rfl

/-- Appending moves no cut before the last piece. -/
theorem cut_append (h : Greedy cut next) {pieces : List (List α)}
    {last : List α} : ∀ {xs : List α}, cut xs = pieces ++ [last] →
      ∀ ys, cut (xs ++ ys) = pieces ++ cut (last ++ ys) := by
  induction pieces with
  | nil =>
      intro xs hcut ys
      have hwhole := h.flatten_cut xs
      rw [hcut] at hwhole
      simp only [List.nil_append, List.flatten_cons, List.flatten_nil,
        List.append_nil] at hwhole
      rw [List.nil_append, hwhole]
  | cons piece pieces ih =>
      intro xs hcut ys
      have hxs : xs ≠ [] := by
        intro hnil
        rw [hnil, h.nil] at hcut
        cases hcut
      rw [h.cons xs hxs, List.cons_append, List.cons.injEq] at hcut
      obtain ⟨rfl, hrest⟩ := hcut
      -- a second piece follows, so the first cut falls before the end
      have hlt : next xs < xs.length := by
        by_contra hge
        rw [List.drop_eq_nil_of_le (Nat.le_of_not_lt hge), h.nil] at hrest
        exact List.append_ne_nil_of_right_ne_nil pieces (List.cons_ne_nil _ _)
          hrest.symm
      have hxsys : xs ++ ys ≠ [] := List.append_ne_nil_of_left_ne_nil hxs ys
      rw [h.cons _ hxsys, h.stable xs ys hlt,
        List.take_append_of_le_length hlt.le,
        List.drop_append_of_le_length hlt.le, ih hrest ys, List.cons_append]

end Greedy

end Cut
