import Intranet.Lib.Machine

/-!
# Runs under conditions

`history_of` is the rule for runs of inputs that are all of some kind.

`after` is where a machine stands after the first `n` of an endless sequence
of inputs. Such a run comes to an end of what lowers a measure: one that never
rises does not fall again and again (`not_falls_forever`). Which steps lower
it, and how long the others go on in between, is left open.
-/

namespace Machine

variable {S I O α : Type} {step : S → I → O × S} {s : S} {later : ℕ → I}

theorem history_of {P : List (I × O) → S → Prop} {Q : I → Prop}
    {inputs : List I} (hinputs : ∀ i ∈ inputs, Q i) (hstart : P [] s)
    (hstep : ∀ es s i, Q i → P es s →
      P (es ++ [(i, (step s i).1)]) (step s i).2) :
    P (trace step s inputs) (state step s inputs) := by
  induction inputs using List.reverseRecOn with
  | nil => exact hstart
  | append_singleton inputs i ih =>
      rw [trace_snoc, state_snoc]
      refine hstep _ _ i (hinputs i (List.mem_append_right _ ?_)) (ih ?_)
      · exact List.mem_singleton_self i
      · exact fun j hj => hinputs j (List.mem_append_left _ hj)

/-- Where the machine stands after the first `n` inputs. -/
def after (step : S → I → O × S) (s : S) (later : ℕ → I) : ℕ → S
  | 0 => s
  | n + 1 => (step (after step s later n) (later n)).2

/-- What every step keeps holds all along. -/
theorem after_invariant {P : S → Prop} (hstart : P s)
    (hstep : ∀ s n, P s → P (step s (later n)).2) (n : ℕ) :
    P (after step s later n) := by
  induction n with
  | zero => exact hstart
  | succ n ih => exact hstep _ n ih

/-- A measure that never rises does not fall again and again. -/
theorem not_falls_forever [Preorder α] [WellFoundedLT α] {f : ℕ → α}
    (hkeep : ∀ n, f (n + 1) ≤ f n) :
    ¬ ∀ n, ∃ m, n ≤ m ∧ f (m + 1) < f m := by
  intro hfalls
  obtain ⟨-, ⟨n, rfl⟩, hleast⟩ :=
    wellFounded_lt.has_min (Set.range f) ⟨f 0, 0, rfl⟩
  obtain ⟨m, hnm, hlt⟩ := hfalls n
  exact hleast _ ⟨m + 1, rfl⟩ (hlt.trans_le (antitone_nat_of_succ_le hkeep hnm))

end Machine
