import Mathlib

/-!
# Runs of a fallible step function

A run folds `step` over a list of actions and stops at the first refusal.
Nothing here looks inside the state, the actions or the errors. The two rules
the rest lives on are `foldlM_ok_append`, which cuts an accepted run anywhere
in the middle, and `foldlM_history`, the invariant rule for properties that
also speak about the actions taken so far.
-/

namespace Run

variable {S A E : Type} {step : S → A → Except E S}

theorem bind_ok {α β : Type} {x : Except E α} {f : α → Except E β} {b : β} :
    (x >>= f) = .ok b ↔ ∃ a, x = .ok a ∧ f a = .ok b := by
  cases x with
  | error err =>
      constructor
      · intro h
        cases h
      · intro hgiven
        obtain ⟨a, h, -⟩ := hgiven
        cases h
  | ok a =>
      constructor
      · intro h
        exact ⟨a, rfl, h⟩
      · intro hgiven
        obtain ⟨a', h, hf⟩ := hgiven
        cases h
        exact hf

/-- A check that refuses, and then the rest. -/
theorem ite_ok {α : Type} {p : Prop} [Decidable p] {err : E} {x : Except E α}
    {a : α} : (if p then .error err else x) = .ok a ↔ ¬ p ∧ x = .ok a := by
  split
  · next hp => exact ⟨nofun, fun h => absurd hp h.1⟩
  · next hp => exact ⟨fun h => ⟨hp, h⟩, And.right⟩

theorem toOption_eq_some {α : Type} {x : Except E α} {a : α} :
    x.toOption = some a ↔ x = .ok a := by
  cases x <;> simp [Except.toOption]

/-- A test of the outcome, for computations that are run on a fixed input. -/
def okAnd {α : Type} (x : Except E α) (p : α → Bool) : Bool :=
  match x with
  | .ok a => p a
  | .error _ => false

theorem okAnd_iff {α : Type} {x : Except E α} {p : α → Bool} :
    okAnd x p = true ↔ ∃ a, x = .ok a ∧ p a = true := by
  cases x <;> simp [okAnd]

theorem foldlM_ok_cons {s t : S} {a : A} {as : List A} :
    (a :: as).foldlM step s = .ok t ↔
      ∃ m, step s a = .ok m ∧ as.foldlM step m = .ok t := by
  rw [List.foldlM_cons, bind_ok]

theorem foldlM_ok_append {s t : S} {as bs : List A} :
    (as ++ bs).foldlM step s = .ok t ↔
      ∃ m, as.foldlM step s = .ok m ∧ bs.foldlM step m = .ok t := by
  rw [List.foldlM_append, bind_ok]

theorem foldlM_ok_singleton {s t : S} {a : A} :
    [a].foldlM step s = .ok t ↔ step s a = .ok t := by
  rw [foldlM_ok_cons]
  constructor
  · intro hgiven
    obtain ⟨m, hm, hnil⟩ := hgiven
    cases hnil
    exact hm
  · intro h
    exact ⟨t, h, rfl⟩

/-- A property of the actions so far and the state they led to holds at the
end of a run when it holds at the start and every accepted step keeps it. -/
theorem foldlM_history {P : List A → S → Prop} {s t : S} {as : List A}
    (hinit : P [] s)
    (hstep : ∀ pre m a m', pre ++ [a] <+: as → P pre m →
      step m a = .ok m' → P (pre ++ [a]) m')
    (hrun : as.foldlM step s = .ok t) : P as t := by
  induction as using List.reverseRecOn generalizing t with
  | nil =>
      cases hrun
      exact hinit
  | append_singleton as a ih =>
      obtain ⟨m, hpre, hlast⟩ := foldlM_ok_append.1 hrun
      refine hstep as m a t List.prefix_rfl ?_ (foldlM_ok_singleton.1 hlast)
      refine ih (fun pre n b n' hb => ?_) hpre
      exact hstep pre n b n' (hb.trans (List.prefix_append as [a]))

end Run
