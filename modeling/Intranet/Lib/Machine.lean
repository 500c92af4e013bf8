import Mathlib

/-!
# Machines that answer

A machine takes an input, answers and moves on. `state` is where it stands
after a list of inputs, `trace` the inputs beside the answers they got, in
order.

There is one rule for runs, `history`: a relation between the trace so far and
the state, kept by every step, holds after any inputs. Invariants are the case
that does not look at the trace. `guarded` is the rule for runs whose steps all
meet a condition, `Along`. `answers_congr` is the rule for two runs side by
side: states that answer alike and stay related give the same answers.
-/

namespace Machine

variable {S I O : Type} {step : S → I → O × S} {s : S} {inputs : List I}

/-- The state after the inputs. -/
def state (step : S → I → O × S) (s : S) (inputs : List I) : S :=
  inputs.foldl (fun s i => (step s i).2) s

/-- Every input with the answer it got. -/
def trace (step : S → I → O × S) (s : S) : List I → List (I × O)
  | [] => []
  | i :: rest => (i, (step s i).1) :: trace step (step s i).2 rest

/-- The answers alone. -/
def answers (step : S → I → O × S) (s : S) (inputs : List I) : List O :=
  (trace step s inputs).map Prod.snd

theorem state_snoc (inputs : List I) (i : I) :
    state step s (inputs ++ [i]) = (step (state step s inputs) i).2 := by
  rw [state, List.foldl_append]
  rfl

theorem trace_snoc (inputs : List I) (i : I) :
    trace step s (inputs ++ [i]) =
      trace step s inputs ++ [(i, (step (state step s inputs) i).1)] := by
  induction inputs generalizing s with
  | nil => rfl
  | cons j inputs ih =>
      rw [List.cons_append, trace, ih, trace, List.cons_append]
      rfl

theorem map_fst_trace (inputs : List I) :
    (trace step s inputs).map Prod.fst = inputs := by
  induction inputs generalizing s with
  | nil => rfl
  | cons i inputs ih => rw [trace, List.map_cons, ih]

theorem history {P : List (I × O) → S → Prop} (hstart : P [] s)
    (hstep : ∀ es s i, P es s → P (es ++ [(i, (step s i).1)]) (step s i).2)
    (inputs : List I) : P (trace step s inputs) (state step s inputs) := by
  induction inputs using List.reverseRecOn with
  | nil => exact hstart
  | append_singleton inputs i ih =>
      rw [trace_snoc, state_snoc]
      exact hstep _ _ i ih

theorem invariant {P : S → Prop} (hstart : P s)
    (hstep : ∀ s i, P s → P (step s i).2) (inputs : List I) :
    P (state step s inputs) := by
  refine history (P := fun _ s => P s) hstart ?_ inputs
  intro _ s i
  exact hstep s i

/-- Every step of the run meets `G` in the state it is taken from. -/
def Along (step : S → I → O × S) (G : S → I → Prop) (s : S)
    (inputs : List I) : Prop :=
  ∀ pre i, pre ++ [i] <+: inputs → G (state step s pre) i

theorem Along.of_prefix {G : S → I → Prop} {pre : List I}
    (h : Along step G s inputs) (hpre : pre <+: inputs) : Along step G s pre :=
  fun front i hfront => h front i (hfront.trans hpre)

theorem along_snoc {G : S → I → Prop} {i : I} :
    Along step G s (inputs ++ [i]) ↔
      Along step G s inputs ∧ G (state step s inputs) i := by
  constructor
  · intro h
    exact ⟨h.of_prefix (List.prefix_append inputs [i]),
      h inputs i List.prefix_rfl⟩
  · intro ⟨hpre, hlast⟩ front j hfront
    rcases List.prefix_concat_iff.1 hfront with heq | hshort
    · obtain ⟨rfl, hone⟩ := List.append_inj' heq rfl
      cases hone
      exact hlast
    · exact hpre front j hshort

theorem guarded {G : S → I → Prop} {P : S → Prop} (hstart : P s)
    (hstep : ∀ s i, P s → G s i → P (step s i).2)
    (h : Along step G s inputs) : P (state step s inputs) := by
  induction inputs using List.reverseRecOn with
  | nil => exact hstart
  | append_singleton inputs i ih =>
      obtain ⟨hpre, hlast⟩ := along_snoc.1 h
      rw [state_snoc]
      exact hstep _ _ (ih hpre) hlast

/-- A test for `Along` on fixed inputs. -/
def alongCheck (step : S → I → O × S) (g : S → I → Bool) (s : S) :
    List I → Bool
  | [] => true
  | i :: rest => g s i && alongCheck step g (step s i).2 rest

theorem along_of_check {g : S → I → Bool} {G : S → I → Prop}
    (hg : ∀ s i, g s i = true → G s i)
    (h : alongCheck step g s inputs = true) : Along step G s inputs := by
  induction inputs generalizing s with
  | nil =>
      intro pre i hpre
      exact absurd (List.prefix_nil.1 hpre) (by simp)
  | cons j rest ih =>
      obtain ⟨hhead, htail⟩ := (Bool.and_eq_true _ _).mp h
      intro pre i hpre
      cases pre with
      | nil =>
          obtain ⟨rfl, -⟩ := List.cons_prefix_cons.1 hpre
          exact hg s i hhead
      | cons k pre =>
          obtain ⟨rfl, hrest⟩ := List.cons_prefix_cons.1 hpre
          exact ih htail pre i hrest

theorem along_of_decide {G : S → I → Prop} [∀ s i, Decidable (G s i)]
    (h : alongCheck step (fun s i => decide (G s i)) s inputs = true) :
    Along step G s inputs :=
  along_of_check (fun _ _ => of_decide_eq_true) h

theorem answers_cons (i : I) (inputs : List I) :
    answers step s (i :: inputs) =
      (step s i).1 :: answers step (step s i).2 inputs := by
  rw [answers, trace, List.map_cons]
  rfl

/-- Related states that answer related inputs alike. -/
theorem answers_congr {R : S → S → Prop} {Q : I → I → Prop}
    (hstep : ∀ s t i j, R s t → Q i j →
      (step s i).1 = (step t j).1 ∧ R (step s i).2 (step t j).2)
    {t : S} (hst : R s t) {inputs' : List I}
    (hinputs : List.Forall₂ Q inputs inputs') :
    answers step s inputs = answers step t inputs' := by
  induction hinputs generalizing s t with
  | nil => rfl
  | cons hij _ ih =>
      obtain ⟨hanswer, hnext⟩ := hstep _ _ _ _ hst hij
      rw [answers_cons, answers_cons, hanswer, ih hnext]

end Machine
