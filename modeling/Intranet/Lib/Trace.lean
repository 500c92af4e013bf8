import Mathlib

/-!
# Runs that leave a trace

A step relation whose steps each leave some events behind, and the runs of
it. A call of a larger machine is often several such steps; what it does is
then a run, and two calls one after the other are one run with the traces
joined.
-/

variable {S E : Type}

/-- Steps of `step` one after the other, with the events they left. -/
inductive Trace (step : S → List E → S → Prop) : S → List E → S → Prop
  | nil (s : S) : Trace step s [] s
  | cons {s m t : S} {es fs : List E} :
      step s es m → Trace step m fs t → Trace step s (es ++ fs) t

namespace Trace

variable {step : S → List E → S → Prop} {s m t : S} {es fs : List E}

theorem single (h : step s es t) : Trace step s es t := by
  have hrun := Trace.cons h (Trace.nil t)
  rwa [List.append_nil] at hrun

theorem append (h : Trace step s es m) (hnext : Trace step m fs t) :
    Trace step s (es ++ fs) t := by
  induction h with
  | nil => exact hnext
  | cons hstep _ ih =>
      rw [List.append_assoc]
      exact .cons hstep (ih hnext)

/-- A property that every step keeps holds at the end of a run. -/
theorem invariant {P : S → Prop}
    (hstep : ∀ s es t, P s → step s es t → P t) (h : Trace step s es t)
    (hs : P s) : P t := by
  induction h with
  | nil => exact hs
  | cons hone _ ih => exact ih (hstep _ _ _ hs hone)

end Trace
