import Mathlib.Data.Option.Basic
import Mathlib.Logic.Basic

/-!
# Computations that may stop

A computation is written twice, once for a machine that goes on whatever its
operators overflow to and once for a machine that stops instead. `Checked`
relates the two: the second stops exactly under a condition, and answers what
the first answers otherwise. The rules follow how such computations are put
together.
-/

/-- `o` stops if `stops` holds, and is `v` if it does not. -/
structure Checked {α : Type} (o : Option α) (v : α) (stops : Prop) : Prop where
  none_of : stops → o = none
  some_of : ¬stops → o = some v

namespace Checked

variable {α β : Type} {o : Option α} {v : α} {w : β} {p q : Prop}

theorem eq_some_iff (h : Checked o v p) : o = some v ↔ ¬p := by
  constructor
  · intro ho hp
    rw [h.none_of hp] at ho
    cases ho
  · exact h.some_of

/-- What nothing is checked of. -/
theorem of_not (hp : ¬p) : Checked (some v) v p :=
  ⟨fun h => absurd h hp, fun _ => rfl⟩

theorem congr (h : Checked o v p) (hpq : p ↔ q) : Checked o v q :=
  ⟨fun hq => h.none_of (hpq.2 hq), fun hq => h.some_of fun hp => hq (hpq.1 hp)⟩

theorem map (h : Checked o v p) (f : α → β) : Checked (o.map f) (f v) p := by
  constructor
  · intro hp
    rw [h.none_of hp]
    rfl
  · intro hp
    rw [h.some_of hp]
    rfl

/-- One after the other: the second stop counts where the first is passed. -/
theorem bind {f : α → Option β} (h : Checked o v p) (hf : Checked (f v) w q) :
    Checked (o.bind f) w (p ∨ q) := by
  constructor
  · intro hpq
    by_cases hp : p
    · rw [h.none_of hp]
      rfl
    · rw [h.some_of hp]
      exact hf.none_of (hpq.resolve_left hp)
  · intro hpq
    rw [not_or] at hpq
    rw [h.some_of hpq.1]
    exact hf.some_of hpq.2

end Checked
