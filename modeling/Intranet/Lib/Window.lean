import Mathlib

/-!
# Sliding-window limits

A limiter keeps the times of what it let through. Asked at a time, it drops
the times that no longer count and lets one more through if fewer than `max`
are left. It may also drop them at other times, or refuse without a look.

Two things come of it. In a span of times too short for anything recorded in
it to lapse, at most `max` get through: the log holds all of those that did
(`Covers`). And two logs that count the same from some time on answer the same
from then on, whatever else either still holds (`Alike`).
-/

namespace Window

variable {T : Type} (keep : T → T → Bool) (max : ℕ)

/-- What of a log still counts at a time. -/
def prune (log : List T) (now : T) : List T :=
  log.filter fun a => keep a now

/-- Whether one more gets through, and the log afterwards. -/
def ask (log : List T) (now : T) : Bool × List T :=
  if (prune keep log now).length < max then
    (true, prune keep log now ++ [now])
  else (false, prune keep log now)

/-- What got through, once it is known of one more whether it did. -/
def record (passed : List T) (now : T) (answer : Bool) : List T :=
  if answer then passed ++ [now] else passed

section

variable {keep max} {log : List T}

theorem length_prune_le (keep : T → T → Bool) (log : List T) (now : T) :
    (prune keep log now).length ≤ log.length :=
  List.length_filter_le _ _

theorem length_ask_le (h : log.length ≤ max) (now : T) :
    (ask keep max log now).2.length ≤ max := by
  have hprune := length_prune_le keep log now
  rw [ask]
  split
  · next hroom =>
      rw [List.length_append, List.length_singleton]
      exact hroom
  · exact hprune.trans h

theorem mem_ask {a now : T} (h : a ∈ (ask keep max log now).2) :
    a ∈ log ∨ a = now := by
  rw [ask] at h
  split at h
  · rcases List.mem_append.1 h with h | h
    · exact .inl (List.mem_of_mem_filter h)
    · exact .inr (List.mem_singleton.1 h)
  · exact .inl (List.mem_of_mem_filter h)

end

section

variable [LE T]

/-- A span of times in which nothing recorded lapses. -/
def Span (inside : T → Prop) : Prop :=
  ∀ a now b, inside a → inside b → a ≤ now → now ≤ b → keep a now = true

/-- What no longer counts never counts again. -/
def Lapses : Prop :=
  ∀ a now later, now ≤ later → keep a later = true → keep a now = true

/-- After the times `past`, of which `passed` got through, no more than `max`
did inside the span, and as long as it lasts the log has all of them. -/
structure Covers (inside : T → Prop) [DecidablePred inside]
    (past passed log : List T) : Prop where
  mem_past : ∀ a ∈ passed, a ∈ past
  length_le : (passed.filter inside).length ≤ max
  kept : ∀ b, inside b → (∀ a ∈ past, a ≤ b) →
    (passed.filter inside).Sublist log

/-- The logs count the same from the end of `past` on. -/
def Alike (past log log' : List T) : Prop :=
  ∀ b, (∀ a ∈ past, a ≤ b) → prune keep log b = prune keep log' b

end

section

variable {keep max} [Preorder T] {inside : T → Prop} [DecidablePred inside]
  {past passed log log' : List T} {now : T}

/-- Times that come in order come in order with one more that is last. -/
theorem pairwise_snoc {α : Type} {r : α → α → Prop} {l : List α} {a : α} :
    (l ++ [a]).Pairwise r ↔ l.Pairwise r ∧ ∀ b ∈ l, r b a := by
  rw [List.pairwise_append]
  simp

/-! ### What gets through in a span -/

theorem Covers.start : Covers max inside [] [] [] where
  mem_past := by simp
  length_le := by simp
  kept := by simp

/-- Time passes. -/
theorem Covers.wait (h : Covers max inside past passed log) :
    Covers max inside (past ++ [now]) passed log where
  mem_past := fun a ha => List.mem_append_left _ (h.mem_past a ha)
  length_le := h.length_le
  kept := fun b hb hpast => h.kept b hb fun a ha =>
    hpast a (List.mem_append_left _ ha)

/-- What a prune drops is out of the span, or the span is over. -/
theorem Covers.prune (hspan : Span keep inside)
    (h : Covers max inside past passed log) (hnow : ∀ a ∈ past, a ≤ now) :
    Covers max inside (past ++ [now]) passed (Window.prune keep log now) where
  mem_past := h.wait.mem_past
  length_le := h.length_le
  kept := by
    intro b hb hpast
    have hb' : now ≤ b := hpast now (List.mem_append_right _ (by simp))
    have hsub := h.wait.kept b hb hpast
    have hstay : (passed.filter inside).filter (fun a => keep a now) =
        passed.filter inside := by
      refine List.filter_eq_self.2 fun a ha => ?_
      obtain ⟨ha, hin⟩ := List.mem_filter.1 ha
      exact hspan a now b (of_decide_eq_true hin) hb
        (hnow a (h.mem_past a ha)) hb'
    rw [← hstay]
    exact hsub.filter _

/-- One that gets through is counted against all others of the span. -/
theorem Covers.ask (hspan : Span keep inside)
    (h : Covers max inside past passed log) (hnow : ∀ a ∈ past, a ≤ now) :
    Covers max inside (past ++ [now])
      (record passed now (Window.ask keep max log now).1)
      (Window.ask keep max log now).2 := by
  have hpruned := h.prune hspan hnow
  rw [Window.ask]
  split
  · next hroom =>
      rw [record, if_pos rfl]
      refine ⟨?_, ?_, ?_⟩
      · intro a ha
        rcases List.mem_append.1 ha with ha | ha
        · exact hpruned.mem_past a ha
        · exact List.mem_append_right _ ha
      · rw [List.filter_append, List.length_append, List.filter_singleton]
        by_cases hin : inside now
        · have hlast : ∀ a ∈ past ++ [now], a ≤ now := by
            intro a ha
            rcases List.mem_append.1 ha with ha | ha
            · exact hnow a ha
            · rw [List.mem_singleton.1 ha]
          have hall := (hpruned.kept now hin hlast).length_le
          rw [decide_eq_true hin, cond_true, List.length_singleton]
          omega
        · rw [decide_eq_false hin, cond_false, List.length_nil, Nat.add_zero]
          exact h.length_le
      · intro b hb hpast
        rw [List.filter_append]
        exact (hpruned.kept b hb hpast).append List.filter_sublist
  · rw [record, if_neg (by simp)]
    exact hpruned

/-! ### Logs that count the same -/

theorem Alike.refl (past log : List T) : Alike keep past log log :=
  fun _ _ => rfl

theorem Alike.wait (h : Alike keep past log log') :
    Alike keep (past ++ [now]) log log' :=
  fun b hpast => h b fun a ha => hpast a (List.mem_append_left _ ha)

theorem prune_prune (hlapses : Lapses keep) {b : T} (hb : now ≤ b) :
    prune keep (prune keep log now) b = prune keep log b := by
  rw [prune, prune, prune, List.filter_filter]
  refine List.filter_congr fun a _ => ?_
  rw [Bool.and_eq_left_iff_imp]
  exact hlapses a now b hb

/-- Pruning one of them changes nothing. -/
theorem Alike.prune_left (hlapses : Lapses keep)
    (h : Alike keep past log log') :
    Alike keep (past ++ [now]) (prune keep log now) log' := by
  intro b hpast
  rw [prune_prune hlapses (hpast now (List.mem_append_right _ (by simp)))]
  exact h.wait b hpast

/-- They answer the same, and go on counting the same. -/
theorem Alike.ask (h : Alike keep past log log')
    (hnow : ∀ a ∈ past, a ≤ now) :
    (Window.ask keep max log now).1 = (Window.ask keep max log' now).1 ∧
      Alike keep (past ++ [now]) (Window.ask keep max log now).2
        (Window.ask keep max log' now).2 := by
  rw [Window.ask, Window.ask, h now hnow]
  split
  · exact ⟨rfl, Alike.refl _ _⟩
  · exact ⟨rfl, Alike.refl _ _⟩

end

end Window
