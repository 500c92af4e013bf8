import Mathlib.Data.Set.Insert
import Mathlib.Order.Defs.LinearOrder

/-!
# A register that keeps the least of what it is offered

Values are compared by a key in a linear order and a register holds at most
one of them: an offered value replaces the one held when its key is not
greater and it is not the same value. Whatever was offered, in whatever order
and however often, the register holds a value of least key; where the key
tells the offered values apart, that is one value, and replicas that were
offered the same values hold the same one.
-/

namespace Register

variable {α β : Type} [LinearOrder β] (key : α → β)

/-- The one of smaller key, the first of two that tie. -/
def pick (a b : α) : α := if key a ≤ key b then a else b

/-- What is held once `a` has been offered. -/
def offer [DecidableEq α] (held : Option α) (a : α) : Option α :=
  match held with
  | none => some a
  | some h => if key a ≤ key h ∧ a ≠ h then some a else some h

/-- `held` is what a register offered exactly the values in `s` may hold. -/
def Keeps (s : Set α) (held : Option α) : Prop :=
  match held with
  | none => s = ∅
  | some r => r ∈ s ∧ ∀ a ∈ s, key r ≤ key a

/-- Values in `s` with one key are one value. -/
def Distinct (s : Set α) : Prop :=
  ∀ a ∈ s, ∀ b ∈ s, key a = key b → a = b

variable {key} {s : Set α} {a b c : α}

theorem pick_self : pick key a a = a := by
  rw [pick, ite_self]

theorem pick_comm (h : key a = key b → a = b) : pick key a b = pick key b a := by
  rw [pick, pick]
  split
  · next hab =>
      split
      · next hba => exact h (le_antisymm hab hba)
      · rfl
  · next hab => rw [if_pos (le_of_not_ge hab)]

/-- No tie needs breaking: the first of the least values is picked either
way. -/
theorem pick_assoc :
    pick key (pick key a b) c = pick key a (pick key b c) := by
  by_cases hab : key a ≤ key b <;> by_cases hbc : key b ≤ key c
  · simp only [pick, hab, hbc, if_true, if_pos (hab.trans hbc)]
  · simp only [pick, hab, hbc, if_true, if_false]
  · simp only [pick, hab, hbc, if_true, if_false]
  · have hac : ¬ key a ≤ key c := fun h =>
      hab (h.trans (le_of_not_ge hbc))
    simp only [pick, hab, hbc, hac, if_false]

/-- The first value offered is kept. -/
theorem Keeps.first (h : Keeps key s none) : Keeps key (insert a s) (some a) := by
  cases h
  refine ⟨Set.mem_insert a _, fun b hb => ?_⟩
  rcases hb with rfl | hb
  · exact le_rfl
  · cases hb

/-- The value held stays unless the new one is strictly less. -/
theorem Keeps.pick {r : α} (h : Keeps key s (some r)) :
    Keeps key (insert a s) (some (pick key r a)) := by
  obtain ⟨hr, hleast⟩ := h
  rw [Register.pick]
  split
  · next hra =>
      refine ⟨Set.mem_insert_of_mem a hr, fun b hb => ?_⟩
      rcases hb with rfl | hb
      · exact hra
      · exact hleast b hb
  · next hra =>
      refine ⟨Set.mem_insert a s, fun b hb => ?_⟩
      rcases hb with rfl | hb
      · exact le_rfl
      · exact (le_of_not_ge hra).trans (hleast b hb)

/-- What each step keeps while it takes one more value in, a run over a list
keeps with all of them. -/
theorem foldl_collect {S : Type} {P : Set α → S → Prop} {step : S → α → S}
    {l : List α}
    (hstep : ∀ s x a, a ∈ l → P s x → P (insert a s) (step x a))
    {x : S} (h : P s x) : P (s ∪ {a | a ∈ l}) (l.foldl step x) := by
  induction l generalizing s x with
  | nil =>
      have hs : s ∪ {a | a ∈ ([] : List α)} = s := by
        ext a
        simp
      rwa [hs]
  | cons a l ih =>
      have hs : s ∪ {b | b ∈ a :: l} = insert a s ∪ {b | b ∈ l} := by
        ext b
        simp only [Set.mem_union, Set.mem_ofPred_eq, List.mem_cons,
          Set.mem_insert_iff]
        rw [or_assoc, or_left_comm]
      rw [hs, List.foldl_cons]
      refine ih (fun s y b hb => hstep s y b (List.mem_cons_of_mem a hb)) ?_
      exact hstep s x a List.mem_cons_self h

section Offer

variable [DecidableEq α]

/-- Nothing is held that was not held or offered. -/
theorem of_offer_eq_some {held : Option α} {r : α}
    (h : offer key held a = some r) : r = a ∨ held = some r := by
  cases held with
  | none => exact Or.inl (Option.some.inj h).symm
  | some q =>
      rw [offer] at h
      split at h
      · exact Or.inl (Option.some.inj h).symm
      · exact Or.inr h

theorem Keeps.offer {held : Option α} (h : Keeps key s held) :
    Keeps key (insert a s) (offer key held a) := by
  cases held with
  | none => exact h.first
  | some r =>
      obtain ⟨hr, hleast⟩ := h
      rw [Register.offer]
      split
      · next hnew =>
          refine ⟨Set.mem_insert a s, fun b hb => ?_⟩
          rcases hb with rfl | hb
          · exact le_rfl
          · exact hnew.1.trans (hleast b hb)
      · next hold =>
          refine ⟨Set.mem_insert_of_mem a hr, fun b hb => ?_⟩
          rcases hb with rfl | hb
          · by_contra hlt
            refine hold ⟨le_of_not_ge hlt, fun heq => hlt ?_⟩
            rw [heq]
          · exact hleast b hb

theorem Keeps.foldl {held : Option α} (h : Keeps key s held) (l : List α) :
    Keeps key (s ∪ {a | a ∈ l}) (l.foldl (Register.offer key) held) :=
  foldl_collect (fun _ _ _ _ hkeeps => hkeeps.offer) h

end Offer

/-- Only one value can be held where the least ones are all the same. -/
theorem Keeps.unique_of_least {held held' : Option α}
    (hs : ∀ a ∈ s, ∀ b ∈ s, (∀ c ∈ s, key a ≤ key c) →
      (∀ c ∈ s, key b ≤ key c) → a = b)
    (h : Keeps key s held) (h' : Keeps key s held') : held = held' := by
  cases held with
  | none =>
      cases held' with
      | none => rfl
      | some r =>
          cases h
          exact h'.1.elim
  | some q =>
      cases held' with
      | none =>
          cases h'
          exact h.1.elim
      | some r => exact congrArg some (hs q h.1 r h'.1 h.2 h'.2)

/-- Only one value can be held where keys tell the values apart. -/
theorem Keeps.unique {held held' : Option α} (hs : Distinct key s)
    (h : Keeps key s held) (h' : Keeps key s held') : held = held' := by
  refine h.unique_of_least (fun a ha b hb hleast hleast' => ?_) h'
  exact hs a ha b hb (le_antisymm (hleast b hb) (hleast' a ha))

end Register
