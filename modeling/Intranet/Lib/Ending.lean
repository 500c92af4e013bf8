import Mathlib

/-!
# What lists have in common at the end

`shared` walks two lists back from their ends as long as they agree and counts
the steps. `le_shared_iff` is the count in terms of endings: it reaches `k`
exactly when the lists have an ending of length `k` in common. Over several
lists, the least count for one of them against the others is the length of
what they all end with, and `le_foldl_min_iff` reads a bound off such a fold.
-/

namespace Ending

section

variable {α : Type}

/-- A list has one ending of each length. -/
theorem suffix_unique {l t u : List α} (ht : t <:+ l) (hu : u <:+ l)
    (hlen : t.length = u.length) : t = u :=
  (List.suffix_of_suffix_length_le ht hu hlen.le).eq_of_length hlen

/-- Two lists have a front of length `k + 1` in common when they start alike
and the rest has one of length `k`. -/
theorem exists_front_cons {k : ℕ} {a b : α} {l l' : List α} :
    (∃ t, t.length = k + 1 ∧ t <+: a :: l ∧ t <+: b :: l') ↔
      a = b ∧ ∃ t, t.length = k ∧ t <+: l ∧ t <+: l' := by
  constructor
  · intro h
    obtain ⟨t, ht, htl, htl'⟩ := h
    cases t with
    | nil => cases ht
    | cons c t =>
        obtain ⟨hca, hrest⟩ := List.cons_prefix_cons.1 htl
        obtain ⟨hcb, hrest'⟩ := List.cons_prefix_cons.1 htl'
        exact ⟨hca.symm.trans hcb, t, Nat.succ.inj ht, hrest, hrest'⟩
  · intro h
    obtain ⟨rfl, t, ht, htl, htl'⟩ := h
    refine ⟨a :: t, by rw [List.length_cons, ht], ?_, ?_⟩
    · exact List.cons_prefix_cons.2 ⟨rfl, htl⟩
    · exact List.cons_prefix_cons.2 ⟨rfl, htl'⟩

end

variable {α : Type} [BEq α]

/-- How many items two lists share at the front. -/
def sharedFront (l l' : List α) : ℕ :=
  ((l.zip l').takeWhile fun pair => pair.1 == pair.2).length

/-- How many items two lists share at the end. -/
def shared (l l' : List α) : ℕ := sharedFront l.reverse l'.reverse

theorem sharedFront_cons (a b : α) (l l' : List α) :
    sharedFront (a :: l) (b :: l') =
      if a == b then sharedFront l l' + 1 else 0 := by
  rw [sharedFront, List.zip_cons_cons, List.takeWhile_cons]
  dsimp only
  split
  · rfl
  · rfl

variable [LawfulBEq α]

theorem le_sharedFront_iff {k : ℕ} {l l' : List α} :
    k ≤ sharedFront l l' ↔ ∃ t, t.length = k ∧ t <+: l ∧ t <+: l' := by
  induction l generalizing l' k with
  | nil => simp [sharedFront, eq_comm]
  | cons a l ih =>
      cases k with
      | zero =>
          refine ⟨fun _ => ?_, fun _ => Nat.zero_le _⟩
          exact ⟨[], rfl, List.nil_prefix, List.nil_prefix⟩
      | succ k =>
          cases l' with
          | nil => simp [sharedFront]
          | cons b l' =>
              rw [sharedFront_cons, exists_front_cons, ← ih]
              split
              · next hab => simp [eq_of_beq hab]
              · next hab =>
                  have hne : a ≠ b := fun h => hab (beq_iff_eq.2 h)
                  simp [hne]

theorem le_shared_iff {k : ℕ} {l l' : List α} :
    k ≤ shared l l' ↔ ∃ t, t.length = k ∧ t <:+ l ∧ t <:+ l' := by
  rw [shared, le_sharedFront_iff]
  constructor
  · intro h
    obtain ⟨t, ht, hl, hl'⟩ := h
    refine ⟨t.reverse, by rw [List.length_reverse, ht], ?_, ?_⟩
    · rwa [← List.reverse_prefix, List.reverse_reverse]
    · rwa [← List.reverse_prefix, List.reverse_reverse]
  · intro h
    obtain ⟨t, ht, hl, hl'⟩ := h
    exact ⟨t.reverse, by rw [List.length_reverse, ht], List.reverse_prefix.2 hl,
      List.reverse_prefix.2 hl'⟩

theorem le_foldl_min_iff {β : Type} {k n : ℕ} {f : β → ℕ} {items : List β} :
    k ≤ items.foldl (fun least b => min least (f b)) n ↔
      k ≤ n ∧ ∀ b ∈ items, k ≤ f b := by
  induction items generalizing n with
  | nil => simp
  | cons b items ih =>
      rw [List.foldl_cons, ih, le_min_iff, List.forall_mem_cons, and_assoc]

end Ending
