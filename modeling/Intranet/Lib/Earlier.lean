import Mathlib

/-!
# Earlier and later in a list

`Earlier l a b` says that `a` stands in `l` somewhere before `b`. A loop over
neighbouring pairs sees only the pairs that touch; when what it tests of the
later one is inherited by everything earlier, that is as good as looking at
every pair (`exists_neighbour_iff`).
-/

variable {α : Type} {l l' : List α} {a b c : α} {p : α → Prop}

/-- `a` stands in `l` before `b`. -/
def Earlier (l : List α) (a b : α) : Prop := [a, b].Sublist l

instance [DecidableEq α] : Decidable (Earlier l a b) :=
  inferInstanceAs (Decidable ([a, b].Sublist l))

namespace Earlier

theorem mem_left (h : Earlier l a b) : a ∈ l :=
  List.Sublist.subset h List.mem_cons_self

theorem mem_right (h : Earlier l a b) : b ∈ l :=
  List.Sublist.subset h (List.mem_cons_of_mem a List.mem_cons_self)

theorem mono (h : Earlier l a b) (hsub : l.Sublist l') : Earlier l' a b :=
  List.Sublist.trans h hsub

theorem of_pairwise {R : α → α → Prop} (h : Earlier l a b)
    (hl : l.Pairwise R) : R a b :=
  List.rel_of_pairwise_cons (hl.sublist h) List.mem_cons_self

theorem ne (h : Earlier l a b) (hl : l.Nodup) : a ≠ b :=
  h.of_pairwise hl

theorem cons_self (hb : b ∈ l) : Earlier (a :: l) a b :=
  (List.singleton_sublist.2 hb).cons_cons a

theorem cons (h : Earlier l a b) : Earlier (c :: l) a b :=
  List.Sublist.cons c h

theorem cons_iff : Earlier (c :: l) a b ↔
    (a = c ∧ b ∈ l) ∨ Earlier l a b := by
  constructor
  · intro h
    cases h with
    | cons _ h => exact Or.inr h
    | cons_cons _ h => exact Or.inl ⟨rfl, List.singleton_sublist.1 h⟩
  · intro hcase
    rcases hcase with ⟨rfl, hb⟩ | h
    · exact cons_self hb
    · exact cons h

/-- Of two members, one stands before the other. -/
theorem total (ha : a ∈ l) (hb : b ∈ l) (hne : a ≠ b) :
    Earlier l a b ∨ Earlier l b a := by
  induction l with
  | nil => cases ha
  | cons x l ih =>
      simp only [cons_iff]
      rcases List.mem_cons.1 ha with rfl | ha
      · have hb := List.mem_of_ne_of_mem hne.symm hb
        exact Or.inl (Or.inl ⟨rfl, hb⟩)
      · rcases List.mem_cons.1 hb with rfl | hb
        · exact Or.inr (Or.inl ⟨rfl, List.mem_of_ne_of_mem hne ha⟩)
        · exact (ih ha hb).imp Or.inr Or.inr

theorem filter_iff {p : α → Bool} :
    Earlier (l.filter p) a b ↔ Earlier l a b ∧ p a = true ∧ p b = true := by
  constructor
  · intro h
    exact ⟨h.mono List.filter_sublist, (List.mem_filter.1 h.mem_left).2,
      (List.mem_filter.1 h.mem_right).2⟩
  · intro hgiven
    obtain ⟨h, ha, hb⟩ := hgiven
    have hfilter := List.Sublist.filter p h
    rwa [List.filter_cons_of_pos ha, List.filter_cons_of_pos hb] at hfilter

theorem append_right (ha : a ∈ l) : Earlier (l ++ [b]) a b := by
  have hcat := List.Sublist.append (List.singleton_sublist.2 ha)
    (List.Sublist.refl [b])
  exact hcat

/-- The last member of a list with a property stands after every other. -/
theorem of_getLast? {p : α → Bool} (h : (l.filter p).getLast? = some c)
    (ha : a ∈ l) (hpa : p a = true) : a = c ∨ Earlier l a c := by
  obtain ⟨front, hfront⟩ := List.getLast?_eq_some_iff.1 h
  have hmem : a ∈ front ++ [c] := hfront ▸ List.mem_filter.2 ⟨ha, hpa⟩
  rcases List.mem_append.1 hmem with hmem | hmem
  · have hsub : Earlier (l.filter p) a c := hfront ▸ append_right hmem
    exact Or.inr (hsub.mono List.filter_sublist)
  · exact Or.inl (List.mem_singleton.1 hmem)

end Earlier

/-! ## Neighbours -/

/-- Every element with the one after it. -/
def neighbours (l : List α) : List (α × α) := l.zip l.tail

theorem neighbours_cons_cons : neighbours (a :: b :: l) =
    (a, b) :: neighbours (b :: l) := rfl

theorem earlier_of_neighbour (h : (a, b) ∈ neighbours l) : Earlier l a b := by
  induction l with
  | nil => cases h
  | cons x l ih =>
      cases l with
      | nil => cases h
      | cons y l =>
          rw [neighbours_cons_cons] at h
          rcases List.mem_cons.1 h with heq | h
          · cases heq
            exact Earlier.cons_self List.mem_cons_self
          · exact (ih h).cons

/-- Before anything later comes the neighbour. -/
theorem exists_neighbour (h : Earlier l a b) :
    ∃ n, (a, n) ∈ neighbours l ∧ (n = b ∨ Earlier l n b) := by
  induction l with
  | nil => cases h
  | cons x l ih =>
      cases l with
      | nil =>
          have hsmall := List.Sublist.length_le h
          simp at hsmall
      | cons y l =>
          rw [neighbours_cons_cons]
          rcases Earlier.cons_iff.1 h with ⟨rfl, hb⟩ | h
          · refine ⟨y, List.mem_cons_self, ?_⟩
            rcases List.mem_cons.1 hb with rfl | hb
            · exact Or.inl rfl
            · exact Or.inr (Earlier.cons_self hb).cons
          · obtain ⟨n, hn, hcase⟩ := ih h
            exact ⟨n, List.mem_cons_of_mem _ hn, hcase.imp_right Earlier.cons⟩

/-- Looking at neighbours finds a later element with a property that
everything before such an element has too. -/
theorem exists_neighbour_iff (hclosed : ∀ x y, Earlier l x y → p y → p x) :
    (∃ n, (a, n) ∈ neighbours l ∧ p n) ↔ ∃ y, Earlier l a y ∧ p y := by
  constructor
  · intro hgiven
    obtain ⟨n, hn, hp⟩ := hgiven
    exact ⟨n, earlier_of_neighbour hn, hp⟩
  · intro hgiven
    obtain ⟨y, hy, hp⟩ := hgiven
    obtain ⟨n, hn, hcase⟩ := exists_neighbour hy
    rcases hcase with rfl | hny
    · exact ⟨n, hn, hp⟩
    · exact ⟨n, hn, hclosed n y hny hp⟩
