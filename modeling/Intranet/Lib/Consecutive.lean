import Mathlib

/-!
# Consecutive numbers

Whether numbers are distinct and follow on from each other is a question about
the collection (`Run`); a loop that sorts them and compares neighbours answers
it (`run_iff_isChain`).

The loop asks for the successor of every number but the last. When there is a
greatest number, which has none, `Asks` says that the loop gets there before
it finds a gap, and `asks_iff` which sorted lists bring it about: a run up to
the greatest number, and that number once more.
-/

namespace Consecutive

/-- The numbers are distinct and are all of those from some number on. -/
def Run (l : List ℕ) : Prop :=
  l.Nodup ∧ ∃ first, ∀ n, n ∈ l ↔ first ≤ n ∧ n < first + l.length

variable {l : List ℕ} {top : ℕ}

theorem run_iff_perm :
    Run l ↔ ∃ first, l.Perm (List.range' first l.length) := by
  constructor
  · rintro ⟨hnodup, first, hmem⟩
    refine ⟨first, (List.perm_ext_iff_of_nodup hnodup List.nodup_range').2
      fun n => ?_⟩
    rw [hmem, List.mem_range'_1]
  · rintro ⟨first, hperm⟩
    refine ⟨hperm.nodup_iff.2 List.nodup_range', first, fun n => ?_⟩
    rw [hperm.mem_iff, List.mem_range'_1]

theorem isChain_iff_range' : l.IsChain (fun a b => b = a + 1) ↔
    ∃ first, l = List.range' first l.length := by
  induction l with
  | nil => exact ⟨fun _ => ⟨0, rfl⟩, fun _ => .nil⟩
  | cons a l ih =>
      cases l with
      | nil => exact ⟨fun _ => ⟨a, rfl⟩, fun _ => .singleton a⟩
      | cons b l =>
          rw [List.isChain_cons_cons, ih]
          constructor
          · rintro ⟨rfl, first, hrange⟩
            rw [List.length_cons, List.range'_succ] at hrange
            obtain ⟨rfl, hrest⟩ := List.cons.inj hrange
            refine ⟨a, ?_⟩
            rw [List.length_cons, List.length_cons, List.range'_succ,
              List.range'_succ, ← hrest]
          · rintro ⟨first, hrange⟩
            rw [List.length_cons, List.length_cons, List.range'_succ,
              List.range'_succ] at hrange
            obtain ⟨rfl, hrest⟩ := List.cons.inj hrange
            obtain ⟨rfl, hrest'⟩ := List.cons.inj hrest
            refine ⟨rfl, a + 1, ?_⟩
            rw [List.length_cons, List.range'_succ, ← hrest']

/-- Of sorted numbers it is enough to look at neighbours. -/
theorem run_iff_isChain (hsorted : l.Pairwise (· ≤ ·)) :
    Run l ↔ l.IsChain fun a b => b = a + 1 := by
  rw [run_iff_perm, isChain_iff_range']
  constructor
  · rintro ⟨first, hperm⟩
    exact ⟨first, hperm.eq_of_pairwise' hsorted
      ((List.pairwise_lt_range' 1).imp Nat.le_of_lt)⟩
  · rintro ⟨first, hrange⟩
    exact ⟨first, hrange ▸ List.Perm.refl _⟩

/-- The loop asks for the successor of `top`. -/
def Asks (top : ℕ) : List ℕ → Prop
  | a :: b :: rest => a = top ∨ b = a + 1 ∧ Asks top (b :: rest)
  | _ => False

/-- A run up to just below `top`, each number once, and `top` more than
once. -/
def topRepeated (top below again : ℕ) : List ℕ :=
  List.range' (top - below) below ++ List.replicate (again + 2) top

theorem head?_topRepeated (top below again : ℕ) :
    (topRepeated top below again).head? = some (top - below) := by
  cases below with
  | zero => rfl
  | succ below => rfl

theorem topRepeated_succ {below : ℕ} (h : below + 1 ≤ top) (again : ℕ) :
    topRepeated top (below + 1) again =
      (top - (below + 1)) :: topRepeated top below again := by
  have hnext : top - (below + 1) + 1 = top - below := by omega
  rw [topRepeated, topRepeated, List.range'_succ, hnext]
  rfl

theorem length_topRepeated (top below again : ℕ) :
    (topRepeated top below again).length = below + (again + 2) := by
  rw [topRepeated, List.length_append, List.length_range',
    List.length_replicate]

theorem pairwise_topRepeated {below : ℕ} (h : below ≤ top) (again : ℕ) :
    (topRepeated top below again).Pairwise (· ≤ ·) := by
  induction below with
  | zero => exact List.pairwise_replicate_of_refl
  | succ below ih =>
      rw [topRepeated_succ h]
      refine List.pairwise_cons.2 ⟨fun n hn => ?_, ih (by omega)⟩
      rcases List.mem_append.1 hn with hn | hn
      · have hrange := (List.mem_range'_1.1 hn).1
        omega
      · rw [List.eq_of_mem_replicate hn]
        exact Nat.sub_le _ _

theorem asks_iff (hsorted : l.Pairwise (· ≤ ·)) (hle : ∀ n ∈ l, n ≤ top) :
    Asks top l ↔
      ∃ below again, below ≤ top ∧ l = topRepeated top below again := by
  induction l with
  | nil =>
      refine ⟨False.elim, ?_⟩
      rintro ⟨below, again, -, heq⟩
      have hlength := congrArg List.length heq
      rw [length_topRepeated, List.length_nil] at hlength
      omega
  | cons a l ih =>
      cases l with
      | nil =>
          refine ⟨False.elim, ?_⟩
          rintro ⟨below, again, -, heq⟩
          have hlength := congrArg List.length heq
          rw [length_topRepeated, List.length_singleton] at hlength
          omega
      | cons b l =>
          obtain ⟨hfirst, hrest⟩ := List.pairwise_cons.1 hsorted
          rw [Asks, ih hrest fun n hn => hle n (List.mem_cons_of_mem a hn)]
          constructor
          · rintro (rfl | ⟨rfl, below, again, hbelow, heq⟩)
            · refine ⟨0, l.length, Nat.zero_le _, ?_⟩
              refine List.eq_replicate_iff.2 ⟨rfl, fun n hn => ?_⟩
              refine (hle n hn).antisymm ?_
              rcases List.mem_cons.1 hn with rfl | hn
              · exact le_rfl
              · exact hfirst n hn
            · have hhead := congrArg List.head? heq
              rw [head?_topRepeated, List.head?_cons,
                Option.some.injEq] at hhead
              refine ⟨below + 1, again, by omega, ?_⟩
              rw [topRepeated_succ (by omega), ← heq]
              congr 1
              omega
          · rintro ⟨below, again, hbelow, heq⟩
            cases below with
            | zero => exact .inl (List.cons.inj heq).1
            | succ below =>
                rw [topRepeated_succ hbelow] at heq
                obtain ⟨rfl, hrest⟩ := List.cons.inj heq
                have hhead := congrArg List.head? hrest
                rw [head?_topRepeated, List.head?_cons,
                  Option.some.injEq] at hhead
                exact .inr ⟨by omega, below, again, by omega, hrest⟩

end Consecutive
