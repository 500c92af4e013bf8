import Intranet.Lib.BTree

/-!
# Deleting along edges, with a worklist

The loop takes a key off the list, finds the entries it has an edge to,
deletes them from the map and puts their keys on the list. It deletes what it
scans, so an entry is found once at most, and each turn of the loop makes the
list and the map together shorter by one (`runs`).

What is gone at the end is what can be reached from the list along edges, over
entries of the map (`Runs.getElem?_eq`). No invariant of the loop mentions
the deletions already made: one turn leaves the reachable entries what they
were, those just deleted apart (`reached_cons`).
-/

namespace Worklist

variable {K V : Type} [LinearOrder K] {edge : K → V → Bool}

/-- The entries `k` has an edge to. -/
def hit (edge : K → V → Bool) (k : K) (entries : BTreeMap K V) : List K :=
  (entries.toList.filter fun e => edge k e.2).map Prod.fst

def eraseAll (keys : List K) (entries : BTreeMap K V) : BTreeMap K V :=
  keys.foldl (fun m k => m.erase k) entries

/-- The loop, the head of the list being the next key to come off it. -/
def loop (edge : K → V → Bool) : ℕ → List K → BTreeMap K V → BTreeMap K V
  | 0, _, entries => entries
  | _ + 1, [], entries => entries
  | fuel + 1, k :: pending, entries =>
      loop edge fuel ((hit edge k entries).reverse ++ pending)
        (eraseAll (hit edge k entries) entries)

/-- A finished run of the loop. -/
inductive Runs (edge : K → V → Bool) :
    List K → BTreeMap K V → BTreeMap K V → Prop where
  | done {entries : BTreeMap K V} : Runs edge [] entries entries
  | turn {k : K} {pending : List K} {entries out : BTreeMap K V} :
      Runs edge ((hit edge k entries).reverse ++ pending)
        (eraseAll (hit edge k entries) entries) out →
      Runs edge (k :: pending) entries out

/-- What can be reached from the list, over entries of the map. -/
inductive Reached (edge : K → V → Bool) (pending : List K)
    (entries : BTreeMap K V) : K → Prop where
  | first {p k : K} {v : V} : p ∈ pending → entries[k]? = some v →
      edge p v = true → Reached edge pending entries k
  | next {p k : K} {v : V} : Reached edge pending entries p →
      entries[k]? = some v → edge p v = true → Reached edge pending entries k

/-! ## One turn -/

theorem mem_hit {k x : K} {entries : BTreeMap K V} :
    x ∈ hit edge k entries ↔
      ∃ v, entries[x]? = some v ∧ edge k v = true := by
  simp only [hit, List.mem_map, List.mem_filter, Prod.exists,
    exists_and_right, exists_eq_right,
    Std.ExtTreeMap.mem_toList_iff_getElem?_eq_some]

theorem nodup_hit (k : K) (entries : BTreeMap K V) :
    (hit edge k entries).Nodup := by
  have hkeys : (entries.toList.map Prod.fst).Nodup := by
    rw [Std.ExtTreeMap.map_fst_toList_eq_keys]
    exact entries.nodup_keys
  exact hkeys.sublist (List.filter_sublist.map Prod.fst)

theorem getElem?_eraseAll (keys : List K) (entries : BTreeMap K V) (x : K) :
    (eraseAll keys entries)[x]? =
      if x ∈ keys then none else entries[x]? := by
  induction keys generalizing entries with
  | nil => rfl
  | cons k keys ih =>
      rw [eraseAll, List.foldl_cons, ← eraseAll, ih,
        BTreeMap.getElem?_erase_ite]
      by_cases hk : k = x
      · rw [hk, if_pos rfl, if_pos List.mem_cons_self]
        split <;> rfl
      · simp only [if_neg hk, List.mem_cons, Ne.symm hk, false_or]

theorem size_eraseAll {keys : List K} {entries : BTreeMap K V}
    (hnodup : keys.Nodup) (hmem : ∀ k ∈ keys, k ∈ entries) :
    (eraseAll keys entries).size + keys.length = entries.size := by
  induction keys generalizing entries with
  | nil => rfl
  | cons k keys ih =>
      obtain ⟨hk, hnodup⟩ := List.nodup_cons.1 hnodup
      have hrest : ∀ x ∈ keys, x ∈ entries.erase k := by
        intro x hx
        have hne : k ≠ x := fun h => hk (h ▸ hx)
        rw [Std.ExtTreeMap.mem_erase]
        exact ⟨by simpa using hne, hmem x (List.mem_cons_of_mem k hx)⟩
      have hsize := ih hnodup hrest
      have hin := hmem k List.mem_cons_self
      have hpos : 0 < entries.size := by
        rw [Nat.pos_iff_ne_zero]
        intro hzero
        rw [Std.ExtTreeMap.eq_empty_iff_size_eq_zero.2 hzero] at hin
        simp at hin
      rw [Std.ExtTreeMap.size_erase,
        if_pos (Std.ExtTreeMap.contains_iff_mem.2 hin)] at hsize
      rw [eraseAll, List.foldl_cons, ← eraseAll, List.length_cons]
      omega

/-- The loop runs to its end on one unit of fuel for each key of the list and
each entry of the map. -/
theorem runs {fuel : ℕ} {pending : List K} {entries : BTreeMap K V}
    (hfuel : pending.length + entries.size ≤ fuel) :
    Runs edge pending entries (loop edge fuel pending entries) := by
  induction fuel generalizing pending entries with
  | zero =>
      have hnil : pending = [] := List.length_eq_zero_iff.1 (by omega)
      rw [hnil]
      exact .done
  | succ fuel ih =>
      cases pending with
      | nil => exact .done
      | cons k pending =>
          refine .turn (ih ?_)
          have hnodup : (hit edge k entries).Nodup := nodup_hit k entries
          have hsize := size_eraseAll hnodup
            fun x hx => (BTreeMap.mem_iff_exists _ _).2
              ((mem_hit.1 hx).imp fun _ h => h.1)
          rw [List.length_cons] at hfuel
          rw [List.length_append, List.length_reverse]
          omega

/-- A turn deletes what its key has an edge to, and leaves the rest as
reachable as it was. -/
theorem reached_cons {k x : K} {pending : List K} {entries : BTreeMap K V} :
    Reached edge (k :: pending) entries x ↔
      x ∈ hit edge k entries ∨
        Reached edge ((hit edge k entries).reverse ++ pending)
          (eraseAll (hit edge k entries) entries) x := by
  have hkept : ∀ y v, y ∉ hit edge k entries → entries[y]? = some v →
      (eraseAll (hit edge k entries) entries)[y]? = some v := by
    intro y v hy hv
    rw [getElem?_eraseAll, if_neg hy, hv]
  have hold : ∀ {y : K} {v : V},
      (eraseAll (hit edge k entries) entries)[y]? = some v →
        entries[y]? = some v := by
    intro y v hv
    rw [getElem?_eraseAll] at hv
    split at hv
    · cases hv
    · exact hv
  constructor
  · intro h
    induction h with
    | @first p y v hp hy hedge =>
        by_cases hin : y ∈ hit edge k entries
        · exact Or.inl hin
        · rcases List.mem_cons.1 hp with rfl | hp
          · exact absurd (mem_hit.2 ⟨v, hy, hedge⟩) hin
          · exact Or.inr (.first (List.mem_append_right _ hp)
              (hkept y v hin hy) hedge)
    | @next p y v _ hy hedge ih =>
        by_cases hin : y ∈ hit edge k entries
        · exact Or.inl hin
        · rcases ih with hp | hp
          · exact Or.inr (.first
              (List.mem_append_left _ (List.mem_reverse.2 hp))
              (hkept y v hin hy) hedge)
          · exact Or.inr (.next hp (hkept y v hin hy) hedge)
  · have hfirst : ∀ y, y ∈ hit edge k entries →
        Reached edge (k :: pending) entries y := by
      intro y hy
      obtain ⟨v, hv, hedge⟩ := mem_hit.1 hy
      exact .first List.mem_cons_self hv hedge
    rintro (h | h)
    · exact hfirst x h
    · induction h with
      | @first p y v hp hy hedge =>
          rcases List.mem_append.1 hp with hp | hp
          · exact .next (hfirst p (List.mem_reverse.1 hp)) (hold hy) hedge
          · exact .first (List.mem_cons_of_mem k hp) (hold hy) hedge
      | next _ hy hedge ih => exact .next ih (hold hy) hedge

/-! ## A whole run -/

theorem not_reached_nil {entries : BTreeMap K V} {x : K} :
    ¬ Reached edge [] entries x := by
  intro h
  induction h with
  | first hp => cases hp
  | next _ _ _ ih => exact ih

/-- A run keeps exactly the entries that cannot be reached. -/
theorem Runs.getElem?_eq {pending : List K} {entries out : BTreeMap K V}
    (h : Runs edge pending entries out) (x : K) :
    (Reached edge pending entries x → out[x]? = none) ∧
      (¬ Reached edge pending entries x → out[x]? = entries[x]?) := by
  induction h with
  | done => exact ⟨fun hx => absurd hx not_reached_nil, fun _ => rfl⟩
  | @turn k pending entries out _ ih =>
      rw [getElem?_eraseAll] at ih
      rw [reached_cons]
      constructor
      · rintro (hin | hx)
        · by_cases hx : Reached edge ((hit edge k entries).reverse ++ pending)
              (eraseAll (hit edge k entries) entries) x
          · exact ih.1 hx
          · rw [ih.2 hx, if_pos hin]
        · exact ih.1 hx
      · intro hx
        obtain ⟨hin, hx⟩ := not_or.1 hx
        rw [ih.2 hx, if_neg hin]

end Worklist
