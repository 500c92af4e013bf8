import Mathlib

/-!
# Ordered maps and sets over a linear order

The ordered collections of the standard library are parameterized by a
comparison function. Every key type of this development is a linear order,
so this file fixes the comparison once, as `compare`, and restates the few
lookup laws the proofs live on with key equality in place of
`compare a b = .eq`. Extensionality, iteration order and everything else is
used from `Std.ExtTreeMap` and `Std.ExtTreeSet` directly.
-/

/-- An ordered map, iterated in ascending key order. -/
abbrev BTreeMap (K V : Type) [LinearOrder K] := Std.ExtTreeMap K V compare

/-- An ordered set, iterated in ascending order. -/
abbrev BTreeSet (K : Type) [LinearOrder K] := Std.ExtTreeSet K compare

instance instTransOrd {K : Type} [LinearOrder K] : Std.TransOrd K :=
  inferInstance

instance instLawfulEqOrd {K : Type} [LinearOrder K] : Std.LawfulEqOrd K :=
  ⟨compare_eq_iff_eq.1⟩

namespace BTreeMap

variable {K V : Type} [LinearOrder K]

instance [DecidableEq V] : DecidableEq (BTreeMap K V) := fun a b =>
  decidable_of_iff (a.toList = b.toList) Std.ExtTreeMap.toList_inj

theorem getElem?_insert_ite (m : BTreeMap K V) (k a : K) (v : V) :
    (m.insert k v)[a]? = if k = a then some v else m[a]? := by
  simp only [Std.ExtTreeMap.getElem?_insert, compare_eq_iff_eq]

theorem getElem?_erase_ite (m : BTreeMap K V) (k a : K) :
    (m.erase k)[a]? = if k = a then none else m[a]? := by
  simp only [Std.ExtTreeMap.getElem?_erase, compare_eq_iff_eq]

theorem mem_iff_exists (m : BTreeMap K V) (k : K) :
    k ∈ m ↔ ∃ v, m[k]? = some v := by
  rw [Std.ExtTreeMap.mem_iff_isSome_getElem?, Option.isSome_iff_exists]

theorem getElem?_eq_none_iff (m : BTreeMap K V) (k : K) :
    m[k]? = none ↔ k ∉ m := by
  rw [Std.ExtTreeMap.mem_iff_isSome_getElem?, Option.not_isSome_iff_eq_none]

theorem mem_insert_iff (m : BTreeMap K V) (k a : K) (v : V) :
    a ∈ m.insert k v ↔ k = a ∨ a ∈ m := by
  simp only [Std.ExtTreeMap.mem_insert, compare_eq_iff_eq]

/-- A value that is already there is put back without a change. -/
theorem insert_of_getElem? {m : BTreeMap K V} {k : K} {v : V}
    (h : m[k]? = some v) : m.insert k v = m := by
  refine Std.ExtTreeMap.ext_getElem? fun a => ?_
  rw [getElem?_insert_ite]
  split <;> rename_i hk
  · rw [← hk, h]
  · rfl

theorem erase_of_not_mem {m : BTreeMap K V} {k : K} (h : k ∉ m) :
    m.erase k = m := by
  refine Std.ExtTreeMap.ext_getElem? fun a => ?_
  rw [getElem?_erase_ite]
  split
  · next heq => rw [← heq, (getElem?_eq_none_iff m k).2 h]
  · rfl

/-- Fewer keys are left when the condition on them rules out one more. -/
theorem length_filter_keys_lt {m : BTreeMap K V} {p q : K → Prop}
    [DecidablePred p] [DecidablePred q] (himp : ∀ a, q a → p a) {k : K}
    (hk : k ∈ m) (hp : p k) (hq : ¬ q k) :
    (m.keys.filter fun a => decide (q a)).length <
      (m.keys.filter fun a => decide (p a)).length := by
  have hfilter : m.keys.filter (fun a => decide (q a)) =
      (m.keys.filter fun a => decide (p a)).filter fun a => decide (q a) := by
    rw [List.filter_filter]
    refine List.filter_congr fun a _ => ?_
    rw [← Bool.decide_and, decide_eq_decide]
    exact ⟨fun h => ⟨h, himp a h⟩, And.left⟩
  rw [hfilter]
  refine List.length_filter_lt_length_iff_exists.2 ⟨k, ?_, by simpa using hq⟩
  rw [List.mem_filter]
  exact ⟨Std.ExtTreeMap.mem_keys.2 hk, decide_eq_true hp⟩

/-! ### Totals over the values -/

/-- The sum of a weight over the values of a map. -/
def total (f : V → ℕ) (m : BTreeMap K V) : ℕ :=
  (m.toList.map fun e => f e.2).sum

theorem nodup_toList (m : BTreeMap K V) : m.toList.Nodup := by
  refine m.distinct_keys_toList.imp fun hne heq => hne ?_
  rw [heq]
  exact compare_eq_iff_eq.2 rfl

theorem mem_toList_iff (m : BTreeMap K V) (e : K × V) :
    e ∈ m.toList ↔ m[e.1]? = some e.2 :=
  Std.ExtTreeMap.mem_toList_iff_getElem?_eq_some

theorem exists_toList_iff {m : BTreeMap K V} {k : K} :
    (∃ e ∈ m.toList, e.1 = k) ↔ k ∈ m := by
  rw [mem_iff_exists]
  constructor
  · rintro ⟨⟨k, v⟩, hmem, rfl⟩
    exact ⟨v, (mem_toList_iff m _).1 hmem⟩
  · rintro ⟨v, hv⟩
    exact ⟨(k, v), (mem_toList_iff m _).2 hv, rfl⟩

theorem mem_values_iff (m : BTreeMap K V) (v : V) :
    v ∈ m.values ↔ ∃ k : K, m[k]? = some v := by
  have hvalues : m.values = m.foldr (fun _ v l => v :: l) [] := rfl
  rw [hvalues, Std.ExtTreeMap.foldr_eq_foldr_toList]
  rw [List.foldr_cons_eq_append, List.append_nil, List.mem_map]
  constructor
  · rintro ⟨⟨k, v⟩, hmem, rfl⟩
    exact ⟨k, (mem_toList_iff m (k, v)).1 hmem⟩
  · rintro ⟨k, hk⟩
    exact ⟨(k, v), (mem_toList_iff m (k, v)).2 hk, rfl⟩

/-- Inserting item after item, under a key of its own and with a value that may
depend on the map so far. -/
theorem mem_foldl_insert {α : Type} {f : α → K}
    {g : BTreeMap K V → α → V} {items : List α} {m : BTreeMap K V} {k : K} :
    k ∈ items.foldl (fun m a => m.insert (f a) (g m a)) m ↔
      (∃ a ∈ items, f a = k) ∨ k ∈ m := by
  induction items generalizing m with
  | nil => simp
  | cons a items ih =>
      rw [List.foldl_cons, ih, mem_insert_iff,
        List.exists_mem_cons_iff]
      exact or_left_comm.trans or_assoc.symm

theorem toList_perm_of_getElem? {m : BTreeMap K V} {k : K} {v : V}
    (h : m[k]? = some v) : m.toList.Perm ((k, v) :: (m.erase k).toList) := by
  refine (List.perm_ext_iff_of_nodup m.nodup_toList ?_).2 fun e => ?_
  · refine List.nodup_cons.2 ⟨?_, nodup_toList _⟩
    rw [mem_toList_iff, getElem?_erase_ite, if_pos rfl]
    simp
  · obtain ⟨a, b⟩ := e
    rw [List.mem_cons, mem_toList_iff, mem_toList_iff, getElem?_erase_ite]
    by_cases hak : k = a
    · subst hak
      simp [h, eq_comm]
    · simp [hak, Ne.symm hak]

theorem total_erase {f : V → ℕ} {m : BTreeMap K V} {k : K} {v : V}
    (h : m[k]? = some v) : total f m = f v + total f (m.erase k) := by
  rw [total, total, ((toList_perm_of_getElem? h).map fun e => f e.2).sum_eq,
    List.map_cons, List.sum_cons]

/-- A new key adds its value's weight. -/
theorem total_insert_new {f : V → ℕ} {m : BTreeMap K V} {k : K}
    (h : m[k]? = none) (v : V) : total f (m.insert k v) = f v + total f m := by
  have hself : (m.insert k v)[k]? = some v := by
    rw [getElem?_insert_ite, if_pos rfl]
  rw [total_erase hself]
  congr 2
  refine Std.ExtTreeMap.ext_getElem? fun a => ?_
  rw [getElem?_erase_ite, getElem?_insert_ite]
  split
  · next hk => rw [← hk, h]
  · rfl

/-- A key that is there exchanges one weight for another. -/
theorem total_insert_of_getElem? {f : V → ℕ} {m : BTreeMap K V} {k : K}
    {v : V} (h : m[k]? = some v) (w : V) :
    total f (m.insert k w) + f v = total f m + f w := by
  have hself : (m.insert k w)[k]? = some w := by
    rw [getElem?_insert_ite, if_pos rfl]
  have herase : (m.insert k w).erase k = m.erase k := by
    refine Std.ExtTreeMap.ext_getElem? fun a => ?_
    rw [getElem?_erase_ite, getElem?_erase_ite, getElem?_insert_ite]
    split <;> rfl
  rw [total_erase hself, total_erase h, herase]
  omega

/-- Looking up distinct keys finds no more than there is. -/
theorem sum_lookup_le_total (f : V → ℕ) (m : BTreeMap K V) (keys : List K)
    (hkeys : keys.Nodup) :
    (keys.map fun k => m[k]?.elim 0 f).sum ≤ total f m := by
  induction keys generalizing m with
  | nil => exact Nat.zero_le _
  | cons k keys ih =>
      obtain ⟨hk, hkeys⟩ := List.nodup_cons.1 hkeys
      have hrest : (keys.map fun a => (m.erase k)[a]?.elim 0 f) =
          keys.map fun a => m[a]?.elim 0 f := by
        refine List.map_congr_left fun a ha => ?_
        rw [getElem?_erase_ite, if_neg]
        intro hka
        exact hk (hka ▸ ha)
      have hle := ih (m.erase k) hkeys
      rw [hrest] at hle
      rw [List.map_cons, List.sum_cons]
      cases hm : m[k]? with
      | none =>
          have hsame : m.erase k = m := by
            refine Std.ExtTreeMap.ext_getElem? fun a => ?_
            rw [getElem?_erase_ite]
            split
            · next hka => rw [← hka, hm]
            · rfl
          rw [hsame] at hle
          simpa using hle
      | some v =>
          rw [total_erase hm]
          exact Nat.add_le_add_left hle _

end BTreeMap

namespace BTreeSet

variable {K : Type} [LinearOrder K]

theorem toList_inj {a b : BTreeSet K} : a.toList = b.toList ↔ a = b := by
  constructor
  · intro h
    refine Std.ExtTreeSet.ext_mem fun k => ?_
    rw [← Std.ExtTreeSet.mem_toList, h, Std.ExtTreeSet.mem_toList]
  · intro h
    rw [h]

instance : DecidableEq (BTreeSet K) := fun a b =>
  decidable_of_iff (a.toList = b.toList) toList_inj

theorem mem_insert_iff (s : BTreeSet K) (k a : K) :
    a ∈ s.insert k ↔ k = a ∨ a ∈ s := by
  simp only [Std.ExtTreeSet.mem_insert, compare_eq_iff_eq]

theorem mem_foldl_insert (xs : List K) (s : BTreeSet K) {x : K} :
    x ∈ xs.foldl (fun s a => s.insert a) s ↔ x ∈ s ∨ x ∈ xs := by
  induction xs generalizing s with
  | nil => simp
  | cons a xs ih =>
      rw [List.foldl_cons, ih, mem_insert_iff, List.mem_cons, eq_comm]
      tauto

/-- Collecting the keys of the items that pass a test. -/
theorem mem_foldl_insertIf {A : Type} (p : A → Bool) (key : A → K)
    (xs : List A) (s : BTreeSet K) {x : K} :
    x ∈ xs.foldl (fun s a => if p a then s.insert (key a) else s) s ↔
      x ∈ s ∨ ∃ a ∈ xs, p a = true ∧ key a = x := by
  induction xs generalizing s with
  | nil => simp
  | cons a xs ih =>
      rw [List.foldl_cons, ih, List.exists_mem_cons_iff]
      split
      · next hp =>
          rw [mem_insert_iff, hp]
          tauto
      · next hp => tauto

/-- A set has as many elements as its size says. -/
theorem ncard_setOf_mem (s : BTreeSet K) : {a | a ∈ s}.ncard = s.size := by
  classical
  have hset : {a | a ∈ s} = (s.toList.toFinset : Set K) := by
    ext a
    simp
  have hnodup : s.toList.Nodup := s.distinct_toList.imp fun hne heq =>
    hne (compare_eq_iff_eq.2 heq)
  rw [hset, Set.ncard_coe_finset, List.toFinset_card_of_nodup hnodup,
    Std.ExtTreeSet.length_toList]

theorem finite_setOf_mem (s : BTreeSet K) : {a | a ∈ s}.Finite := by
  classical
  have hset : {a | a ∈ s} = (s.toList.toFinset : Set K) := by
    ext a
    simp
  rw [hset]
  exact Finset.finite_toSet _

theorem setOf_mem_insert (s : BTreeSet K) (k : K) :
    {a | a ∈ s.insert k} = insert k {a | a ∈ s} := by
  ext a
  rw [Set.mem_ofPred_eq, mem_insert_iff, Set.mem_insert_iff, eq_comm]
  rfl

theorem insert_of_mem {s : BTreeSet K} {k : K} (h : k ∈ s) : s.insert k = s := by
  refine Std.ExtTreeSet.ext_mem fun a => ?_
  rw [mem_insert_iff]
  constructor
  · intro hcase
    rcases hcase with rfl | ha
    · exact h
    · exact ha
  · exact Or.inr

theorem toList_pairwise (s : BTreeSet K) : s.toList.Pairwise (· < ·) := by
  refine s.ordered_toList.imp fun h => ?_
  exact compare_lt_iff_lt.1 h

end BTreeSet

/-! ## Positions in a strictly sorted list -/

namespace SortedList

variable {α β : Type} [LinearOrder β] {key : α → β} {l : List α} {y : α}

/-- The element at position `i` has `i` elements below it. -/
theorem ncard_lt_of_getElem? (hl : l.Pairwise fun a b => key a < key b)
    {i : ℕ} (hi : l[i]? = some y) :
    {x | x ∈ l ∧ key x < key y}.ncard = i := by
  obtain ⟨hlt, hy⟩ := List.getElem?_eq_some_iff.1 hi
  have hsplit : l = l.take i ++ y :: l.drop (i + 1) := by
    rw [← hy, List.cons_getElem_drop_succ, List.take_append_drop]
  have hnodup : (l.take i).Nodup :=
    (hl.sublist (List.take_sublist i l)).imp fun h heq => (heq ▸ h).false
  have hset : {x | x ∈ l ∧ key x < key y} = {x | x ∈ l.take i} := by
    rw [hsplit, List.pairwise_append, List.pairwise_cons] at hl
    obtain ⟨-, ⟨hafter, -⟩, hbefore⟩ := hl
    ext x
    constructor
    · intro hgiven
      obtain ⟨hx, hxy⟩ := hgiven
      rw [hsplit, List.mem_append, List.mem_cons] at hx
      rcases hx with hx | rfl | hx
      · exact hx
      · exact absurd hxy (lt_irrefl _)
      · exact absurd (hafter x hx) (lt_asymm hxy)
    · intro hx
      exact ⟨List.mem_of_mem_take hx, hbefore x hx y List.mem_cons_self⟩
  classical
  rw [hset, ← List.coe_toFinset, Set.ncard_coe_finset,
    List.toFinset_card_of_nodup hnodup, List.length_take]
  omega

/-- A cut keeps exactly the elements with few enough below them. -/
theorem mem_take_iff (hl : l.Pairwise fun a b => key a < key b) {n : ℕ} :
    y ∈ l.take n ↔ y ∈ l ∧ {x | x ∈ l ∧ key x < key y}.ncard < n := by
  rw [List.mem_take_iff_getElem]
  constructor
  · intro hgiven
    obtain ⟨i, hi, rfl⟩ := hgiven
    refine ⟨List.getElem_mem _, ?_⟩
    rw [ncard_lt_of_getElem? hl (List.getElem?_eq_getElem _)]
    omega
  · intro hgiven
    obtain ⟨hy, hcard⟩ := hgiven
    obtain ⟨i, hi, rfl⟩ := List.getElem_of_mem hy
    rw [ncard_lt_of_getElem? hl (List.getElem?_eq_getElem hi)] at hcard
    exact ⟨i, by omega, rfl⟩

/-- A strictly sorted list is determined by what is in it. -/
theorem eq_of_mem_iff (key : α → β) {l' : List α}
    (hl : l.Pairwise fun a b => key a < key b)
    (hl' : l'.Pairwise fun a b => key a < key b) (h : ∀ x, x ∈ l ↔ x ∈ l') :
    l = l' := by
  have hnodup : ∀ {m : List α}, (m.Pairwise fun a b => key a < key b) →
      m.Nodup := fun hm => hm.imp fun hab heq => (heq ▸ hab).false
  have hperm : l.Perm l' :=
    (List.perm_ext_iff_of_nodup (hnodup hl) (hnodup hl')).2 h
  exact hperm.eq_of_pairwise (fun a b _ _ hab hba => absurd hab hba.asymm)
    hl hl'

end SortedList

/-! ## Collecting a list -/

namespace BTreeSet

variable {K : Type} [LinearOrder K]

theorem mem_ofList {l : List K} {k : K} :
    k ∈ (Std.ExtTreeSet.ofList l compare : BTreeSet K) ↔ k ∈ l := by
  rw [Std.ExtTreeSet.mem_ofList, List.contains_iff_mem]

/-- Collecting a strictly ascending list loses nothing. -/
theorem toList_ofList {l : List K} (hl : l.Pairwise (· < ·)) :
    (Std.ExtTreeSet.ofList l compare : BTreeSet K).toList = l := by
  refine SortedList.eq_of_mem_iff (fun a => a) (toList_pairwise _) hl
    fun x => ?_
  rw [Std.ExtTreeSet.mem_toList, mem_ofList]

theorem ofList_toList (s : BTreeSet K) :
    Std.ExtTreeSet.ofList s.toList compare = s :=
  toList_inj.1 (toList_ofList (toList_pairwise s))

end BTreeSet

namespace BTreeMap

variable {K V : Type} [LinearOrder K]

theorem toList_pairwise (m : BTreeMap K V) :
    m.toList.Pairwise fun a b => a.1 < b.1 :=
  Std.ExtTreeMap.ordered_keys_toList.imp fun h => compare_lt_iff_lt.1 h

/-- Collecting a list with strictly ascending keys loses nothing. -/
theorem toList_ofList {l : List (K × V)}
    (hl : l.Pairwise fun a b => a.1 < b.1) :
    (Std.ExtTreeMap.ofList l compare : BTreeMap K V).toList = l := by
  have hdistinct : l.Pairwise fun a b => ¬ compare a.1 b.1 = .eq :=
    hl.imp fun hab heq => hab.ne (compare_eq_iff_eq.1 heq)
  refine SortedList.eq_of_mem_iff Prod.fst (toList_pairwise _) hl ?_
  intro x
  rw [Std.ExtTreeMap.mem_toList_iff_getElem?_eq_some]
  constructor
  · intro hx
    have hmem : x.1 ∈ (Std.ExtTreeMap.ofList l compare : BTreeMap K V) :=
      (mem_iff_exists _ _).2 ⟨x.2, hx⟩
    rw [Std.ExtTreeMap.mem_ofList, List.contains_iff_mem, List.mem_map] at hmem
    obtain ⟨y, hy, hk⟩ := hmem
    have hget := Std.ExtTreeMap.getElem?_ofList_of_mem (k := y.1) (v := y.2)
      (compare_eq_iff_eq.2 hk) hdistinct hy
    rw [hx] at hget
    rwa [Prod.ext hk.symm (Option.some.inj hget)]
  · intro hx
    exact Std.ExtTreeMap.getElem?_ofList_of_mem (k := x.1) (compare_eq_iff_eq.2 rfl)
      hdistinct hx

theorem ofList_toList (m : BTreeMap K V) :
    Std.ExtTreeMap.ofList m.toList compare = m :=
  Std.ExtTreeMap.toList_inj.1 (toList_ofList (toList_pairwise m))

end BTreeMap
