import Intranet.Lib.BTree

/-!
# Keeping the greatest keys

A map that may hold only `k` entries takes a new one in and then drops its
least key as long as it holds too many. What it holds is compared with the map
that never drops anything: `Contains` says that whatever is missing has at
least `k` keys above it in what is held. Taking an entry in keeps this,
whichever key it has, and so does dropping the least of more than `k` keys;
and a map of no more than `k` entries with the property holds exactly the `k`
greatest (`getElem?_eq_some_iff`).
-/

namespace Newest

variable {K V : Type} [LinearOrder K]

/-- How many keys of a map are above `q`. -/
def above (m : BTreeMap K V) (q : K) : ℕ :=
  (m.keys.filter fun p => q < p).length

/-- `m` holds entries of `full`, and what it does not hold has at least `k`
keys of `m` above it. -/
structure Contains (k : ℕ) (full m : BTreeMap K V) : Prop where
  sub : ∀ (q : K) (v : V), m[q]? = some v → full[q]? = some v
  le_above : ∀ q ∈ full, q ∉ m → k ≤ above m q

variable {k : ℕ} {full m m' : BTreeMap K V} {q : K} {v : V}

theorem nodup_above (m : BTreeMap K V) (q : K) :
    (m.keys.filter fun p => q < p).Nodup :=
  Std.ExtTreeMap.nodup_keys.filter _

theorem above_le (h : ∀ p ∈ m, q < p → p ∈ m') : above m q ≤ above m' q := by
  refine ((nodup_above m q).subperm fun p hp => ?_).length_le
  obtain ⟨hp, hlt⟩ := List.mem_filter.1 hp
  exact List.mem_filter.2 ⟨Std.ExtTreeMap.mem_keys.2
    (h p (Std.ExtTreeMap.mem_keys.1 hp) (of_decide_eq_true hlt)), hlt⟩

/-- A key of the map is not above itself, nor above what is above it. -/
theorem above_lt_size {p : K} (h : q ∈ m) (hle : q ≤ p) :
    above m p < m.size := by
  rw [← Std.ExtTreeMap.length_keys]
  exact List.length_filter_lt_length_iff_exists.2
    ⟨q, Std.ExtTreeMap.mem_keys.2 h, by simpa using hle⟩

theorem above_eq_size (h : ∀ p ∈ m, q < p) : above m q = m.size := by
  rw [← Std.ExtTreeMap.length_keys, above, List.filter_eq_self.2]
  intro p hp
  exact decide_eq_true (h p (Std.ExtTreeMap.mem_keys.1 hp))

theorem above_insert_self (m : BTreeMap K V) (q : K) (v : V) :
    above (m.insert q v) q = above m q := by
  refine (above_le fun p hp hlt => ?_).antisymm (above_le fun p hp _ => ?_)
  · exact ((BTreeMap.mem_insert_iff m q p v).1 hp).resolve_left hlt.ne
  · exact (BTreeMap.mem_insert_iff m q p v).2 (.inr hp)

/-- The first key is the least. -/
theorem head?_keys_le {a oldest : K} (h : m.keys.head? = some oldest)
    (ha : a ∈ m) : oldest ≤ a := by
  obtain ⟨rest, hkeys⟩ := List.head?_eq_some_iff.1 h
  have hsorted := m.ordered_keys
  have hin := Std.ExtTreeMap.mem_keys.2 ha
  rw [hkeys] at hsorted hin
  rcases List.mem_cons.1 hin with rfl | hin
  · exact le_rfl
  · exact (compare_lt_iff_lt.1 ((List.pairwise_cons.1 hsorted).1 a hin)).le

namespace Contains

theorem refl (m : BTreeMap K V) : Contains k m m :=
  ⟨fun _ _ h => h, fun _ h hnot => absurd h hnot⟩

theorem mem (h : Contains k full m) (hq : q ∈ m) : q ∈ full := by
  obtain ⟨v, hv⟩ := (BTreeMap.mem_iff_exists m q).1 hq
  exact (BTreeMap.mem_iff_exists full q).2 ⟨v, h.sub q v hv⟩

theorem insert (h : Contains k full m) (q : K) (v : V) :
    Contains k (full.insert q v) (m.insert q v) where
  sub := by
    intro p w hp
    rw [BTreeMap.getElem?_insert_ite] at hp ⊢
    split
    · next hpq => rwa [if_pos hpq] at hp
    · next hpq =>
        rw [if_neg hpq] at hp
        exact h.sub p w hp
  le_above := by
    intro p hp hnot
    rw [BTreeMap.mem_insert_iff, not_or] at hnot
    rw [BTreeMap.mem_insert_iff] at hp
    refine (h.le_above p (hp.resolve_left hnot.1) hnot.2).trans ?_
    exact above_le fun a ha _ =>
      (BTreeMap.mem_insert_iff m q a v).2 (.inr ha)

/-- The least of more than `k` keys has at least `k` above it, and so has
whatever is below it. -/
theorem eraseLeast (h : Contains k full m) (hsize : k < m.size) {oldest : K}
    (holdest : m.keys.head? = some oldest) :
    Contains k full (m.erase oldest) where
  sub := by
    intro p w hp
    rw [BTreeMap.getElem?_erase_ite] at hp
    split at hp
    · cases hp
    · exact h.sub p w hp
  le_above := by
    intro p hp hnot
    have hmem : oldest ∈ m :=
      Std.ExtTreeMap.mem_keys.1 (List.mem_of_head? holdest)
    have hleast : ∀ a ∈ m.erase oldest, oldest < a := by
      intro a ha
      rw [Std.ExtTreeMap.mem_erase] at ha
      have hne : oldest ≠ a := fun heq => ha.1 (compare_eq_iff_eq.2 heq)
      exact lt_of_le_of_ne (head?_keys_le holdest ha.2) hne
    by_cases hlt : oldest < p
    · have hpm : p ∉ m := fun hpm => hnot
        (Std.ExtTreeMap.mem_erase.2
          ⟨fun heq => hlt.ne (compare_eq_iff_eq.1 heq), hpm⟩)
      refine (h.le_above p hp hpm).trans (above_le fun a ha hpa => ?_)
      exact Std.ExtTreeMap.mem_erase.2
        ⟨fun heq => (hlt.trans hpa).ne (compare_eq_iff_eq.1 heq), ha⟩
    · have hcount : (m.erase oldest).size = m.size - 1 := by
        rw [Std.ExtTreeMap.size_erase,
          if_pos (Std.ExtTreeMap.contains_iff_mem.2 hmem)]
      rw [above_eq_size fun a ha => lt_of_le_of_lt (not_lt.1 hlt) (hleast a ha),
        hcount]
      omega

/-- What is within the limit is what has fewer than `k` keys above it. -/
theorem getElem?_eq_some_iff (h : Contains k full m) (hsize : m.size ≤ k) :
    m[q]? = some v ↔ full[q]? = some v ∧ above full q < k := by
  constructor
  · intro hv
    have hq : q ∈ m := (BTreeMap.mem_iff_exists m q).2 ⟨v, hv⟩
    have hheld : above full q ≤ above m q := by
      refine above_le fun p hp hlt => ?_
      by_contra hnot
      have habove := h.le_above p hp hnot
      have hless := above_lt_size hq hlt.le
      omega
    have hless := above_lt_size hq le_rfl
    exact ⟨h.sub q v hv, by omega⟩
  · rintro ⟨hv, hless⟩
    have hq : q ∈ m := by
      by_contra hnot
      have hfull := (BTreeMap.mem_iff_exists full q).2 ⟨v, hv⟩
      have habove : above m q ≤ above full q := above_le fun p hp _ => h.mem hp
      have hmany := h.le_above q hfull hnot
      omega
    obtain ⟨w, hw⟩ := (BTreeMap.mem_iff_exists m q).1 hq
    have hsame := h.sub q w hw
    rw [hv, Option.some.injEq] at hsame
    rw [hw, hsame]

end Contains

end Newest
