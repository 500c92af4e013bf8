import Intranet.Lib.BTree

/-!
# Maps inside maps, and counting

`Sub` is the order a map goes down when it only loses entries. Whatever a
removal looks like, what is left sits inside what was there, and then its size
and every total over its values are no larger. Counting the values that pass a
test is a total of ones and zeros, so the laws of totals are the laws of
counts.
-/

namespace BTreeMap

variable {K V : Type} [LinearOrder K] {m n : BTreeMap K V} {k : K} {v : V}
  {f : V → ℕ}

/-- Every entry of the first map is one of the second. -/
def Sub (m n : BTreeMap K V) : Prop :=
  ∀ (k : K) (v : V), m[k]? = some v → n[k]? = some v

theorem Sub.refl (m : BTreeMap K V) : Sub m m := fun _ _ h => h

theorem Sub.trans {l : BTreeMap K V} (hlm : Sub l m) (hmn : Sub m n) :
    Sub l n := fun k v h => hmn k v (hlm k v h)

theorem sub_erase (m : BTreeMap K V) (k : K) : Sub (m.erase k) m := by
  intro a v h
  rw [getElem?_erase_ite] at h
  split at h
  · cases h
  · exact h

theorem sub_filter (m : BTreeMap K V) (p : K → V → Bool) :
    Sub (m.filter p) m := by
  intro a v h
  rw [Std.ExtTreeMap.getElem?_filter', Option.filter_eq_some_iff] at h
  exact h.1

theorem sub_foldl_erase (keys : List K) (m : BTreeMap K V) :
    Sub (keys.foldl (fun m k => m.erase k) m) m := by
  induction keys generalizing m with
  | nil => exact Sub.refl m
  | cons k keys ih => exact (ih (m.erase k)).trans (sub_erase m k)

theorem Sub.subperm (h : Sub m n) : m.toList.Subperm n.toList := by
  refine List.subperm_of_subset (nodup_toList m) fun e he => ?_
  rw [mem_toList_iff] at he ⊢
  exact h _ _ he

theorem Sub.size_le (h : Sub m n) : m.size ≤ n.size := by
  rw [← Std.ExtTreeMap.length_toList, ← Std.ExtTreeMap.length_toList]
  exact h.subperm.length_le

theorem Sub.total_le (h : Sub m n) : total f m ≤ total f n := by
  obtain ⟨l, hperm, hsub⟩ := h.subperm
  have hsum := (hperm.map fun e : K × V => f e.2).sum_eq
  rw [total, total, ← hsum]
  exact (hsub.map fun e => f e.2).sum_le_sum fun _ _ => Nat.zero_le _

/-- An insertion adds at most the weight of the new value. -/
theorem total_insert_le (m : BTreeMap K V) (k : K) (v : V) :
    total f (m.insert k v) ≤ total f m + f v := by
  cases h : m[k]? with
  | none =>
      rw [total_insert_new h]
      omega
  | some w =>
      have hexchange := total_insert_of_getElem? (f := f) h v
      omega

theorem length_filter_eq_total (m : BTreeMap K V) (p : V → Prop)
    [DecidablePred p] :
    (m.toList.filter fun e => decide (p e.2)).length =
      total (fun v => if p v then 1 else 0) m := by
  rw [total]
  induction m.toList with
  | nil => rfl
  | cons e l ih =>
      rw [List.filter_cons, List.map_cons, List.sum_cons, ← ih]
      split
      · next he =>
          rw [if_pos (of_decide_eq_true he), List.length_cons, Nat.add_comm]
      · next he =>
          rw [if_neg fun h => he (decide_eq_true h), Nat.zero_add]

end BTreeMap
