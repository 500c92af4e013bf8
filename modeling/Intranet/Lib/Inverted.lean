import Intranet.Lib.BTree

/-!
# Inverted indices

Documents are kept by their id, and beside them the ids of the documents for
each term. `InStep` is what keeps the two from drifting apart: an id is listed
under a term exactly when the document of that id has the term, and no term is
listed with no ids. Filing a document and dropping a set of documents keep it.

A document may be filed again, but not another one under its id, since nothing
here takes an id off the terms of a document it no longer belongs to.
-/

namespace Inverted

variable {T I D : Type} [LinearOrder T] [LinearOrder I]

/-- An id listed under some terms. -/
def file (index : BTreeMap T (BTreeSet I)) (id : I) (terms : List T) :
    BTreeMap T (BTreeSet I) :=
  terms.foldl (fun index t =>
    index.insert t ((index[t]?.getD ∅).insert id)) index

/-- The ids outside a set, and the terms that are left with any. -/
def drop (index : BTreeMap T (BTreeSet I)) (dropped : BTreeSet I) :
    BTreeMap T (BTreeSet I) :=
  index.filterMap fun _ ids =>
    let left := ids.filter fun id => !dropped.contains id
    if left.isEmpty then none else some left

/-- Whether an id is listed under a term. -/
def Listed (index : BTreeMap T (BTreeSet I)) (t : T) (id : I) : Prop :=
  ∃ ids : BTreeSet I, index[t]? = some ids ∧ id ∈ ids

structure InStep (terms : D → List T) (docs : BTreeMap I D)
    (index : BTreeMap T (BTreeSet I)) : Prop where
  listed : ∀ t id, Listed index t id ↔ ∃ d, docs[id]? = some d ∧ t ∈ terms d
  inhabited : ∀ (t : T) (ids : BTreeSet I), index[t]? = some ids → ids ≠ ∅

variable {terms : D → List T} {docs : BTreeMap I D}
  {index : BTreeMap T (BTreeSet I)} {t : T} {id other : I}

theorem InStep.empty : InStep terms (∅ : BTreeMap I D) ∅ where
  listed t id := by simp [Listed]
  inhabited t ids h := by simp at h

theorem insert_ne_empty (ids : BTreeSet I) (id : I) : ids.insert id ≠ ∅ := by
  intro h
  have hmem : id ∈ ids.insert id := (BTreeSet.mem_insert_iff _ _ _).2 (Or.inl rfl)
  rw [h] at hmem
  simp at hmem

theorem listed_insert {u : T} :
    Listed (index.insert u ((index[u]?.getD ∅).insert id)) t other ↔
      (u = t ∧ id = other) ∨ Listed index t other := by
  unfold Listed
  rw [BTreeMap.getElem?_insert_ite]
  by_cases hu : u = t
  · subst hu
    rw [if_pos rfl]
    simp only [Option.some.injEq, exists_eq_left', BTreeSet.mem_insert_iff,
      true_and]
    refine or_congr_right ?_
    cases index[u]? with
    | none => simp
    | some ids => simp
  · rw [if_neg hu]
    simp [hu]

/-- Filing lists the id under its terms and changes nothing else. -/
theorem listed_file (us : List T) : Listed (file index id us) t other ↔
    (t ∈ us ∧ id = other) ∨ Listed index t other := by
  induction us generalizing index with
  | nil => simp [file]
  | cons u us ih =>
      have hstep : file index id (u :: us) =
          file (index.insert u ((index[u]?.getD ∅).insert id)) id us := rfl
      rw [hstep, ih, listed_insert, List.mem_cons]
      constructor
      · rintro (⟨hmem, hid⟩ | ⟨rfl, hid⟩ | hold)
        · exact Or.inl ⟨Or.inr hmem, hid⟩
        · exact Or.inl ⟨Or.inl rfl, hid⟩
        · exact Or.inr hold
      · rintro (⟨rfl | hmem, hid⟩ | hold)
        · exact Or.inr (Or.inl ⟨rfl, hid⟩)
        · exact Or.inl ⟨hmem, hid⟩
        · exact Or.inr (Or.inr hold)

theorem inhabited_file (us : List T)
    (h : ∀ (t : T) (ids : BTreeSet I), index[t]? = some ids → ids ≠ ∅) :
    ∀ (t : T) (ids : BTreeSet I), (file index id us)[t]? = some ids →
      ids ≠ ∅ := by
  induction us generalizing index with
  | nil => exact h
  | cons u us ih =>
      refine ih fun t ids hids => ?_
      rw [BTreeMap.getElem?_insert_ite] at hids
      split at hids
      · cases hids
        exact insert_ne_empty _ _
      · exact h t ids hids

/-- A term the id is not filed under keeps its ids. -/
theorem getElem?_file_of_not_mem {us : List T} (h : t ∉ us) :
    (file index id us)[t]? = index[t]? := by
  induction us generalizing index with
  | nil => rfl
  | cons u us ih =>
      obtain ⟨hne, hrest⟩ := not_or.1 (mt List.mem_cons.2 h)
      have hstep : file index id (u :: us) =
          file (index.insert u ((index[u]?.getD ∅).insert id)) id us := rfl
      rw [hstep, ih hrest, BTreeMap.getElem?_insert_ite,
        if_neg (Ne.symm hne)]

theorem InStep.file {d : D} (h : InStep terms docs index)
    (hnew : ∀ held, docs[id]? = some held → held = d) :
    InStep terms (docs.insert id d) (file index id (terms d)) where
  listed t other := by
    rw [listed_file, h.listed, BTreeMap.getElem?_insert_ite]
    by_cases hid : id = other
    · subst hid
      rw [if_pos rfl]
      constructor
      · rintro (⟨hmem, -⟩ | ⟨held, hheld, hmem⟩)
        · exact ⟨d, rfl, hmem⟩
        · exact ⟨d, rfl, hnew held hheld ▸ hmem⟩
      · rintro ⟨_, heq, hmem⟩
        cases heq
        exact Or.inl ⟨hmem, rfl⟩
    · rw [if_neg hid]
      simp [hid]
  inhabited := inhabited_file (terms d) h.inhabited

theorem getElem?_drop (dropped : BTreeSet I) :
    (drop index dropped)[t]? = index[t]?.bind fun ids =>
      if (ids.filter fun id => !dropped.contains id).isEmpty then none
      else some (ids.filter fun id => !dropped.contains id) :=
  Std.ExtTreeMap.getElem?_filterMap'

theorem mem_left {ids dropped : BTreeSet I} :
    id ∈ ids.filter (fun id => !dropped.contains id) ↔
      id ∈ ids ∧ id ∉ dropped := by
  rw [Std.ExtTreeSet.mem_filter]
  simp [← Std.ExtTreeSet.contains_iff_mem]

theorem listed_drop (dropped : BTreeSet I) :
    Listed (drop index dropped) t id ↔ Listed index t id ∧ id ∉ dropped := by
  unfold Listed
  rw [getElem?_drop]
  constructor
  · rintro ⟨left, hleft, hmem⟩
    obtain ⟨ids, hids, hsome⟩ := Option.bind_eq_some_iff.1 hleft
    split at hsome
    · cases hsome
    · cases hsome
      obtain ⟨hmem, hnot⟩ := mem_left.1 hmem
      exact ⟨⟨ids, hids, hmem⟩, hnot⟩
  · rintro ⟨⟨ids, hids, hmem⟩, hnot⟩
    have hleft := mem_left.2 ⟨hmem, hnot⟩
    refine ⟨_, ?_, hleft⟩
    rw [hids, Option.bind_some, if_neg]
    intro hempty
    rw [Std.ExtTreeSet.isEmpty_iff.1 hempty] at hleft
    simp at hleft

theorem inhabited_drop (dropped : BTreeSet I) (t : T) (ids : BTreeSet I)
    (hids : (drop index dropped)[t]? = some ids) : ids ≠ ∅ := by
  rw [getElem?_drop] at hids
  obtain ⟨all, -, hsome⟩ := Option.bind_eq_some_iff.1 hids
  split at hsome
  · cases hsome
  · next hnot =>
    cases hsome
    exact fun hempty => hnot (Std.ExtTreeSet.isEmpty_iff.2 hempty)

/-- Where no term is listed with no ids, dropping nothing changes nothing. -/
theorem drop_empty
    (h : ∀ (t : T) (ids : BTreeSet I), index[t]? = some ids → ids ≠ ∅) :
    drop index ∅ = index := by
  refine Std.ExtTreeMap.ext_getElem? fun t => ?_
  rw [getElem?_drop]
  cases hids : index[t]? with
  | none => rfl
  | some ids =>
      have hall : (ids.filter fun id => !(∅ : BTreeSet I).contains id) = ids := by
        refine Std.ExtTreeSet.ext_mem fun id => ?_
        rw [mem_left]
        simp
      rw [Option.bind_some, hall, if_neg]
      exact fun hempty => h t ids hids (Std.ExtTreeSet.isEmpty_iff.1 hempty)

/-- Dropped documents leave every term, and a term they leave empty goes. -/
theorem InStep.drop {docs' : BTreeMap I D} (dropped : BTreeSet I)
    (h : InStep terms docs index)
    (hdocs : ∀ id : I, docs'[id]? = if id ∈ dropped then none else docs[id]?) :
    InStep terms docs' (drop index dropped) where
  listed t id := by
    rw [listed_drop, h.listed, hdocs]
    by_cases hid : id ∈ dropped
    · simp [hid]
    · simp [hid]
  inhabited := inhabited_drop dropped

end Inverted
