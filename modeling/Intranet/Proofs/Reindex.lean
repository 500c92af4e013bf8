import Intranet.Proofs.Search

/-!
# What a failed reindexing leaves

`reindex` drops every posting of the pointer and then inserts the new one,
which is where it is validated. If that fails, the old ones are gone. So the
index is as it was after a failure exactly when there was nothing to fail or
nothing to lose: the new posting is accepted, or none of its pointer is held
(`reindex_atomic_iff`).

No id listed is left under a term without others, so dropping nothing leaves
the index as it is (`Inhabited.removeAll_nil`). That much does not need ids to
be told apart.
-/

namespace Intranet

namespace LocalIndex

variable {C : Crypto} {index : LocalIndex} {posting p : Posting}
  {state : GovernanceState}

/-- No term is listed with no ids. -/
def Inhabited (index : LocalIndex) : Prop :=
  ∀ (t : Term) (ids : BTreeSet Hash), index.byTerm[t]? = some ids → ids ≠ ∅

namespace Inhabited

theorem removeAll (ids : List Hash) : (index.removeAll ids).Inhabited :=
  Inverted.inhabited_drop _

theorem insert (h : index.Inhabited) {index' : LocalIndex}
    (hinsert : index.insert C posting state = .ok index') :
    index'.Inhabited := by
  obtain ⟨-, rfl⟩ := Sound.insert_ok.1 hinsert
  exact Inverted.inhabited_file _ h

theorem call (h : index.Inhabited) (one : IndexCall) :
    (index.call C one).Inhabited := by
  cases one with
  | insert posting state =>
      rw [LocalIndex.call]
      cases hinsert : index.insert C posting state with
      | error err => exact h
      | ok index' => exact h.insert hinsert
  | expire now => exact removeAll _
  | revalidate state => exact removeAll _
  | reindex posting state =>
      rw [LocalIndex.call, Sound.reindex_eq]
      split
      · exact removeAll _
      · next index' hinsert => exact (removeAll _).insert hinsert
  | markTruncated term => exact h

/-- Every index that calls lead to. -/
theorem after (network : NetworkId) (ttlMillis : Int64)
    (calls : List IndexCall) :
    (((new network).withTtl ttlMillis).after C calls).Inhabited := by
  refine List.foldlRecOn (motive := fun index : LocalIndex => index.Inhabited)
    calls _ ?_ fun index h one _ => h.call one
  intro t ids hids
  simp [new, withTtl] at hids

theorem removeAll_nil (h : index.Inhabited) : index.removeAll [] = index := by
  have hterms : Inverted.drop index.byTerm (Std.ExtTreeSet.ofList [] compare) =
      index.byTerm := Inverted.drop_empty h
  rw [LocalIndex.removeAll, hterms]
  rfl

end Inhabited

/-- Whether a posting of this pointer is held. -/
def HoldsPointer (index : LocalIndex) (pointer : PointerId) : Prop :=
  ∃ p, index.Holds p ∧ p.pointerId = pointer

theorem idsWhere_eq_nil_iff {q : Posting → Bool} :
    index.idsWhere q = [] ↔ ∀ p, index.Holds p → q p = false := by
  rw [List.eq_nil_iff_forall_not_mem]
  simp only [mem_idsWhere, Holds]
  constructor
  · rintro h p ⟨id, hp⟩
    exact Bool.eq_false_iff.2 fun hq => h id ⟨p, hp, hq⟩
  · rintro h id ⟨p, hp, hq⟩
    rw [h p ⟨id, hp⟩] at hq
    cases hq

/-- An index that drops the postings of a pointer holds none of it. -/
theorem not_holdsPointer_removeAll (index : LocalIndex) (pointer : PointerId) :
    ¬ (index.removeAll (index.idsWhere fun held =>
      held.pointerId = pointer)).HoldsPointer pointer := by
  rintro ⟨p, ⟨id, hp⟩, hpointer⟩
  change (List.foldl _ _ _)[id]? = some p at hp
  rw [getElem?_eraseAll] at hp
  split at hp
  · cases hp
  · next hnot =>
    exact hnot (mem_idsWhere.2 ⟨p, hp, decide_eq_true hpointer⟩)

theorem removeAll_eq_self_iff (h : index.Inhabited) (pointer : PointerId) :
    index.removeAll (index.idsWhere fun held => held.pointerId = pointer) =
        index ↔ ¬ index.HoldsPointer pointer := by
  constructor
  · intro heq
    have hgone := not_holdsPointer_removeAll index pointer
    rwa [heq] at hgone
  · intro hnone
    have hnothing : index.idsWhere (fun held => held.pointerId = pointer) =
        [] :=
      idsWhere_eq_nil_iff.2 fun p hp =>
        decide_eq_false fun hpointer => hnone ⟨p, hp, hpointer⟩
    rw [hnothing, h.removeAll_nil]

/-- An accepted posting is reported as such. -/
theorem reindex_ok (haccepts : Accepts C index.network posting state) :
    (index.reindex C posting state).1 = .ok () := by
  have hinsert : (index.removeAll (index.idsWhere fun held =>
      held.pointerId = posting.pointerId)).insert C posting state = .ok _ :=
    Sound.insert_ok.2 ⟨haccepts, rfl⟩
  rw [LocalIndex.reindex, hinsert]

/-- One that is not is reported after the others are dropped. -/
theorem reindex_error (hrejects : ¬ Accepts C index.network posting state) :
    ∃ err, index.reindex C posting state = (.error err, index.removeAll
      (index.idsWhere fun held => held.pointerId = posting.pointerId)) := by
  rw [LocalIndex.reindex]
  split
  · next err _ => exact ⟨err, rfl⟩
  · next index' hinsert =>
    exact absurd (Sound.insert_ok.1 hinsert).1 hrejects

/-- A failed `reindex` changes nothing exactly if the new posting is accepted,
when it does not fail, or no posting of its pointer is held. -/
theorem reindex_atomic_iff (C : Crypto) (network : NetworkId)
    (ttlMillis : Int64) (calls : List IndexCall) (posting : Posting)
    (state : GovernanceState) :
    let index := ((new network).withTtl ttlMillis).after C calls
    (∀ err, (index.reindex C posting state).1 = .error err →
      (index.reindex C posting state).2 = index ∧
        ∀ U query, search U (index.reindex C posting state).2 query =
          search U index query) ↔
      Accepts C index.network posting state ∨
        ¬ index.HoldsPointer posting.pointerId := by
  intro index
  have hinhabited : index.Inhabited := Inhabited.after network ttlMillis calls
  by_cases haccepts : Accepts C index.network posting state
  · refine iff_of_true (fun err herr => ?_) (Or.inl haccepts)
    rw [reindex_ok haccepts] at herr
    cases herr
  · obtain ⟨err, hfails⟩ := reindex_error haccepts
    rw [hfails, or_iff_right haccepts, ← removeAll_eq_self_iff hinhabited]
    constructor
    · exact fun h => (h err rfl).1
    · intro hsame _ _
      exact ⟨hsame, fun U query => by rw [hsame]⟩

/-! ## A posting lost -/

/-- The state after identity 1 founds the network. -/
def foundedState : GovernanceState :=
  ((GovernanceState.replay .sample
    [Sample.genesis 0 .conservativeDefault []]).toOption).getD emptyState

/-- A posting of identity 2, who is no member of it, for pointer 1. -/
def strangerPosting : Posting :=
  { samplePosting 0 1 "narwhal" with
    publisherIdentity := Sample.identity 2
    signature := Sample.signature 2 11 }

/-- An index with one posting, for pointer 1. -/
def heldIndex : LocalIndex :=
  ((new Sample.network).withTtl 100).after .sample
    [.insert (samplePosting 10 1 "narwhal") foundedState]

/-- A stranger's posting is refused, and the one that is held goes. -/
theorem stranger_unpublishes : ¬ ∀ (calls : List IndexCall) (posting : Posting)
    (state : GovernanceState),
    let index := ((new Sample.network).withTtl 100).after .sample calls
    ∀ err, (index.reindex .sample posting state).1 = .error err →
      (index.reindex .sample posting state).2 = index := by
  intro hall
  have hheld : heldIndex.HoldsPointer ⟨Bytes.ofNat 32 1⟩ :=
    ⟨samplePosting 10 1 "narwhal", ⟨Sample.hash 10, by decide +kernel⟩, rfl⟩
  have hrejects : ¬ Accepts .sample heldIndex.network strangerPosting
      foundedState := by
    intro haccepts
    exact absurd haccepts.2 (by decide +kernel)
  obtain ⟨err, hfails⟩ := reindex_error hrejects
  have hsame := hall [.insert (samplePosting 10 1 "narwhal") foundedState]
    strangerPosting foundedState err (congrArg Prod.fst hfails)
  have hdropped := (congrArg Prod.snd hfails).symm.trans hsame
  exact (removeAll_eq_self_iff (Inhabited.after _ _ _) _).1 hdropped hheld

end LocalIndex

end Intranet
