import Intranet.Lib.Machine
import Intranet.Ref.Sample
import Intranet.Ref.Search

/-!
# Search answers from the live postings

What an index should hold after some calls is said without it (`live`): the
postings that were accepted, less those a later call drops. The index holds
exactly these, and its two maps stay in step (`Inverted.InStep`). A query looks
its terms up in one map and the postings in the other, so it answers with the
pointers of live postings that share a term with it.

A word is split into the same term when it is published and when it is asked
for, so a posting is found by any word of any field it was built from.
-/

namespace Intranet

/-! ## Terms of a posting -/

theorem mem_termFrequencies {U : UnicodeTables} {text : String} {t : Term} :
    t ∈ termFrequencies U text ↔ t ∈ tokenize U text := by
  rw [termFrequencies, BTreeMap.mem_foldl_insert (f := fun term : Term => term)
    (g := fun counts term => counts[term]?.getD 0 + 1)]
  simp

/-- The loop over the terms of one field. -/
def recordField (U : UnicodeTables) (terms : BTreeMap Term TermStats)
    (field : Field × String) : BTreeMap Term TermStats :=
  (termFrequencies U field.2).toList.foldl (fun terms counted =>
    recordTerm terms field.1 counted.1 counted.2) terms

theorem mem_recordField {U : UnicodeTables} {terms : BTreeMap Term TermStats}
    {field : Field × String} {t : Term} :
    t ∈ recordField U terms field ↔ t ∈ tokenize U field.2 ∨ t ∈ terms := by
  simp only [recordField, recordTerm]
  rw [BTreeMap.mem_foldl_insert (f := Prod.fst), BTreeMap.exists_toList_iff,
    mem_termFrequencies]

/-- A posting's terms are the words of the fields it was built from. -/
theorem IndexableContent.mem_terms {U : UnicodeTables}
    {content : IndexableContent} {t : Term} :
    t ∈ content.terms U ↔
      ∃ field ∈ content.fields, t ∈ tokenize U field.2 := by
  have hfold : ∀ (fields : List (Field × String))
      (terms : BTreeMap Term TermStats),
      t ∈ fields.foldl (recordField U) terms ↔
        (∃ field ∈ fields, t ∈ tokenize U field.2) ∨ t ∈ terms := by
    intro fields
    induction fields with
    | nil => simp
    | cons field fields ih =>
        intro terms
        rw [List.foldl_cons, ih, List.exists_mem_cons_iff, mem_recordField]
        exact or_left_comm.trans or_assoc.symm
  have hterms : content.terms U = content.fields.foldl (recordField U) ∅ := rfl
  rw [hterms, hfold]
  simp

/-! ## Calls on an index -/

/-- A call on an index. -/
inductive IndexCall where
  | insert (posting : Posting) (state : GovernanceState)
  | expire (now : Timestamp)
  | revalidate (state : GovernanceState)
  | reindex (posting : Posting) (state : GovernanceState)
  | markTruncated (term : Term)

namespace LocalIndex

variable {C : Crypto} {U : UnicodeTables} {index : LocalIndex}
  {posting p : Posting} {state : GovernanceState}

def call (C : Crypto) (index : LocalIndex) : IndexCall → LocalIndex
  | .insert posting state =>
      match index.insert C posting state with
      | .error _ => index
      | .ok index => index
  | .expire now => (index.expire now).2
  | .revalidate state => (index.revalidate C state).2
  | .reindex posting state => (index.reindex C posting state).2
  | .markTruncated term => index.markTruncated term

/-- An index after some calls. -/
def after (C : Crypto) (index : LocalIndex) (calls : List IndexCall) :
    LocalIndex :=
  calls.foldl (call C) index

/-- Whether an index for a network accepts a posting. -/
def Accepts (C : Crypto) (network : NetworkId) (posting : Posting)
    (state : GovernanceState) : Prop :=
  state.network = network ∧ posting.validate C state = .ok ()

/-- What is live after a call. -/
def liveAfter (C : Crypto) (network : NetworkId) (ttlMillis : Int64)
    (held : Set Posting) : IndexCall → Set Posting
  | .insert posting state =>
      {p | p ∈ held ∨ p = posting ∧ Accepts C network posting state}
  | .expire now => {p | p ∈ held ∧ p.isStale now ttlMillis = false}
  | .revalidate state => {p | p ∈ held ∧ p.validate C state = .ok ()}
  | .reindex posting state =>
      {p | p ∈ held ∧ p.pointerId ≠ posting.pointerId ∨
        p = posting ∧ Accepts C network posting state}
  | .markTruncated _ => held

/-- What is live after some calls on an empty index. -/
def live (C : Crypto) (network : NetworkId) (ttlMillis : Int64)
    (calls : List IndexCall) : Set Posting :=
  calls.foldl (liveAfter C network ttlMillis) ∅

/-- The postings some calls offer. -/
def offered (calls : List IndexCall) : List Posting :=
  calls.filterMap fun
    | .insert posting _ => some posting
    | .reindex posting _ => some posting
    | _ => none

/-- No two of these postings share an id. -/
def IdsDistinct (C : Crypto) (postings : List Posting) : Prop :=
  ∀ p ∈ postings, ∀ q ∈ postings, p.id C = q.id C → p = q

/-- Whether an index holds a posting. -/
def Holds (index : LocalIndex) (p : Posting) : Prop :=
  ∃ id : Hash, index.postings[id]? = some p

/-- The invariant: the maps are in step, postings are kept by their own ids,
and what is held is what is live. -/
structure Sound (C : Crypto) (network : NetworkId) (ttlMillis : Int64)
    (held : Set Posting) (index : LocalIndex) : Prop where
  inStep : Inverted.InStep (fun p : Posting => p.terms.keys) index.postings
    index.byTerm
  ids : ∀ (id : Hash) (p : Posting), index.postings[id]? = some p → p.id C = id
  held : ∀ p, index.Holds p ↔ p ∈ held
  scope : index.network = network ∧ index.ttlMillis = ttlMillis

variable {network : NetworkId} {ttlMillis : Int64} {held : Set Posting}

theorem getElem?_eraseAll (ids : List Hash) (postings : BTreeMap Hash Posting)
    (id : Hash) : (ids.foldl (fun postings id => postings.erase id)
      postings)[id]? = if id ∈ ids then none else postings[id]? := by
  induction ids generalizing postings with
  | nil => rfl
  | cons first ids ih =>
      rw [List.foldl_cons, ih, BTreeMap.getElem?_erase_ite]
      by_cases hmem : id ∈ ids
      · rw [if_pos hmem, if_pos (List.mem_cons_of_mem first hmem)]
      · rw [if_neg hmem]
        by_cases hfirst : first = id
        · rw [if_pos hfirst, if_pos (hfirst ▸ List.mem_cons_self)]
        · rw [if_neg hfirst, if_neg fun h => (List.mem_cons.1 h).elim
            (fun heq => hfirst heq.symm) hmem]

theorem mem_idsWhere {q : Posting → Bool} {id : Hash} :
    id ∈ index.idsWhere q ↔
      ∃ p, index.postings[id]? = some p ∧ q p = true := by
  simp only [idsWhere, List.mem_map, List.mem_filter]
  constructor
  · rintro ⟨⟨id, p⟩, ⟨hmem, hq⟩, rfl⟩
    exact ⟨p, (BTreeMap.mem_toList_iff _ _).1 hmem, hq⟩
  · rintro ⟨p, hp, hq⟩
    exact ⟨(id, p), ⟨(BTreeMap.mem_toList_iff _ _).2 hp, hq⟩, rfl⟩

namespace Sound

theorem empty (C : Crypto) (network : NetworkId) (ttlMillis : Int64) :
    Sound C network ttlMillis ∅ ((new network).withTtl ttlMillis) where
  inStep := Inverted.InStep.empty
  ids id p h := by simp [new, withTtl] at h
  held p := by simp [Holds, new, withTtl]
  scope := ⟨rfl, rfl⟩

/-- Dropping the postings that meet a condition. -/
theorem removeWhere (h : Sound C network ttlMillis held index)
    (q : Posting → Bool) :
    Sound C network ttlMillis {p | p ∈ held ∧ q p = false}
      (index.removeAll (index.idsWhere q)) := by
  have hlookup : ∀ id : Hash,
      (index.removeAll (index.idsWhere q)).postings[id]? =
        if id ∈ index.idsWhere q then none else index.postings[id]? :=
    getElem?_eraseAll _ _
  have hfound : ∀ (id : Hash) (p : Posting),
      (index.removeAll (index.idsWhere q)).postings[id]? = some p ↔
        index.postings[id]? = some p ∧ q p = false := by
    intro id p
    rw [hlookup]
    constructor
    · intro hp
      split at hp
      · cases hp
      · next hnot =>
        refine ⟨hp, Bool.eq_false_iff.2 fun hq => hnot ?_⟩
        exact mem_idsWhere.2 ⟨p, hp, hq⟩
    · rintro ⟨hp, hq⟩
      rw [if_neg, hp]
      intro hmem
      obtain ⟨p', hp', hq'⟩ := mem_idsWhere.1 hmem
      rw [hp] at hp'
      cases hp'
      rw [hq] at hq'
      cases hq'
  refine ⟨?_, ?_, ?_, h.scope⟩
  · refine h.inStep.drop _ fun id => ?_
    rw [hlookup]
    refine if_congr ?_ rfl rfl
    rw [Std.ExtTreeSet.mem_ofList, List.contains_iff_mem]
  · intro id p hp
    exact h.ids id p ((hfound id p).1 hp).1
  · intro p
    rw [Set.mem_ofPred_eq, ← h.held]
    simp only [Holds, hfound]
    constructor
    · rintro ⟨id, hp, hq⟩
      exact ⟨⟨id, hp⟩, hq⟩
    · rintro ⟨⟨id, hp⟩, hq⟩
      exact ⟨id, hp, hq⟩

theorem insert_ok {index' : LocalIndex} :
    index.insert C posting state = .ok index' ↔
      Accepts C index.network posting state ∧ index' = { index with
        byTerm := Inverted.file index.byTerm (posting.id C) posting.terms.keys
        postings := index.postings.insert (posting.id C) posting } := by
  unfold LocalIndex.insert Accepts
  split
  · next hnet => simp [hnet]
  · next hnet =>
    rw [not_not] at hnet
    cases hvalid : posting.validate C state with
    | error err => simp
    | ok _ => simp [hnet, eq_comm]

/-- Inserting a posting whose id no other held posting has. -/
theorem insert (h : Sound C network ttlMillis held index) (posting : Posting)
    (state : GovernanceState)
    (hfree : ∀ p ∈ held, p.id C = posting.id C → p = posting) :
    Sound C network ttlMillis
      {p | p ∈ held ∨ p = posting ∧ Accepts C network posting state}
      (match index.insert C posting state with
        | .error _ => index
        | .ok index => index) := by
  have hsame : ∀ p, index.postings[posting.id C]? = some p → p = posting := by
    intro p hp
    exact hfree p ((h.held p).1 ⟨_, hp⟩) (h.ids _ p hp)
  cases hinsert : index.insert C posting state with
  | error err =>
      have hnot : ¬Accepts C network posting state := by
        intro haccepts
        rw [← h.scope.1] at haccepts
        rw [insert_ok.2 ⟨haccepts, rfl⟩] at hinsert
        cases hinsert
      simpa [hnot] using h
  | ok index' =>
      obtain ⟨haccepts, rfl⟩ := insert_ok.1 hinsert
      rw [h.scope.1] at haccepts
      refine ⟨h.inStep.file hsame, ?_, ?_, h.scope⟩
      · intro id p hp
        dsimp only at hp
        rw [BTreeMap.getElem?_insert_ite] at hp
        split at hp
        · next hid =>
          cases hp
          exact hid
        · exact h.ids id p hp
      · intro p
        rw [Set.mem_ofPred_eq, ← h.held]
        constructor
        · rintro ⟨id, hp⟩
          dsimp only at hp
          rw [BTreeMap.getElem?_insert_ite] at hp
          split at hp
          · cases hp
            exact Or.inr ⟨rfl, haccepts⟩
          · exact Or.inl ⟨id, hp⟩
        · rintro (⟨id, hp⟩ | ⟨rfl, -⟩)
          · refine ⟨id, ?_⟩
            dsimp only
            rw [BTreeMap.getElem?_insert_ite]
            split
            · next hid => rw [hsame p (hid ▸ hp)]
            · exact hp
          · exact ⟨p.id C, by simp⟩

theorem reindex_eq : (index.reindex C posting state).2 =
    match (index.removeAll (index.idsWhere fun held =>
      held.pointerId = posting.pointerId)).insert C posting state with
    | .error _ => index.removeAll (index.idsWhere fun held =>
        held.pointerId = posting.pointerId)
    | .ok index => index := by
  rw [LocalIndex.reindex]
  generalize LocalIndex.insert C _ posting state = outcome
  cases outcome <;> rfl

/-- Every call keeps the invariant. -/
theorem call (h : Sound C network ttlMillis held index) {calls : List Posting}
    (hdistinct : IdsDistinct C calls) (hheld : ∀ p ∈ held, p ∈ calls)
    {one : IndexCall} (hone : ∀ p ∈ offered [one], p ∈ calls) :
    Sound C network ttlMillis (liveAfter C network ttlMillis held one)
      (index.call C one) := by
  cases one with
  | insert posting state =>
      refine h.insert _ _ fun p hp hid => ?_
      exact hdistinct p (hheld p hp) posting (hone posting (by simp [offered]))
        hid
  | expire now =>
      have hdropped := h.removeWhere fun posting =>
        posting.isStale now index.ttlMillis
      rw [h.scope.2] at hdropped
      rw [LocalIndex.call, LocalIndex.expire, h.scope.2]
      exact hdropped
  | revalidate state =>
      have hdropped := h.removeWhere fun posting =>
        !(posting.validate C state).toOption.isSome
      refine Eq.mp (congrArg (fun kept => Sound C network ttlMillis kept _) ?_)
        hdropped
      ext p
      simp only [Set.mem_ofPred_eq, liveAfter, Bool.not_eq_false']
      refine and_congr_right fun _ => ?_
      cases p.validate C state <;> simp [Except.toOption]
  | reindex posting state =>
      have hdropped := h.removeWhere fun held =>
        decide (held.pointerId = posting.pointerId)
      have hinserted := hdropped.insert posting state
        fun p hp hid => hdistinct p (hheld p hp.1) posting
          (hone posting (by simp [offered])) hid
      rw [LocalIndex.call, reindex_eq]
      refine Eq.mp (congrArg (fun kept => Sound C network ttlMillis kept _) ?_)
        hinserted
      ext p
      simp only [Set.mem_ofPred_eq, liveAfter, decide_eq_false_iff_not, ne_eq]
  | markTruncated term => exact ⟨h.inStep, h.ids, h.held, h.scope⟩

theorem mem_live {calls : List IndexCall} :
    p ∈ live C network ttlMillis calls → p ∈ offered calls := by
  induction calls using List.reverseRecOn with
  | nil => exact fun h => h.elim
  | append_singleton calls one ih =>
      rw [live, List.foldl_append, offered, List.filterMap_append,
        List.mem_append]
      change p ∈ liveAfter C network ttlMillis
        (live C network ttlMillis calls) one → _
      cases one with
      | insert posting state =>
          rintro (hold | ⟨rfl, -⟩)
          · exact Or.inl (ih hold)
          · exact Or.inr (by simp)
      | expire now => exact fun h => Or.inl (ih h.1)
      | revalidate state => exact fun h => Or.inl (ih h.1)
      | reindex posting state =>
          rintro (⟨hold, -⟩ | ⟨rfl, -⟩)
          · exact Or.inl (ih hold)
          · exact Or.inr (by simp)
      | markTruncated term => exact fun h => Or.inl (ih h)

/-- The index refines the set of what is live. -/
theorem after {calls : List IndexCall} (h : IdsDistinct C (offered calls)) :
    Sound C network ttlMillis (live C network ttlMillis calls)
      (((new network).withTtl ttlMillis).after C calls) := by
  induction calls using List.reverseRecOn with
  | nil => exact empty C network ttlMillis
  | append_singleton calls one ih =>
      have hoffered : offered (calls ++ [one]) =
          offered calls ++ offered [one] := List.filterMap_append
      have hbefore : IdsDistinct C (offered calls) := by
        intro p hp q hq
        rw [hoffered] at h
        exact h p (List.mem_append_left _ hp) q (List.mem_append_left _ hq)
      rw [live, LocalIndex.after, List.foldl_append, List.foldl_append]
      refine (ih hbefore).call h ?_ ?_
      · intro p hp
        rw [hoffered]
        exact List.mem_append_left _ (mem_live hp)
      · intro p hp
        rw [hoffered]
        exact List.mem_append_right _ hp

end Sound

/-! ## Queries -/

variable {term : Term} {pointer : PointerId}

/-- The postings of a term are the live ones that have it. -/
theorem Sound.mem_postingsFor (h : Sound C network ttlMillis held index) :
    p ∈ index.postingsFor term ↔ p ∈ held ∧ term ∈ p.terms := by
  have hlisted : p ∈ index.postingsFor term ↔
      ∃ id, Inverted.Listed index.byTerm term id ∧
        index.postings[id]? = some p := by
    unfold postingsFor Inverted.Listed
    cases index.byTerm[term]? with
    | none => simp
    | some ids => simp [List.mem_filterMap]
  rw [hlisted, ← h.held]
  constructor
  · rintro ⟨id, hid, hp⟩
    obtain ⟨p', hp', hmem⟩ := (h.inStep.listed term id).1 hid
    rw [hp] at hp'
    cases hp'
    exact ⟨⟨id, hp⟩, Std.ExtTreeMap.mem_keys.1 hmem⟩
  · rintro ⟨⟨id, hp⟩, hmem⟩
    refine ⟨id, (h.inStep.listed term id).2 ⟨p, hp, ?_⟩, hp⟩
    exact Std.ExtTreeMap.mem_keys.2 hmem

/-- The pointers a query answers with. -/
def answers (U : UnicodeTables) (index : LocalIndex) (query : String) :
    List PointerId :=
  (search U index query).results.map SearchResult.pointerId

/-- ASCII letters and digits, in either case. -/
def asciiTables : UnicodeTables where
  isAlphanumeric c := c.isAlphanum
  toLowercase s := String.ofList (s.toList.map Char.toLower)

def samplePosting (nonce pointer : ℕ) (word : String) : Posting :=
  { pointerId := ⟨Bytes.ofNat 32 pointer⟩
    terms := (∅ : BTreeMap Term TermStats).insert ⟨word⟩ ⟨1, .body⟩
    publishedAt := ⟨0⟩
    publisherIdentity := Sample.identity 1
    signature := Sample.signature 1 nonce }

/-- A network with nobody in it. -/
def emptyState : GovernanceState :=
  ⟨Sample.network, .conservativeDefault, ∅, ∅, ∅, ∅, 0, ∅, ∅, ∅, none⟩

end LocalIndex

end Intranet
