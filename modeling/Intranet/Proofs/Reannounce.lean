import Intranet.Proofs.Reindex

/-!
# What announcing again adds

A query goes through its terms, each once, and through the postings of each.
What a posting adds to a pointer is a contribution of the term: the count of
its occurrences and the best field. The score of a result is the sum of the
contributions to its pointer, and its matched terms are their terms
(`mem_results_iff`). The contributions come posting by posting, so a pointer
with two postings of one term has two of it.

Hence a query lists each of its terms once exactly if no two held postings of
one pointer share one, and a further posting leaves the contributions alone
exactly if it has no term of the query (`announce_once_iff`).
-/

namespace Intranet

namespace LocalIndex

/-! ## Contributions -/

/-- The terms a query looks up: each once, where it first comes up. -/
def distinct : List Term → BTreeSet Term → List Term
  | [], _ => []
  | term :: rest, seen =>
      if seen.contains term then distinct rest seen
      else term :: distinct rest (seen.insert term)

/-- What the postings of a term contribute to a pointer. -/
def contributed (index : LocalIndex) (pointer : PointerId) (term : Term) :
    List (Term × TermStats) :=
  ((index.postingsFor term).filter fun p => p.pointerId = pointer).filterMap
    fun p => p.terms[term]?.map fun stats => (term, stats)

/-- What a query finds for a pointer. -/
def contributions (U : UnicodeTables) (index : LocalIndex) (query : String)
    (pointer : PointerId) : List (Term × TermStats) :=
  (distinct (tokenize U query) ∅).flatMap (index.contributed pointer)

/-- The inverse document frequency of a term. -/
def idf (index : LocalIndex) (corpus : Float) (term : Term) : Float :=
  (corpus / Float.ofNat (index.postingsFor term).length).log + 1

/-- What a contribution is worth. -/
def worth (index : LocalIndex) (corpus : Float) (c : Term × TermStats) :
    Float :=
  (1 + (Float.ofNat c.2.frequency.toNat).log) * index.idf corpus c.1 *
    c.2.bestField.weight

/-- A contribution credited to what a pointer has. -/
def credit (index : LocalIndex) (corpus : Float)
    (scored : Option (Float × List Term)) (c : Term × TermStats) :
    Option (Float × List Term) :=
  some ((scored.getD (0, [])).1 + index.worth corpus c,
    (scored.getD (0, [])).2 ++ [c.1])

variable {C : Crypto} {U : UnicodeTables} {index : LocalIndex}
  {posting p : Posting} {state : GovernanceState} {pointer : PointerId}
  {term : Term} {corpus : Float}

/-- Crediting lists the terms of the contributions. -/
theorem foldl_credit (index : LocalIndex) (corpus : Float)
    (cs : List (Term × TermStats)) (scored : Float × List Term) :
    ∃ score, cs.foldl (index.credit corpus) (some scored) =
      some (score, scored.2 ++ cs.map Prod.fst) := by
  induction cs generalizing scored with
  | nil => exact ⟨scored.1, by simp⟩
  | cons c cs ih =>
      obtain ⟨score, hscore⟩ := ih (scored.1 + index.worth corpus c,
        scored.2 ++ [c.1])
      refine ⟨score, ?_⟩
      rw [List.foldl_cons, List.map_cons]
      rw [List.append_assoc] at hscore
      exact hscore

theorem foldl_credit_none (index : LocalIndex) (corpus : Float)
    {cs : List (Term × TermStats)} (hne : cs ≠ []) :
    ∃ score, cs.foldl (index.credit corpus) none =
      some (score, cs.map Prod.fst) := by
  match cs with
  | [] => exact absurd rfl hne
  | c :: cs =>
      exact foldl_credit index corpus cs (0 + index.worth corpus c, [c.1])

theorem getElem?_scorePosting
    (scored : BTreeMap PointerId (Float × List Term)) (p : Posting) :
    (scorePosting term (index.idf corpus term) scored p)[pointer]? =
      if p.pointerId = pointer then
        match p.terms[term]? with
        | none => scored[pointer]?
        | some stats => index.credit corpus scored[pointer]? (term, stats)
      else scored[pointer]? := by
  unfold scorePosting
  cases p.terms[term]? with
  | none => exact (ite_self _).symm
  | some stats =>
      dsimp only
      rw [BTreeMap.getElem?_insert_ite]
      split
      · next hpointer =>
        rw [hpointer]
        rfl
      · rfl

/-- The loop over the postings of a term credits what they contribute. -/
theorem getElem?_foldl_score (index : LocalIndex) (corpus : Float)
    (postings : List Posting)
    (scored : BTreeMap PointerId (Float × List Term)) :
    (postings.foldl (scorePosting term (index.idf corpus term))
        scored)[pointer]? =
      ((postings.filter fun p => p.pointerId = pointer).filterMap fun p =>
        p.terms[term]?.map fun stats => (term, stats)).foldl
          (index.credit corpus) scored[pointer]? := by
  induction postings generalizing scored with
  | nil => rfl
  | cons p postings ih =>
      rw [List.foldl_cons, ih, getElem?_scorePosting]
      by_cases hpointer : p.pointerId = pointer
      · rw [if_pos hpointer, List.filter_cons,
          if_pos (decide_eq_true hpointer), List.filterMap_cons]
        cases p.terms[term]? <;> rfl
      · rw [if_neg hpointer, List.filter_cons,
          if_neg (by rwa [decide_eq_true_eq])]

/-- The loop over the terms of a query credits the contributions. -/
theorem getElem?_searchTerms (pointer : PointerId) (terms : List Term)
    (seen : BTreeSet Term) (scored : BTreeMap PointerId (Float × List Term))
    (incomplete : Bool) :
    (searchTerms index corpus terms seen scored incomplete).1[pointer]? =
      ((distinct terms seen).flatMap (index.contributed pointer)).foldl
        (index.credit corpus) scored[pointer]? := by
  induction terms generalizing seen scored incomplete with
  | nil => rfl
  | cons first terms ih =>
      rw [searchTerms, distinct]
      split
      · exact ih _ _ _
      · dsimp only
        rw [List.flatMap_cons, List.foldl_append]
        split
        · next hempty =>
          rw [ih, contributed, List.isEmpty_iff.1 hempty]
          rfl
        · rw [ih, contributed, ← getElem?_foldl_score]
          rfl

/-- The size of the corpus, as the scores see it. -/
def corpusSize (index : LocalIndex) : Float :=
  Float.ofNat (max index.postings.size 1)

/-- A result is a pointer with contributions, which make up its score and list
its terms. -/
theorem mem_results_iff {query : String} {r : SearchResult} :
    r ∈ (search U index query).results ↔
      (contributions U index query r.pointerId).foldl
        (index.credit index.corpusSize) none =
          some (r.score, r.matchedTerms) := by
  have hscored : (searchTerms index index.corpusSize (tokenize U query) ∅ ∅
      false).1[r.pointerId]? = _ := getElem?_searchTerms _ _ _ _ _
  rw [contributions]
  unfold search
  by_cases hempty : (tokenize U query).isEmpty = true
  · rw [if_pos hempty, List.isEmpty_iff.1 hempty]
    simp [distinct]
  · rw [if_neg hempty]
    dsimp only
    rw [(List.mergeSort_perm _ _).mem_iff, List.mem_map]
    rw [Std.ExtTreeMap.getElem?_empty] at hscored
    rw [← hscored]
    constructor
    · rintro ⟨⟨pointer, score, matched⟩, hmem, rfl⟩
      exact (BTreeMap.mem_toList_iff _ _).1 hmem
    · intro hfound
      exact ⟨(r.pointerId, r.score, r.matchedTerms),
        (BTreeMap.mem_toList_iff _ _).2 hfound, rfl⟩

/-! ## Each term once -/

theorem mem_distinct {terms : List Term} {seen : BTreeSet Term} :
    term ∈ distinct terms seen ↔ term ∈ terms ∧ term ∉ seen := by
  induction terms generalizing seen with
  | nil => simp [distinct]
  | cons first terms ih =>
      rw [distinct]
      by_cases hseen : first ∈ seen
      · rw [if_pos (Std.ExtTreeSet.contains_iff_mem.2 hseen), ih,
          List.mem_cons]
        constructor
        · exact fun h => ⟨Or.inr h.1, h.2⟩
        · rintro ⟨rfl | hmem, hnew⟩
          · exact absurd hseen hnew
          · exact ⟨hmem, hnew⟩
      · rw [if_neg (by rwa [Std.ExtTreeSet.contains_iff_mem]), List.mem_cons,
          List.mem_cons, ih, BTreeSet.mem_insert_iff]
        constructor
        · rintro (rfl | ⟨hmem, hnew⟩)
          · exact ⟨Or.inl rfl, hseen⟩
          · exact ⟨Or.inr hmem, fun hold => hnew (Or.inr hold)⟩
        · rintro ⟨rfl | hmem, hnew⟩
          · exact Or.inl rfl
          · by_cases hfirst : first = term
            · exact Or.inl hfirst.symm
            · exact Or.inr ⟨hmem, fun hold => hold.elim hfirst hnew⟩

theorem nodup_distinct (terms : List Term) (seen : BTreeSet Term) :
    (distinct terms seen).Nodup := by
  induction terms generalizing seen with
  | nil => exact List.nodup_nil
  | cons first terms ih =>
      rw [distinct]
      split
      · exact ih _
      · refine List.nodup_cons.2 ⟨fun hmem => ?_, ih _⟩
        exact (mem_distinct.1 hmem).2 ((BTreeSet.mem_insert_iff _ _ _).2
          (Or.inl rfl))

variable {network : NetworkId} {ttlMillis : Int64} {held : Set Posting}

theorem Sound.nodup_postingsFor (h : Sound C network ttlMillis held index) :
    (index.postingsFor term).Nodup := by
  unfold postingsFor
  cases index.byTerm[term]? with
  | none => exact List.nodup_nil
  | some ids =>
      refine List.Nodup.filterMap (fun id id' p hp hp' => ?_)
        ((BTreeSet.toList_pairwise ids).imp ne_of_lt)
      rw [← h.ids id p hp, ← h.ids id' p hp']

/-- Every posting of a term contributes the term. -/
theorem Sound.map_contributed (h : Sound C network ttlMillis held index) :
    (index.contributed pointer term).map Prod.fst =
      ((index.postingsFor term).filter fun p => p.pointerId = pointer).map
        fun _ => term := by
  have hhas : ∀ p ∈ (index.postingsFor term).filter
      (fun p => p.pointerId = pointer), term ∈ p.terms :=
    fun p hp => (h.mem_postingsFor.1 (List.mem_filter.1 hp).1).2
  rw [contributed]
  revert hhas
  generalize (index.postingsFor term).filter _ = postings
  intro hhas
  induction postings with
  | nil => rfl
  | cons p postings ih =>
      obtain ⟨stats, hstats⟩ := (BTreeMap.mem_iff_exists _ _).1
        (hhas p List.mem_cons_self)
      rw [List.filterMap_cons, hstats, List.map_cons]
      exact congrArg _ (ih fun q hq => hhas q (List.mem_cons_of_mem p hq))

theorem nodup_map_const {α β : Type} {l : List α} (hl : l.Nodup) (b : β) :
    (l.map fun _ => b).Nodup ↔ ∀ x ∈ l, ∀ y ∈ l, x = y := by
  match l with
  | [] => simp
  | [x] => simp
  | x :: y :: rest =>
      refine iff_of_false (by simp) fun h => ?_
      refine (List.nodup_cons.1 hl).1 ?_
      rw [h x List.mem_cons_self y (List.mem_cons_of_mem x List.mem_cons_self)]
      exact List.mem_cons_self

/-- A pointer has one contribution of each term exactly if it has one posting
of each. -/
theorem Sound.nodup_contributions_iff
    (h : Sound C network ttlMillis held index) (query : String) :
    ((contributions U index query pointer).map Prod.fst).Nodup ↔
      ∀ t ∈ tokenize U query, ∀ p ∈ held, ∀ q ∈ held, p.pointerId = pointer →
        q.pointerId = pointer → t ∈ p.terms → t ∈ q.terms → p = q := by
  have hone : ∀ t, ((index.contributed pointer t).map Prod.fst).Nodup ↔
      ∀ p ∈ held, ∀ q ∈ held, p.pointerId = pointer → q.pointerId = pointer →
        t ∈ p.terms → t ∈ q.terms → p = q := by
    intro t
    rw [h.map_contributed, nodup_map_const (h.nodup_postingsFor.filter _)]
    simp only [List.mem_filter, h.mem_postingsFor, decide_eq_true_eq]
    constructor
    · exact fun hall p hp q hq hpointer hpointer' ht ht' =>
        hall p ⟨⟨hp, ht⟩, hpointer⟩ q ⟨⟨hq, ht'⟩, hpointer'⟩
    · rintro hall p ⟨⟨hp, ht⟩, hpointer⟩ q ⟨⟨hq, ht'⟩, hpointer'⟩
      exact hall p hp q hq hpointer hpointer' ht ht'
  have hapart : (distinct (tokenize U query) ∅).Pairwise
      (Function.onFun List.Disjoint fun t =>
        (index.contributed pointer t).map Prod.fst) := by
    refine (nodup_distinct _ _).imp fun {t t'} hne u hu hu' => hne ?_
    dsimp only at hu hu'
    rw [h.map_contributed] at hu hu'
    obtain ⟨-, -, rfl⟩ := List.mem_map.1 hu
    obtain ⟨-, -, rfl⟩ := List.mem_map.1 hu'
    rfl
  rw [contributions, List.map_flatMap, List.nodup_flatMap,
    and_iff_left hapart]
  simp only [hone, mem_distinct, Std.ExtTreeSet.not_mem_empty,
    not_false_eq_true, and_true]

theorem Sound.mem_contributions (h : Sound C network ttlMillis held index)
    {query : String} {stats : TermStats} :
    (term, stats) ∈ contributions U index query pointer ↔
      term ∈ tokenize U query ∧ ∃ p ∈ held, p.pointerId = pointer ∧
        p.terms[term]? = some stats := by
  simp only [contributions, List.mem_flatMap, mem_distinct, contributed,
    List.mem_filterMap, List.mem_filter, h.mem_postingsFor, decide_eq_true_eq,
    Option.map_eq_some_iff, Prod.mk.injEq]
  constructor
  · rintro ⟨t, ⟨ht, -⟩, p, ⟨⟨hp, -⟩, hpointer⟩, found, hfound, rfl, rfl⟩
    exact ⟨ht, p, hp, hpointer, hfound⟩
  · rintro ⟨ht, p, hp, hpointer, hstats⟩
    refine ⟨term, ⟨ht, by simp⟩, p, ⟨⟨hp, ?_⟩, hpointer⟩, stats, hstats, rfl,
      rfl⟩
    exact (BTreeMap.mem_iff_exists _ _).2 ⟨stats, hstats⟩

/-- A posting without a term of the query does not change what it finds. -/
theorem Sound.contributions_insert
    (h : Sound C network ttlMillis held index) {index' : LocalIndex}
    (hfree : ∀ p ∈ held, p.id C = posting.id C → p = posting)
    (hinsert : index.insert C posting state = .ok index') {query : String}
    (hnone : ∀ t ∈ tokenize U query, t ∉ posting.terms) :
    contributions U index' query pointer =
      contributions U index query pointer := by
  obtain ⟨-, rfl⟩ := insert_ok.1 hinsert
  have hpostings : ∀ t ∈ tokenize U query,
      postingsFor { index with
        byTerm := Inverted.file index.byTerm (posting.id C) posting.terms.keys
        postings := index.postings.insert (posting.id C) posting } t =
      index.postingsFor t := by
    intro t ht
    have hkept : (Inverted.file index.byTerm (posting.id C)
        posting.terms.keys)[t]? = index.byTerm[t]? :=
      Inverted.getElem?_file_of_not_mem
        (mt Std.ExtTreeMap.mem_keys.1 (hnone t ht))
    unfold postingsFor
    dsimp only
    rw [hkept]
    cases hids : index.byTerm[t]? with
    | none => rfl
    | some ids =>
        refine List.filterMap_congr fun id hid => ?_
        rw [BTreeMap.getElem?_insert_ite]
        refine if_neg fun heq => hnone t ht ?_
        obtain ⟨p, hp, hmem⟩ := (h.inStep.listed t id).1
          ⟨ids, hids, Std.ExtTreeSet.mem_toList.1 hid⟩
        have hsame := hfree p ((h.held p).1 ⟨id, hp⟩)
          ((h.ids id p hp).trans heq.symm)
        rw [← hsame]
        exact Std.ExtTreeMap.mem_keys.1 hmem
  refine List.flatMap_congr fun t ht => ?_
  rw [contributed, contributed, hpostings t (mem_distinct.1 ht).1]

/-! ## Announcing again -/

/-- A posting that says the same of the same pointer, at another time or by
another publisher. -/
structure Twin (p posting : Posting) : Prop where
  pointer : p.pointerId = posting.pointerId
  terms : p.terms = posting.terms
  further : p.publishedAt ≠ posting.publishedAt ∨
    p.publisherIdentity ≠ posting.publisherIdentity

/-- Content is not inflated: a query lists each of its terms once, and a
further posting that says what a held one says leaves the contributions to its
pointer as they were, one for each term, each of a positive count. -/
structure NotInflated (C : Crypto) (U : UnicodeTables) (index : LocalIndex)
    (query : String) (posting : Posting) (state : GovernanceState) : Prop where
  once : ∀ r ∈ (search U index query).results, r.matchedTerms.Nodup
  again : (∃ p, index.Holds p ∧ Twin p posting) →
    ∀ index', index.insert C posting state = .ok index' →
      let found := contributions U index query posting.pointerId
      (found.map Prod.fst).Nodup ∧ (∀ c ∈ found, 0 < c.2.frequency) ∧
        (contributions U index' query posting.pointerId).Perm found

/-- The held postings and the further one keep apart: no two of the held that
share a term of the query are of one pointer, and if the further one says what
a held one says and is accepted, it has no term of the query, and the held
ones of its pointer count none of them as zero. -/
structure KeepApart (C : Crypto) (U : UnicodeTables) (index : LocalIndex)
    (query : String) (posting : Posting) (state : GovernanceState) : Prop where
  held : ∀ t ∈ tokenize U query, ∀ p q, index.Holds p → index.Holds q →
    p.pointerId = q.pointerId → t ∈ p.terms → t ∈ q.terms → p = q
  further : (∃ p, index.Holds p ∧ Twin p posting) →
    Accepts C index.network posting state →
      (∀ t ∈ tokenize U query, t ∉ posting.terms) ∧
      ∀ t ∈ tokenize U query, ∀ p stats, index.Holds p →
        p.pointerId = posting.pointerId → p.terms[t]? = some stats →
          0 < stats.frequency

theorem Sound.once_iff (h : Sound C network ttlMillis held index)
    (query : String) :
    (∀ r ∈ (search U index query).results, r.matchedTerms.Nodup) ↔
      ∀ t ∈ tokenize U query, ∀ p q, index.Holds p → index.Holds q →
        p.pointerId = q.pointerId → t ∈ p.terms → t ∈ q.terms → p = q := by
  have hall : (∀ r ∈ (search U index query).results, r.matchedTerms.Nodup) ↔
      ∀ pointer,
        ((contributions U index query pointer).map Prod.fst).Nodup := by
    constructor
    · intro hresults pointer
      by_cases hnone : contributions U index query pointer = []
      · rw [hnone]
        exact List.nodup_nil
      · obtain ⟨score, hscore⟩ :=
          foldl_credit_none index index.corpusSize hnone
        exact hresults ⟨pointer, score, _⟩ (mem_results_iff.2 hscore)
    · intro hpointers r hr
      have hfound := mem_results_iff.1 hr
      by_cases hnone : contributions U index query r.pointerId = []
      · rw [hnone] at hfound
        cases hfound
      · obtain ⟨score, hscore⟩ :=
          foldl_credit_none index index.corpusSize hnone
        rw [hscore, Option.some.injEq, Prod.mk.injEq] at hfound
        rw [← hfound.2]
        exact hpointers r.pointerId
  rw [hall]
  simp only [h.nodup_contributions_iff, h.held]
  constructor
  · exact fun hapart t ht p q hp hq hpointer =>
      hapart q.pointerId t ht p hp q hq hpointer rfl
  · exact fun hapart pointer t ht p hp q hq hpointer hpointer' =>
      hapart t ht p q hp hq (hpointer.trans hpointer'.symm)

/-- Every contribution to a pointer has a positive count if every held posting
of the pointer counts every term of the query that it has. -/
theorem Sound.positive_iff (h : Sound C network ttlMillis held index)
    {query : String} :
    (∀ c ∈ contributions U index query pointer, 0 < c.2.frequency) ↔
      ∀ t ∈ tokenize U query, ∀ p stats, index.Holds p →
        p.pointerId = pointer → p.terms[t]? = some stats →
          0 < stats.frequency := by
  constructor
  · intro hall t ht p stats hp hpointer hstats
    exact hall (t, stats) (h.mem_contributions.2
      ⟨ht, p, (h.held p).1 hp, hpointer, hstats⟩)
  · rintro hall ⟨t, stats⟩ hc
    obtain ⟨ht, p, hp, hpointer, hstats⟩ := h.mem_contributions.1 hc
    exact hall t ht p stats ((h.held p).2 hp) hpointer hstats

/-- With a further posting of a pointer, a term of the query that it shares
with a held one contributes twice. -/
theorem Sound.not_mem_of_nodup (h : Sound C network ttlMillis held index)
    (hfree : ∀ p ∈ held, p.id C = posting.id C → p = posting)
    (hp : index.Holds p) (htwin : Twin p posting) {index' : LocalIndex}
    (hinsert : index.insert C posting state = .ok index') {query : String}
    (hnodup : ((contributions U index' query posting.pointerId).map
      Prod.fst).Nodup) (ht : term ∈ tokenize U query) :
    term ∉ posting.terms := by
  intro hmem
  have haccepts := (insert_ok.1 hinsert).1
  have hgrown := h.insert posting state hfree
  rw [hinsert] at hgrown
  rw [h.scope.1] at haccepts
  have hsame := (hgrown.nodup_contributions_iff query).1 hnodup term ht
    p (Or.inl ((h.held p).1 hp)) posting (Or.inr ⟨rfl, haccepts⟩)
    htwin.pointer rfl (htwin.terms ▸ hmem) hmem
  rcases htwin.further with hne | hne
  · exact hne (congrArg Posting.publishedAt hsame)
  · exact hne (congrArg Posting.publisherIdentity hsame)

/-- Announcing again does not inflate, of an index, a query and a further
posting, exactly if the postings keep apart. -/
theorem announce_once_iff (C : Crypto) (U : UnicodeTables)
    (network : NetworkId) (ttlMillis : Int64) (calls : List IndexCall)
    (query : String) (posting : Posting) (state : GovernanceState)
    (hdistinct : IdsDistinct C (posting :: offered calls)) :
    let index := ((new network).withTtl ttlMillis).after C calls
    NotInflated C U index query posting state ↔
      KeepApart C U index query posting state := by
  intro index
  have hoffered : IdsDistinct C (offered calls) := fun p hp q hq =>
    hdistinct p (List.mem_cons_of_mem _ hp) q (List.mem_cons_of_mem _ hq)
  have hsound : Sound C network ttlMillis
      (live C network ttlMillis calls) index := Sound.after hoffered
  have hfree : ∀ p ∈ live C network ttlMillis calls,
      p.id C = posting.id C → p = posting := fun p hp =>
    hdistinct p (List.mem_cons_of_mem _ (Sound.mem_live hp)) posting
      List.mem_cons_self
  have honce := hsound.once_iff (U := U) query
  constructor
  · intro h
    refine ⟨honce.1 h.once, fun htwin haccepts => ?_⟩
    have hinsert := Sound.insert_ok.2 ⟨haccepts, rfl⟩
    obtain ⟨hnodup, hpositive, hperm⟩ := h.again htwin _ hinsert
    obtain ⟨p, hp, htwin⟩ := htwin
    refine ⟨fun t ht => ?_, hsound.positive_iff.1 hpositive⟩
    exact hsound.not_mem_of_nodup hfree hp htwin hinsert
      ((hperm.map Prod.fst).nodup_iff.2 hnodup) ht
  · intro h
    refine ⟨honce.2 h.held, fun htwin index' hinsert => ?_⟩
    obtain ⟨hnone, hpositive⟩ := h.further htwin (Sound.insert_ok.1 hinsert).1
    refine ⟨?_, hsound.positive_iff.2 hpositive, ?_⟩
    · refine (hsound.nodup_contributions_iff query).2 ?_
      exact fun t ht p hp q hq hpointer hpointer' => h.held t ht p q
        ((hsound.held p).2 hp) ((hsound.held q).2 hq)
        (hpointer.trans hpointer'.symm)
    · exact List.Perm.of_eq
        (hsound.contributions_insert hfree hinsert hnone)

/-! ## Announced twice -/

/-- What the first sample posting says, announced a moment later. -/
def laterPosting : Posting :=
  { samplePosting 11 1 "narwhal" with publishedAt := ⟨1⟩ }

def announcedOnce : List IndexCall :=
  [.insert (samplePosting 10 1 "narwhal") foundedState]

def announcedTwice : List IndexCall :=
  [.insert (samplePosting 10 1 "narwhal") foundedState,
    .insert laterPosting foundedState]

theorem idsDistinct_announced :
    IdsDistinct .sample [samplePosting 10 1 "narwhal", laterPosting] := by
  unfold IdsDistinct
  decide +kernel

theorem announce_once_iff_later :
    NotInflated .sample asciiTables
        (((new Sample.network).withTtl 100).after .sample announcedOnce)
        "narwhal" laterPosting foundedState ↔
      KeepApart .sample asciiTables
        (((new Sample.network).withTtl 100).after .sample announcedOnce)
        "narwhal" laterPosting foundedState :=
  announce_once_iff .sample asciiTables Sample.network 100 announcedOnce
    "narwhal" laterPosting foundedState fun p hp q hq =>
      idsDistinct_announced p (by simpa [announcedOnce, offered, or_comm]
        using hp) q (by simpa [announcedOnce, offered, or_comm] using hq)

/-- Announced twice, content lists the one term of the query twice. -/
theorem announced_twice_inflates : ¬ ∀ (calls : List IndexCall)
    (query : String) (posting : Posting) (state : GovernanceState),
    NotInflated .sample asciiTables
      (((new Sample.network).withTtl 100).after .sample calls) query posting
        state := by
  intro hall
  have hsound : Sound .sample Sample.network 100
      (live .sample Sample.network 100 announcedTwice)
      (((new Sample.network).withTtl 100).after .sample announcedTwice) :=
    Sound.after idsDistinct_announced
  have hapart := (hsound.once_iff (U := asciiTables) "narwhal").1
    (hall announcedTwice "narwhal" laterPosting foundedState).once
  have hsame := hapart ⟨"narwhal"⟩ (by decide +kernel)
    (samplePosting 10 1 "narwhal") laterPosting
    ⟨Sample.hash 10, by decide +kernel⟩ ⟨Sample.hash 11, by decide +kernel⟩ rfl
    (by decide +kernel) (by decide +kernel)
  exact absurd (congrArg Posting.publishedAt hsame) (by decide)

end LocalIndex

end Intranet
