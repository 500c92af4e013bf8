import Intranet.Lib.Ranking
import Intranet.Proofs.Ledger
import Intranet.Proofs.Replication

/-!
# Rendezvous placement is stable

Every node scores every candidate for itself: the score depends on the key and
the candidate, and on nobody else. Sorting by score with the node as
tie-break is then a total order on what is sorted, and the laws of a ranking
follow: no order of the ledger shows in it, a candidate that leaves leaves the
others where they stood, and a candidate that offers more is never placed
behind where it was.
-/

namespace Intranet

namespace Placement

variable {C : Crypto} {key : List UInt8} {field : WeightField}

/-! ## The order -/

instance : IsTrans ScoredCandidate rankOrder where
  trans a b c hab hbc := by
    rcases hab with hab | ⟨hab, hnodes⟩
    · rcases hbc with hbc | ⟨hbc, -⟩
      · exact .inl (hbc.trans hab)
      · exact .inl (hbc ▸ hab)
    · rcases hbc with hbc | ⟨hbc, hnodes'⟩
      · exact .inl (hab ▸ hbc)
      · exact .inr ⟨hab.trans hbc, hnodes.trans hnodes'⟩

instance : Std.Total rankOrder where
  total a b := by
    rcases lt_trichotomy a.score b.score with hlt | heq | hgt
    · exact .inr (.inl hlt)
    · rcases le_total a.node b.node with hle | hle
      · exact .inl (.inr ⟨heq, hle⟩)
      · exact .inr (.inr ⟨heq.symm, hle⟩)
    · exact .inl (.inl hgt)

instance : Std.Antisymm rankOrder where
  antisymm a b hab hba := by
    rcases hab with hab | ⟨hab, hnodes⟩
    · rcases hba with hba | ⟨hba, -⟩
      · exact absurd hab (not_lt.2 hba.le)
      · exact absurd hab (by omega)
    · rcases hba with hba | ⟨-, hnodes'⟩
      · exact absurd hba (by omega)
      · cases a
        cases b
        simp only [ScoredCandidate.mk.injEq]
        exact ⟨le_antisymm hnodes hnodes', hab⟩

/-! ## What is ranked -/

/-- The entry of one advertisement in the ranking, if it has one. -/
def scored (C : Crypto) (key : List UInt8) (field : WeightField)
    (a : CapabilityAdvertisement) : Option ScoredCandidate :=
  if 0 < field.weightOf a then
    some ⟨a.node, score C key a.node (field.weightOf a)⟩
  else none

theorem rank_eq (candidates : List CapabilityAdvertisement) :
    rank C key candidates field =
      (candidates.filterMap (scored C key field)).insertionSort rankOrder :=
  rfl

theorem scored_eq_some_iff {a : CapabilityAdvertisement} {c : ScoredCandidate} :
    scored C key field a = some c ↔ 0 < field.weightOf a ∧
      c = ⟨a.node, score C key a.node (field.weightOf a)⟩ := by
  rw [scored]
  split
  · next hpos =>
      rw [Option.some.injEq]
      exact ⟨fun h => ⟨hpos, h.symm⟩, fun h => h.2.symm⟩
  · next hzero => simp [hzero]

theorem scored_node {a : CapabilityAdvertisement} {c : ScoredCandidate}
    (h : scored C key field a = some c) : c.node = a.node := by
  rw [(scored_eq_some_iff.1 h).2]

theorem mem_rank_iff {candidates : List CapabilityAdvertisement}
    {c : ScoredCandidate} :
    c ∈ rank C key candidates field ↔ ∃ a ∈ candidates,
      0 < field.weightOf a ∧
        c = ⟨a.node, score C key a.node (field.weightOf a)⟩ := by
  rw [rank_eq, List.mem_insertionSort, List.mem_filterMap]
  simp only [scored_eq_some_iff]

/-- Eight bytes spell less than 2^64, so a score fits 128 bits. -/
theorem ofBigEndian_lt (bytes : List UInt8) :
    ofBigEndian bytes < 256 ^ bytes.length := by
  induction bytes using List.reverseRecOn with
  | nil => exact Nat.one_pos
  | append_singleton bytes b ih =>
      have hspells : ofBigEndian (bytes ++ [b]) =
          256 * ofBigEndian bytes + b.toNat := by
        rw [ofBigEndian, List.foldl_append]
        rfl
      have hb := b.toNat_lt
      rw [hspells, List.length_append, List.length_singleton, Nat.pow_succ]
      omega

theorem score_lt (node : PerNetworkIdentityId) (weight : UInt64) :
    score C key node weight < 2 ^ 128 := by
  have hdraw := ofBigEndian_lt ((C.hashBytes (Enc.domain "intranet.hrw.v1" ++
    Enc.bytes key ++ node.encode)).bytes.toList.take 8)
  have hweight := weight.toNat_lt
  rw [List.length_take, Bytes.length_eq] at hdraw
  calc score C key node weight < 2 ^ 64 * 2 ^ 64 :=
        Nat.mul_lt_mul'' hdraw hweight
    _ = 2 ^ 128 := by norm_num

theorem score_mono {node : PerNetworkIdentityId} {w w' : UInt64} (h : w ≤ w') :
    score C key node w ≤ score C key node w' :=
  Nat.mul_le_mul_left _ (UInt64.le_iff_toNat_le.1 h)

/-! ## The laws -/

theorem rank_perm {ads ads' : List CapabilityAdvertisement}
    (h : ads.Perm ads') :
    rank C key ads field = rank C key ads' field :=
  Ranking.sort_perm (h.filterMap _)

/-- Strictly before: by the higher score, and by the lower node of equal
scores. -/
def Ahead (a b : ScoredCandidate) : Prop :=
  b.score < a.score ∨ (a.score = b.score ∧ a.node < b.node)

theorem pairwise_ahead {ads : List CapabilityAdvertisement}
    (hdistinct : (ads.map CapabilityAdvertisement.node).Nodup) :
    (rank C key ads field).Pairwise Ahead := by
  have hnodes := List.pairwise_map.1 (nodup_rank C key field hdistinct)
  refine ((List.pairwise_insertionSort rankOrder _).and hnodes).imp ?_
  rintro a b ⟨hlt | ⟨heq, hle⟩, hne⟩
  · exact .inl hlt
  · exact .inr ⟨heq, lt_of_le_of_ne hle hne⟩

section One

variable {front back : List CapabilityAdvertisement}
  {a a' : CapabilityAdvertisement}

theorem node_ne
    (hdistinct : ((front ++ a :: back).map CapabilityAdvertisement.node).Nodup) :
    ∀ b ∈ front ++ back, b.node ≠ a.node := by
  have hmiddle := (List.perm_middle.map
    CapabilityAdvertisement.node).nodup_iff.1 hdistinct
  intro b hb heq
  refine (List.nodup_cons.1 hmiddle).1 ?_
  rw [← heq]
  exact List.mem_map_of_mem hb

/-- What is left after a removal: the entries of the other nodes. -/
theorem filterMap_scored_removed
    (hdistinct : ((front ++ a :: back).map CapabilityAdvertisement.node).Nodup) :
    (front ++ back).filterMap (scored C key field) =
      ((front ++ a :: back).filterMap (scored C key field)).filter fun c =>
        decide (c.node ≠ a.node) := by
  have hkept : ∀ part ⊆ front ++ back,
      (part.filterMap (scored C key field)).filter (fun c =>
        decide (c.node ≠ a.node)) = part.filterMap (scored C key field) := by
    intro part hpart
    refine List.filter_eq_self.2 fun c hc => decide_eq_true ?_
    obtain ⟨b, hb, hcb⟩ := List.mem_filterMap.1 hc
    rw [scored_node hcb]
    exact node_ne hdistinct b (hpart hb)
  have hgone : ([a].filterMap (scored C key field)).filter (fun c =>
      decide (c.node ≠ a.node)) = [] := by
    refine List.filter_eq_nil_iff.2 fun c hc => ?_
    obtain ⟨b, hb, hcb⟩ := List.mem_filterMap.1 hc
    rw [List.mem_singleton.1 hb] at hcb
    simp [scored_node hcb]
  rw [← List.singleton_append, List.filterMap_append, List.filterMap_append,
    List.filterMap_append, List.filter_append, List.filter_append, hgone,
    hkept front (List.subset_append_left _ _),
    hkept back (List.subset_append_right _ _), List.nil_append]

/-- Whoever is left keeps its place relative to the others. -/
theorem rank_removed
    (hdistinct : ((front ++ a :: back).map CapabilityAdvertisement.node).Nodup) :
    rank C key (front ++ back) field =
      (rank C key (front ++ a :: back) field).filter fun c =>
        decide (c.node ≠ a.node) := by
  rw [rank_eq, filterMap_scored_removed hdistinct, Ranking.sort_filter, rank_eq]

/-- Of a selection the removed node goes, and at most one comes in. -/
theorem select_removed
    (hdistinct : ((front ++ a :: back).map CapabilityAdvertisement.node).Nodup)
    (n : ℕ) :
    ∃ entering : List PerNetworkIdentityId, entering.length ≤ 1 ∧
      select C key (front ++ back) field n =
        (select C key (front ++ a :: back) field n).filter
          (fun node => node ≠ a.node) ++ entering := by
  obtain ⟨entering, hlen, heq⟩ := Ranking.take_filter_ne
    (nodup_rank C key field hdistinct) a.node n
  refine ⟨entering, hlen, ?_⟩
  rw [select, select, rank_removed hdistinct, List.map_take, List.map_take, ← heq,
    List.filter_map]
  rfl

/-- The place of a node in a ranking, the length where it has none. -/
def placeOf (ranked : List ScoredCandidate) (node : PerNetworkIdentityId) : ℕ :=
  ranked.findIdx fun c => decide (c.node = node)

/-- The place of a node that is ranked: the number of the others' entries
ahead of its own. -/
theorem placeOf_rank
    (hdistinct : ((front ++ a :: back).map CapabilityAdvertisement.node).Nodup)
    (hpos : 0 < field.weightOf a) :
    placeOf (rank C key (front ++ a :: back) field) a.node =
      ((front ++ back).filterMap (scored C key field)).countP fun c =>
        !decide (rankOrder
          ⟨a.node, score C key a.node (field.weightOf a)⟩ c) := by
  have hown : scored C key field a =
      some ⟨a.node, score C key a.node (field.weightOf a)⟩ :=
    scored_eq_some_iff.2 ⟨hpos, rfl⟩
  have hmiddle : ((front ++ a :: back).filterMap (scored C key field)).Perm
      (⟨a.node, score C key a.node (field.weightOf a)⟩ ::
        (front ++ back).filterMap (scored C key field)) := by
    have hperm : ((front ++ a :: back).filterMap (scored C key field)).Perm
        ((a :: (front ++ back)).filterMap (scored C key field)) :=
      List.perm_middle.filterMap _
    rwa [List.filterMap_cons_some hown] at hperm
  rw [placeOf, rank_eq, Ranking.findIdx_sort
    (hmiddle.mem_iff.2 List.mem_cons_self) (decide_eq_true rfl) ?_,
    hmiddle.countP_eq, List.countP_cons_of_neg]
  · simp [(Std.Total.total (r := rankOrder) _ _).elim id id]
  · intro c hc hnode
    rcases List.mem_cons.1 (hmiddle.mem_iff.1 hc) with rfl | hother
    · rfl
    · obtain ⟨b, hb, hcb⟩ := List.mem_filterMap.1 hother
      refine absurd ?_ (node_ne hdistinct b hb)
      rw [← scored_node hcb, of_decide_eq_true hnode]

/-- A node without weight has no place. -/
theorem placeOf_unranked
    (hdistinct : ((front ++ a :: back).map CapabilityAdvertisement.node).Nodup)
    (hzero : ¬ 0 < field.weightOf a) :
    placeOf (rank C key (front ++ a :: back) field) a.node =
      ((front ++ back).filterMap (scored C key field)).length := by
  have hsame : (front ++ a :: back).filterMap (scored C key field) =
      (front ++ back).filterMap (scored C key field) := by
    have hnone : scored C key field a = none := if_neg hzero
    rw [List.filterMap_append, List.filterMap_append,
      List.filterMap_cons_none hnone]
  rw [placeOf, rank_eq, hsame, List.findIdx_eq_length_of_false,
    List.length_insertionSort]
  intro c hc
  obtain ⟨b, hb, hcb⟩ := List.mem_filterMap.1 ((List.mem_insertionSort _).1 hc)
  exact decide_eq_false (scored_node hcb ▸ node_ne hdistinct b hb)

/-- A node that offers more is placed no later. -/
theorem placeOf_raised
    (hdistinct : ((front ++ a :: back).map CapabilityAdvertisement.node).Nodup)
    (hnode : a'.node = a.node) (hraised : field.weightOf a ≤ field.weightOf a') :
    placeOf (rank C key (front ++ a' :: back) field) a.node ≤
      placeOf (rank C key (front ++ a :: back) field) a.node := by
  have hdistinct' : ((front ++ a' :: back).map
      CapabilityAdvertisement.node).Nodup := by
    rw [List.map_append, List.map_cons] at hdistinct ⊢
    rwa [hnode]
  rw [← hnode]
  by_cases hpos : 0 < field.weightOf a
  · rw [placeOf_rank hdistinct' (UInt64.lt_of_lt_of_le hpos hraised), hnode,
      placeOf_rank hdistinct hpos]
    refine List.countP_mono_left fun c _ hc => ?_
    -- the raised entry is ahead of the old one, so of whoever that is ahead of
    have hahead : rankOrder ⟨a.node, score C key a.node (field.weightOf a')⟩
        ⟨a.node, score C key a.node (field.weightOf a)⟩ := by
      have hscore : score C key a.node (field.weightOf a) ≤
          score C key a.node (field.weightOf a') := score_mono hraised
      rcases hscore.lt_or_eq with hlt | heq
      · exact .inl hlt
      · exact .inr ⟨heq.symm, le_rfl⟩
    rw [Bool.not_eq_true', decide_eq_false_iff_not] at hc ⊢
    exact fun hold => hc (trans_of rankOrder hahead hold)
  · rw [hnode, placeOf_unranked hdistinct hpos, ← hnode]
    by_cases hpos' : 0 < field.weightOf a'
    · rw [placeOf_rank hdistinct' hpos']
      exact List.countP_le_length
    · rw [placeOf_unranked hdistinct' hpos']

end One

/-- For every key, weight field and list of advertisements of distinct nodes:
the ranking does not depend on the order of the list, is strictly ordered by
score and node, and contains exactly the candidates with a positive weight;
no score overflows 128 bits; a candidate that is removed leaves the others in
their order, so that a selection loses at most that node and gains at most
one; a selection is a prefix of every longer one; and a node whose weight
alone is raised is placed no later than before. -/
theorem placement_stable (C : Crypto) (key : List UInt8) (field : WeightField)
    (ads : List CapabilityAdvertisement)
    (hdistinct : (ads.map CapabilityAdvertisement.node).Nodup) :
    (∀ ads', ads.Perm ads' → rank C key ads' field = rank C key ads field) ∧
    (rank C key ads field).Pairwise Ahead ∧
    (∀ c, c ∈ rank C key ads field ↔ ∃ a ∈ ads, 0 < field.weightOf a ∧
      c = ⟨a.node, score C key a.node (field.weightOf a)⟩) ∧
    (∀ node weight, score C key node weight < 2 ^ 128) ∧
    (∀ front a back, ads = front ++ a :: back →
      rank C key (front ++ back) field =
        (rank C key ads field).filter (fun c => decide (c.node ≠ a.node)) ∧
      ∀ n, ∃ entering : List PerNetworkIdentityId, entering.length ≤ 1 ∧
        select C key (front ++ back) field n =
          (select C key ads field n).filter (fun node => node ≠ a.node) ++
            entering) ∧
    (∀ m n, m ≤ n → select C key ads field m <+: select C key ads field n) ∧
    ∀ front a back, ads = front ++ a :: back →
      ∀ a' : CapabilityAdvertisement, a'.node = a.node →
        field.weightOf a ≤ field.weightOf a' →
        placeOf (rank C key (front ++ a' :: back) field) a.node ≤
          placeOf (rank C key ads field) a.node := by
  refine ⟨fun ads' h => (rank_perm h).symm, pairwise_ahead hdistinct,
    fun c => mem_rank_iff, score_lt, ?_, ?_, ?_⟩
  · rintro front a back rfl
    exact ⟨rank_removed hdistinct, select_removed hdistinct⟩
  · intro m n hmn
    exact (List.take_prefix_take_left hmn).map _
  · rintro front a back rfl a' hnode hraised
    exact placeOf_raised hdistinct hnode hraised

/-- Of two candidates the second offers more and still ranks behind, by its
node; without the first it is the whole ranking. -/
theorem placement_stable_two :
    rank .sample [] [CapabilityLedger.sampleAd 2 300 0] .storageOffered =
      (rank .sample [] [CapabilityLedger.sampleAd 1 100 0,
        CapabilityLedger.sampleAd 2 300 0] .storageOffered).filter
          fun c => decide (c.node ≠ Sample.identity 1) := by
  have h := placement_stable .sample [] .storageOffered
    [CapabilityLedger.sampleAd 1 100 0, CapabilityLedger.sampleAd 2 300 0]
    (by decide)
  exact (h.2.2.2.2.1 [] _ _ rfl).1

end Placement

end Intranet
