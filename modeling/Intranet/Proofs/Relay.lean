import Intranet.Lib.Ranking
import Intranet.Proofs.Ledger
import Intranet.Ref.Relay

/-!
# Relay selection and who was asked

The loop over the observations keeps the worst latency of every relay and
counts the reports, and a relay with as many reports as there are participants
passes for one that everybody measured. Reports are not participants: one who
reports twice stands for another who never did.

The table of the loop is a function of the observations that count
(`getElem?_foldl_observe`), and the choice is the least of the relays with
enough reports. It is the least of the relays everybody measured, however the
observations are permuted or repeated, exactly when no relay that only some
have measured would be preferred to all of those
(`relay_judged_by_all_iff`).
-/

namespace Intranet

namespace Relay

variable {participants : BTreeSet PerNetworkIdentityId}
  {ledger : CapabilityLedger} {reliability : ReliabilityObservations}
  {failureThreshold : Float} {observations : List RelayObservation}
  {relay : PerNetworkIdentityId}

/-! ## The table -/

/-- The observations of a relay that count: those of participants. -/
def counted (observations : List RelayObservation)
    (participants : BTreeSet PerNetworkIdentityId)
    (relay : PerNetworkIdentityId) : List RelayObservation :=
  observations.filter fun o =>
    decide (o.relay = relay ∧ o.participant ∈ participants)

/-- The worst latency among the observations that count. -/
def worstOf (observations : List RelayObservation)
    (participants : BTreeSet PerNetworkIdentityId)
    (relay : PerNetworkIdentityId) : UInt32 :=
  (counted observations participants relay).foldl
    (fun worst o => max worst o.latencyMillis) 0

theorem mem_counted_iff {o : RelayObservation} :
    o ∈ counted observations participants relay ↔
      o ∈ observations ∧ o.relay = relay ∧ o.participant ∈ participants := by
  rw [counted, List.mem_filter, decide_eq_true_eq]

theorem counted_snoc_of_pos {o : RelayObservation}
    (h : o.relay = relay ∧ o.participant ∈ participants) :
    counted (observations ++ [o]) participants relay =
      counted observations participants relay ++ [o] := by
  rw [counted, List.filter_append, ← counted,
    List.filter_cons_of_pos (by simpa using h), List.filter_nil]

theorem counted_snoc_of_neg {o : RelayObservation}
    (h : ¬ (o.relay = relay ∧ o.participant ∈ participants)) :
    counted (observations ++ [o]) participants relay =
      counted observations participants relay := by
  rw [counted, List.filter_append, ← counted,
    List.filter_cons_of_neg (by simpa using h), List.filter_nil,
    List.append_nil]

theorem getElem?_foldl_observe (observations : List RelayObservation)
    (relay : PerNetworkIdentityId) :
    (observations.foldl (observe participants) ∅)[relay]? =
      if counted observations participants relay = [] then none
      else some (worstOf observations participants relay,
        (counted observations participants relay).length) := by
  induction observations using List.reverseRecOn with
  | nil => simp [counted]
  | append_singleton observations o ih =>
      rw [List.foldl_append, List.foldl_cons, List.foldl_nil, worstOf, observe]
      by_cases hin : o.participant ∈ participants
      · have hcontains : participants.contains o.participant = true :=
          Std.ExtTreeSet.contains_iff_mem.2 hin
        rw [hcontains, Bool.not_true, if_neg Bool.false_ne_true]
        dsimp only
        rw [BTreeMap.getElem?_insert_ite]
        by_cases hrelay : o.relay = relay
        · have hentry : (observations.foldl (observe participants)
              ∅)[relay]?.getD (0, 0) =
              (worstOf observations participants relay,
                (counted observations participants relay).length) := by
            rw [ih]
            split
            · next hnil => simp [worstOf, hnil]
            · rfl
          rw [if_pos hrelay, counted_snoc_of_pos ⟨hrelay, hin⟩, hrelay, hentry,
            if_neg (by simp), List.foldl_append, List.length_append]
          rfl
        · rw [if_neg hrelay, counted_snoc_of_neg fun h => hrelay h.1, ih]
          rfl
      · have hcontains : participants.contains o.participant = false := by
          rw [Bool.eq_false_iff]
          exact fun h => hin (Std.ExtTreeSet.contains_iff_mem.1 h)
        rw [hcontains, Bool.not_false, if_pos rfl,
          counted_snoc_of_neg fun h => hin h.2, ih]
        rfl

theorem foldl_max_le_iff {latencies : List RelayObservation} {start : UInt32}
    {n : ℕ} :
    (latencies.foldl (fun worst o => max worst o.latencyMillis)
        start).toNat ≤ n ↔
      start.toNat ≤ n ∧ ∀ o ∈ latencies, o.latencyMillis.toNat ≤ n := by
  induction latencies generalizing start with
  | nil => simp
  | cons o latencies ih =>
      rw [List.foldl_cons, ih, UInt32.toNat_max, Nat.max_le]
      simp only [List.mem_cons, forall_eq_or_imp, and_assoc]

theorem worstOf_le_iff {n : ℕ} :
    (worstOf observations participants relay).toNat ≤ n ↔
      ∀ o ∈ counted observations participants relay,
        o.latencyMillis.toNat ≤ n := by
  rw [worstOf, foldl_max_le_iff]
  exact and_iff_right (Nat.zero_le n)

/-- The worst latency was measured. -/
theorem exists_worstOf
    (h : counted observations participants relay ≠ []) :
    ∃ o ∈ counted observations participants relay,
      o.latencyMillis = worstOf observations participants relay := by
  by_contra hnone
  have hbelow : ∀ o ∈ counted observations participants relay,
      o.latencyMillis.toNat <
        (worstOf observations participants relay).toNat := by
    intro o ho
    refine lt_of_le_of_ne (worstOf_le_iff.1 le_rfl o ho) fun heq => ?_
    exact hnone ⟨o, ho, UInt32.toNat_inj.1 heq⟩
  obtain ⟨o, ho⟩ := List.exists_mem_of_ne_nil _ h
  have hpos := hbelow o ho
  have hless : (worstOf observations participants relay).toNat ≤
      (worstOf observations participants relay).toNat - 1 :=
    worstOf_le_iff.2 fun o ho => Nat.le_sub_one_of_lt (hbelow o ho)
  omega

/-! ## The choice -/

/-- The relay offers what a call needs: it volunteers for media, and has
upload capacity to volunteer. -/
def Offered (ledger : CapabilityLedger) (relay : PerNetworkIdentityId) :
    Prop :=
  ∃ advertisement, ledger.get relay = some advertisement ∧
    advertisement.relayMediaWilling = true ∧
    0 < advertisement.bandwidthCap.upBytesPerSec

/-- The upload capacity a relay advertises. -/
def uploadOf (ledger : CapabilityLedger) (relay : PerNetworkIdentityId) :
    UInt64 :=
  ((ledger.get relay).map fun a => a.bandwidthCap.upBytesPerSec).getD 0

/-- The choice of a relay, with its band: what it would be ranked by. -/
def entry (observations : List RelayObservation)
    (participants : BTreeSet PerNetworkIdentityId) (ledger : CapabilityLedger)
    (reliability : ReliabilityObservations) (failureThreshold : Float)
    (relay : PerNetworkIdentityId) : RelayChoice × ℕ :=
  (⟨relay, worstOf observations participants relay, uploadOf ledger relay⟩,
    Serving.reliabilityBand reliability failureThreshold relay)

/-- What the selection goes by: some observation counts, there are as many as
participants, and the relay is on offer. -/
def Reported (observations : List RelayObservation)
    (participants : BTreeSet PerNetworkIdentityId) (ledger : CapabilityLedger)
    (relay : PerNetworkIdentityId) : Prop :=
  counted observations participants relay ≠ [] ∧
    participants.size ≤ (counted observations participants relay).length ∧
    Offered ledger relay

theorem consider_eq_some_iff {worst : UInt32} {reports : ℕ}
    {c : RelayChoice × ℕ} :
    consider participants ledger reliability failureThreshold
        (relay, (worst, reports)) = some c ↔
      participants.size ≤ reports ∧ Offered ledger relay ∧
        c = (⟨relay, worst, uploadOf ledger relay⟩,
          Serving.reliabilityBand reliability failureThreshold relay) := by
  rw [consider, Offered, uploadOf]
  dsimp only
  split
  · next hfew => exact iff_of_false nofun fun h => absurd hfew (not_lt.2 h.1)
  · next hmany =>
      rw [and_iff_right (not_lt.1 hmany)]
      cases hget : ledger.get relay with
      | none => simp
      | some a =>
          cases hwilling : a.relayMediaWilling with
          | false => simp [hwilling]
          | true =>
              by_cases hzero : a.bandwidthCap.upBytesPerSec = 0
              · simp [hwilling, hzero]
              · have hpos : 0 < a.bandwidthCap.upBytesPerSec :=
                  UInt64.pos_iff_ne_zero.2 hzero
                simp only [hwilling, Bool.not_true, Bool.false_eq_true,
                  if_false, if_neg hzero, Option.some.injEq, Option.map_some,
                  Option.getD_some]
                constructor
                · rintro rfl
                  exact ⟨⟨a, rfl, hwilling, hpos⟩, rfl⟩
                · rintro ⟨-, rfl⟩
                  rfl

theorem mem_ranked_iff {c : RelayChoice × ℕ} :
    c ∈ (observations.foldl (observe participants) ∅).toList.filterMap
        (consider participants ledger reliability failureThreshold) ↔
      ∃ relay, Reported observations participants ledger relay ∧
        c = entry observations participants ledger reliability failureThreshold
          relay := by
  rw [List.mem_filterMap]
  constructor
  · rintro ⟨⟨relay, worst, reports⟩, hmem, hconsider⟩
    have htable := (BTreeMap.mem_toList_iff _ _).1 hmem
    dsimp only at htable
    rw [getElem?_foldl_observe] at htable
    obtain ⟨hmany, hoffered, rfl⟩ := consider_eq_some_iff.1 hconsider
    split at htable
    · cases htable
    · next hsome =>
        obtain ⟨rfl, rfl⟩ := Prod.mk.inj (Option.some.inj htable)
        exact ⟨relay, ⟨hsome, hmany, hoffered⟩, rfl⟩
  · rintro ⟨relay, ⟨hsome, hmany, hoffered⟩, rfl⟩
    refine ⟨(relay, (worstOf observations participants relay,
      (counted observations participants relay).length)), ?_, ?_⟩
    · rw [BTreeMap.mem_toList_iff]
      dsimp only
      rw [getElem?_foldl_observe, if_neg hsome]
    · exact consider_eq_some_iff.2 ⟨hmany, hoffered, rfl⟩

instance : IsTrans (RelayChoice × ℕ) choiceOrder where
  trans _ _ _ := le_trans

instance : Std.Total choiceOrder where
  total a b := le_total (sortKey a) (sortKey b)

instance : Std.Antisymm choiceOrder where
  antisymm a b hab hba := by
    have hkey : sortKey a = sortKey b := le_antisymm hab hba
    obtain ⟨⟨relay, worst, capacity⟩, band⟩ := a
    obtain ⟨⟨relay', worst', capacity'⟩, band'⟩ := b
    simp only [sortKey, EmbeddingLike.apply_eq_iff_eq, Prod.mk.injEq] at hkey
    obtain ⟨rfl, hworst, hcapacity, rfl⟩ := hkey
    rw [UInt32.toNat_inj.1 hworst, UInt64.toNat_inj.1 hcapacity]

/-- Two relays with the same entry are one. -/
theorem eq_of_sortKey_le {relay' : PerNetworkIdentityId}
    {e e' : RelayChoice × ℕ} (he : e.1.relay = relay)
    (he' : e'.1.relay = relay') (h : sortKey e ≤ sortKey e')
    (h' : sortKey e' ≤ sortKey e) : relay = relay' := by
  have heq : e = e' := antisymm_of choiceOrder h h'
  rw [← he, ← he', heq]

theorem select_eq_some_iff {choice : RelayChoice} :
    select observations participants ledger reliability failureThreshold =
        some choice ↔
      ∃ relay, Reported observations participants ledger relay ∧
        (∀ other, Reported observations participants ledger other →
          sortKey (entry observations participants ledger reliability
            failureThreshold relay) ≤
          sortKey (entry observations participants ledger reliability
            failureThreshold other)) ∧
        choice = (entry observations participants ledger reliability
          failureThreshold relay).1 := by
  rw [select, Option.map_eq_some_iff]
  constructor
  · rintro ⟨c, hhead, rfl⟩
    obtain ⟨hmem, hleast⟩ := Ranking.head?_sort_eq_some_iff.1 hhead
    obtain ⟨relay, hreported, rfl⟩ := mem_ranked_iff.1 hmem
    exact ⟨relay, hreported, fun other hother =>
      hleast _ (mem_ranked_iff.2 ⟨other, hother, rfl⟩), rfl⟩
  · rintro ⟨relay, hreported, hleast, rfl⟩
    refine ⟨_, Ranking.head?_sort_eq_some_iff.2
      ⟨mem_ranked_iff.2 ⟨relay, hreported, rfl⟩, fun c hc => ?_⟩, rfl⟩
    obtain ⟨other, hother, rfl⟩ := mem_ranked_iff.1 hc
    exact hleast other hother

/-- Where a relay has enough reports, one is chosen. -/
theorem exists_select (h : Reported observations participants ledger relay) :
    ∃ choice, select observations participants ledger reliability
      failureThreshold = some choice := by
  rw [← Option.isSome_iff_exists, Option.isSome_iff_ne_none, select, Ne,
    Option.map_eq_none_iff, List.head?_eq_none_iff]
  intro hnil
  have hmem := (List.mem_insertionSort choiceOrder).2 ((mem_ranked_iff
    (c := entry observations participants ledger reliability failureThreshold
      relay)).2 ⟨relay, h, rfl⟩)
  rw [hnil] at hmem
  cases hmem

/-! ## Judged by everybody -/

/-- Every participant has measured the relay. -/
def Covered (observations : List RelayObservation)
    (participants : BTreeSet PerNetworkIdentityId)
    (relay : PerNetworkIdentityId) : Prop :=
  ∀ p ∈ participants, ∃ o ∈ observations, o.relay = relay ∧ o.participant = p

/-- A relay that may carry the call: on offer, and measured by everybody. -/
def Qualifies (observations : List RelayObservation)
    (participants : BTreeSet PerNetworkIdentityId) (ledger : CapabilityLedger)
    (relay : PerNetworkIdentityId) : Prop :=
  Covered observations participants relay ∧ Offered ledger relay

/-- One relay goes before another: by its reliability band, its worst latency,
its larger capacity, its lower id. -/
def Preferred (observations : List RelayObservation)
    (participants : BTreeSet PerNetworkIdentityId) (ledger : CapabilityLedger)
    (reliability : ReliabilityObservations) (failureThreshold : Float)
    (relay other : PerNetworkIdentityId) : Prop :=
  sortKey (entry observations participants ledger reliability failureThreshold
    relay) <
  sortKey (entry observations participants ledger reliability failureThreshold
    other)

/-- What a selection by every participant is: the chosen relay qualifies, its
figures are the advertised capacity and the maximum of what the participants
measured, and every other relay that qualifies goes behind it; nothing is
chosen exactly when nothing qualifies; and observations that are permuted or
repeated make no difference. -/
structure JudgedByAll (observations : List RelayObservation)
    (participants : BTreeSet PerNetworkIdentityId) (ledger : CapabilityLedger)
    (reliability : ReliabilityObservations) (failureThreshold : Float) :
    Prop where
  chosen : ∀ choice, select observations participants ledger reliability
      failureThreshold = some choice →
    Qualifies observations participants ledger choice.relay ∧
      choice.uploadCapacity = uploadOf ledger choice.relay ∧
      (∀ o ∈ observations, o.relay = choice.relay →
        o.participant ∈ participants →
          o.latencyMillis ≤ choice.worstLatencyMillis) ∧
      (∃ o ∈ observations, o.relay = choice.relay ∧
        o.participant ∈ participants ∧
          o.latencyMillis = choice.worstLatencyMillis) ∧
      ∀ other, Qualifies observations participants ledger other →
        other ≠ choice.relay → Preferred observations participants ledger
          reliability failureThreshold choice.relay other
  none_iff : select observations participants ledger reliability
      failureThreshold = none ↔
    ∀ relay, ¬ Qualifies observations participants ledger relay
  same : ∀ observations' : List RelayObservation,
    (∀ o, o ∈ observations' ↔ o ∈ observations) →
      select observations' participants ledger reliability failureThreshold =
        select observations participants ledger reliability failureThreshold

theorem worstOf_congr {observations' : List RelayObservation}
    (hsame : ∀ o, o ∈ observations' ↔ o ∈ observations) :
    worstOf observations' participants relay =
      worstOf observations participants relay := by
  have hcounted : ∀ o, o ∈ counted observations' participants relay ↔
      o ∈ counted observations participants relay := by
    intro o
    rw [mem_counted_iff, mem_counted_iff, hsame]
  refine UInt32.toNat_inj.1 (Nat.le_antisymm ?_ ?_)
  · exact worstOf_le_iff.2 fun o ho =>
      worstOf_le_iff.1 le_rfl o ((hcounted o).1 ho)
  · exact worstOf_le_iff.2 fun o ho =>
      worstOf_le_iff.1 le_rfl o ((hcounted o).2 ho)

theorem covered_congr {observations' : List RelayObservation}
    (hsame : ∀ o, o ∈ observations' ↔ o ∈ observations) :
    Covered observations' participants relay ↔
      Covered observations participants relay := by
  simp only [Covered, hsame]

/-- As many participants have measured a relay as there are, so there are as
many reports. -/
theorem Covered.size_le (h : Covered observations participants relay) :
    participants.size ≤ (counted observations participants relay).length := by
  have hsub : participants.toList ⊆
      (counted observations participants relay).map
        RelayObservation.participant := by
    intro p hp
    have hin := Std.ExtTreeSet.mem_toList.1 hp
    obtain ⟨o, ho, hrelay, rfl⟩ := h p hin
    exact List.mem_map_of_mem (mem_counted_iff.2 ⟨ho, hrelay, hin⟩)
  have hle := (List.subperm_of_subset
    (BTreeSet.toList_pairwise participants).nodup hsub).length_le
  rwa [Std.ExtTreeSet.length_toList, List.length_map] at hle

/-- A relay that qualifies has its reports, unless there is nobody to make
any. -/
theorem Qualifies.reported
    (hqualifies : Qualifies observations participants ledger relay)
    (hsome : participants ≠ ∅) :
    Reported observations participants ledger relay := by
  have hmany := hqualifies.1.size_le
  refine ⟨fun hnil => ?_, hmany, hqualifies.2⟩
  rw [hnil, List.length_nil, Nat.le_zero] at hmany
  exact hsome (Std.ExtTreeSet.eq_empty_iff_size_eq_zero.2 hmany)

/-- A relay on offer that only some participants have measured goes behind one
that qualifies. -/
def PartialOutdone (observations : List RelayObservation)
    (participants : BTreeSet PerNetworkIdentityId) (ledger : CapabilityLedger)
    (reliability : ReliabilityObservations) (failureThreshold : Float) :
    Prop :=
  ∀ relay, Offered ledger relay →
    (∃ o ∈ observations, o.relay = relay ∧ o.participant ∈ participants) →
    ¬ Covered observations participants relay →
      ∃ better, Qualifies observations participants ledger better ∧
        Preferred observations participants ledger reliability failureThreshold
          better relay

theorem PartialOutdone.congr
    (h : PartialOutdone observations participants ledger reliability
      failureThreshold)
    {observations' : List RelayObservation}
    (hsame : ∀ o, o ∈ observations' ↔ o ∈ observations) :
    PartialOutdone observations' participants ledger reliability
      failureThreshold := by
  simp only [PartialOutdone, Qualifies, Preferred, entry, covered_congr hsame,
    worstOf_congr hsame, hsame]
  exact h

/-- Then the choice is the least of the relays that qualify. -/
theorem PartialOutdone.select_eq_some_iff
    (h : PartialOutdone observations participants ledger reliability
      failureThreshold) (hsome : participants ≠ ∅) {choice : RelayChoice} :
    select observations participants ledger reliability failureThreshold =
        some choice ↔
      ∃ relay, Qualifies observations participants ledger relay ∧
        (∀ other, Qualifies observations participants ledger other →
          sortKey (entry observations participants ledger reliability
            failureThreshold relay) ≤
          sortKey (entry observations participants ledger reliability
            failureThreshold other)) ∧
        choice = (entry observations participants ledger reliability
          failureThreshold relay).1 := by
  have houtdone : ∀ relay, Reported observations participants ledger relay →
      ¬ Covered observations participants relay →
      ∃ better, Qualifies observations participants ledger better ∧
        Preferred observations participants ledger reliability failureThreshold
          better relay := by
    intro relay hreported hpartial
    obtain ⟨o, ho⟩ := List.exists_mem_of_ne_nil _ hreported.1
    exact h relay hreported.2.2 ⟨o, mem_counted_iff.1 ho⟩ hpartial
  rw [Relay.select_eq_some_iff]
  constructor
  · rintro ⟨relay, hreported, hleast, rfl⟩
    refine ⟨relay, ⟨?_, hreported.2.2⟩, fun other hother =>
      hleast other (hother.reported hsome), rfl⟩
    by_contra hpartial
    obtain ⟨better, hbetter, hpreferred⟩ := houtdone relay hreported hpartial
    exact absurd (hleast better (hbetter.reported hsome)) (not_le.2 hpreferred)
  · rintro ⟨relay, hqualifies, hleast, rfl⟩
    refine ⟨relay, hqualifies.reported hsome, fun other hother => ?_, rfl⟩
    by_cases hcovered : Covered observations participants other
    · exact hleast other ⟨hcovered, hother.2.2⟩
    · obtain ⟨better, hbetter, hpreferred⟩ := houtdone other hother hcovered
      exact (hleast better hbetter).trans hpreferred.le

theorem PartialOutdone.judgedByAll
    (h : PartialOutdone observations participants ledger reliability
      failureThreshold) (hsome : participants ≠ ∅) :
    JudgedByAll observations participants ledger reliability
      failureThreshold where
  chosen := by
    intro choice hchoice
    obtain ⟨relay, hqualifies, hleast, rfl⟩ :=
      (h.select_eq_some_iff hsome).1 hchoice
    obtain ⟨o, ho, hworst⟩ := exists_worstOf (hqualifies.reported hsome).1
    obtain ⟨hin, hrelay, hparticipant⟩ := mem_counted_iff.1 ho
    refine ⟨hqualifies, rfl, fun o ho hrelay hparticipant => ?_,
      ⟨o, hin, hrelay, hparticipant, hworst⟩, fun other hother hne => ?_⟩
    · exact UInt32.le_iff_toNat_le.2 (worstOf_le_iff.1 le_rfl o
        (mem_counted_iff.2 ⟨ho, hrelay, hparticipant⟩))
    · refine lt_of_le_of_ne (hleast other hother) fun heq => hne ?_
      exact eq_of_sortKey_le rfl rfl heq.ge heq.le
  none_iff := by
    rw [Option.eq_none_iff_forall_ne_some]
    constructor
    · intro hnone relay hqualifies
      obtain ⟨choice, hchoice⟩ : ∃ choice, select observations participants
          ledger reliability failureThreshold = some choice :=
        exists_select (hqualifies.reported hsome)
      exact hnone choice hchoice
    · intro hnone choice hchoice
      obtain ⟨relay, hqualifies, -⟩ := (h.select_eq_some_iff hsome).1 hchoice
      exact hnone relay hqualifies
  same := by
    intro observations' hsame
    refine Option.ext fun choice => ?_
    rw [(h.congr hsame).select_eq_some_iff hsome, h.select_eq_some_iff hsome]
    simp only [Qualifies, entry, covered_congr hsame, worstOf_congr hsame]

/-! ## Reports repeated -/

/-- With one observation repeated for every participant, its relay has enough
reports. -/
theorem reported_repeated {o : RelayObservation} (ho : o ∈ observations)
    (hparticipant : o.participant ∈ participants)
    (hoffered : Offered ledger o.relay) :
    Reported (observations ++ List.replicate participants.size o) participants
      ledger o.relay := by
  have hcounted : counted (List.replicate participants.size o) participants
      o.relay = List.replicate participants.size o := by
    refine List.filter_eq_self.2 fun o' ho' => decide_eq_true ?_
    rw [(List.mem_replicate.1 ho').2]
    exact ⟨rfl, hparticipant⟩
  have hsplit : counted (observations ++ List.replicate participants.size o)
      participants o.relay = counted observations participants o.relay ++
        List.replicate participants.size o := by
    rw [counted, List.filter_append, ← counted, ← counted, hcounted]
  refine ⟨?_, ?_, hoffered⟩
  · exact List.ne_nil_of_mem (mem_counted_iff.2
      ⟨List.mem_append_left _ ho, rfl, hparticipant⟩)
  · rw [hsplit, List.length_append, List.length_replicate]
    exact Nat.le_add_left _ _

/-- A relay measured by some and not outdone would be chosen, once its reports
are repeated. -/
theorem JudgedByAll.partialOutdone
    (h : JudgedByAll observations participants ledger reliability
      failureThreshold) :
    PartialOutdone observations participants ledger reliability
      failureThreshold := by
  rintro relay hoffered ⟨o, ho, rfl, hparticipant⟩ hpartial
  have hsame : ∀ o', o' ∈ observations ++ List.replicate participants.size o ↔
      o' ∈ observations := by
    intro o'
    rw [List.mem_append, List.mem_replicate]
    constructor
    · rintro (hold | ⟨-, rfl⟩)
      · exact hold
      · exact ho
    · exact .inl
  have hreported := reported_repeated ho hparticipant hoffered
  obtain ⟨choice, hchoice⟩ : ∃ choice, select
      (observations ++ List.replicate participants.size o) participants ledger
      reliability failureThreshold = some choice := exists_select hreported
  obtain ⟨hqualifies, -⟩ := h.chosen choice (h.same _ hsame ▸ hchoice)
  obtain ⟨better, -, hleast, rfl⟩ := select_eq_some_iff.1 hchoice
  have hle := hleast o.relay hreported
  simp only [entry, worstOf_congr hsame] at hle hqualifies
  refine ⟨better, hqualifies, lt_of_le_of_ne hle fun heq => hpartial ?_⟩
  have hone : better = o.relay := eq_of_sortKey_le rfl rfl heq.le heq.ge
  rw [← hone]
  exact hqualifies.1

theorem select_nobody (h : participants = ∅) :
    select observations participants ledger reliability failureThreshold =
      none := by
  rw [Option.eq_none_iff_forall_ne_some]
  intro choice hchoice
  obtain ⟨relay, hreported, -⟩ := select_eq_some_iff.1 hchoice
  obtain ⟨o, ho⟩ := List.exists_mem_of_ne_nil _ hreported.1
  obtain ⟨-, -, hin⟩ := mem_counted_iff.1 ho
  rw [h] at hin
  exact Std.ExtTreeSet.not_mem_empty hin

theorem covered_nobody (h : participants = ∅) :
    Covered observations participants relay := by
  intro p hp
  rw [h] at hp
  exact absurd hp Std.ExtTreeSet.not_mem_empty

/-- The selection is by every participant if and only if there is somebody to
ask, or nothing to choose from, and no relay that only some participants have
measured would be preferred to all that everybody has. -/
theorem relay_judged_by_all_iff (observations : List RelayObservation)
    (participants : BTreeSet PerNetworkIdentityId) (ledger : CapabilityLedger)
    (reliability : ReliabilityObservations) (failureThreshold : Float) :
    JudgedByAll observations participants ledger reliability failureThreshold ↔
      (participants = ∅ → ∀ relay, ¬ Offered ledger relay) ∧
      PartialOutdone observations participants ledger reliability
        failureThreshold := by
  constructor
  · intro h
    refine ⟨fun hempty relay hoffered => ?_, h.partialOutdone⟩
    exact h.none_iff.1 (select_nobody hempty) relay
      ⟨covered_nobody hempty, hoffered⟩
  · rintro ⟨hempty, hpartial⟩
    by_cases hnobody : participants = ∅
    · have hnone : ∀ relay,
          ¬ Qualifies observations participants ledger relay :=
        fun relay hqualifies => hempty hnobody relay hqualifies.2
      refine ⟨fun choice hchoice => ?_, ?_, fun observations' _ => ?_⟩
      · rw [select_nobody hnobody] at hchoice
        cases hchoice
      · exact iff_of_true (select_nobody hnobody) hnone
      · rw [select_nobody hnobody, select_nobody hnobody]
    · exact hpartial.judgedByAll hnobody

/-! ### One who reports twice -/

/-- The ledger of a network with one media relay, node 9. -/
def oneRelay : CapabilityLedger :=
  (CapabilityLedger.new Sample.network).put
    { CapabilityLedger.sampleAd 9 0 0 with
      bandwidthCap := ⟨1000, 1000, none⟩
      relayMediaWilling := true }

def twoCallers : BTreeSet PerNetworkIdentityId :=
  Std.ExtTreeSet.ofList [Sample.identity 1, Sample.identity 2] compare

/-- The first of the callers measures the relay, twice. -/
def measuredTwice : List RelayObservation :=
  List.replicate 2 ⟨Sample.identity 9, Sample.identity 1, 5⟩

/-- The relay is chosen for a call whose second participant never measured
it. -/
theorem chosen_unmeasured :
    ¬ JudgedByAll measuredTwice twoCallers oneRelay .new 0.5 := by
  intro h
  have hchosen : select measuredTwice twoCallers oneRelay .new 0.5 =
      some ⟨Sample.identity 9, 5, 1000⟩ := by
    decide +kernel
  obtain ⟨o, ho, -, hsecond⟩ := (h.chosen _ hchosen).1.1 (Sample.identity 2) (by
    decide +kernel)
  have hfirst : ∀ o ∈ measuredTwice, o.participant ≠ Sample.identity 2 := by
    decide +kernel
  exact hfirst o ho hsecond

end Relay

end Intranet
