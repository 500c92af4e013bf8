import Intranet.Lib.Aging
import Intranet.Proofs.LedgerSync
import Intranet.Proofs.Replication
import Intranet.Proofs.Time

/-!
# How a departed node falls out of ledgers and views

Nothing tells a ledger that a node is gone. Its advertisement stops being
refreshed and every ledger drops its copy in its own time, and so it is with
what a view knows of the node's holdings. The age of a copy is taken from the
time it carries, which the node itself wrote there, and a copy is taken in
whatever its age.

So the node is gone everywhere only under two conditions: its advertisements
are not dated after the moment they were last received, and nobody whose clock
is past their time takes one in again from somebody who has not looked yet.
-/

namespace Intranet

instance : LE Timestamp := ⟨fun a b => a.millis ≤ b.millis⟩

instance : DecidableLE Timestamp := fun a b =>
  inferInstanceAs (Decidable (a.millis ≤ b.millis))

namespace Departure

variable {C : Crypto} {node : PerNetworkIdentityId} {ttl : Int64} {moment : ℤ}

/-- A clock past `moment` plus the time to live. -/
def Past (moment : ℤ) (ttl : Int64) (clock : Timestamp) : Prop :=
  moment + ttl.toInt < clock.millis.toInt

/-- A time from the epoch up to `moment`. -/
def Dated (moment : ℤ) (time : Timestamp) : Prop :=
  0 ≤ time.millis.toInt ∧ time.millis.toInt ≤ moment

theorem past_of_le (t t' : Timestamp) (h : t ≤ t') (ht : Past moment ttl t) :
    Past moment ttl t' := by
  have hle : t.millis.toInt ≤ t'.millis.toInt := Int64.le_iff_toInt_le.1 h
  exact lt_of_lt_of_le ht hle

/-- By a clock past the deadline, what is dated has aged out. -/
theorem ttl_lt_millisSince {now time : Timestamp} (hdated : Dated moment time)
    (hpast : Past moment ttl now) : ttl < now.millisSince time := by
  obtain ⟨hepoch, hmoment⟩ := hdated
  rw [Past] at hpast
  have hnow := now.millis.toInt_lt
  have httl := ttl.le_toInt
  rw [Int64.lt_iff_toInt_lt, Timestamp.millisSince_toInt (by omega)]
  omega

end Departure

open Departure

/-! ## Ledgers -/

namespace CapabilityLedger

variable {C : Crypto} {ledger : CapabilityLedger} {node : PerNetworkIdentityId}
  {a : CapabilityAdvertisement} {ttl : Int64} {moment : ℤ}

/-- The ledger as a store: what a node does with the responses it gets, each
under the governance state it has by then, and what it answers. -/
def store (C : Crypto) (ttl : Int64) :
    Aging.Store Timestamp CapabilityLedger
      (Option GovernanceState × LedgerResponse)
      (Option GovernanceState × LedgerRequest) where
  take ledger m := (ledger.handle C m.1 m.2).1
  expire ledger now := (ledger.expire now ttl).2
  reply ledger q := (q.1, ledger.answer q.2)

/-- What nodes with ledgers do. -/
abbrev Action (ι : Type) :=
  Aging.Action ι Timestamp (Option GovernanceState × LedgerResponse)
    (Option GovernanceState × LedgerRequest)

/-- The advertisements in a response. -/
def sent : LedgerResponse → List CapabilityAdvertisement
  | .digest _ => []
  | .advertisements ads _ => ads

/-- A response with an advertisement of `node`. -/
def Carries (node : PerNetworkIdentityId)
    (m : Option GovernanceState × LedgerResponse) : Prop :=
  ∃ a ∈ sent m.2, a.node = node

/-- What a response has of `node` is dated. -/
def DatedResponse (moment : ℤ) (node : PerNetworkIdentityId)
    (m : Option GovernanceState × LedgerResponse) : Prop :=
  ∀ a ∈ sent m.2, a.node = node → Dated moment a.issuedAt

/-- What a ledger has of `node` is dated. -/
def DatedEntry (moment : ℤ) (node : PerNetworkIdentityId)
    (ledger : CapabilityLedger) : Prop :=
  ∀ a, ledger.entries[node]? = some a → Dated moment a.issuedAt

theorem getElem?_expire (ledger : CapabilityLedger) (now : Timestamp)
    (ttl : Int64) (node : PerNetworkIdentityId) :
    (ledger.expire now ttl).2.entries[node]? =
      ledger.entries[node]?.filter fun a => !a.isStale now ttl :=
  Std.ExtTreeMap.getElem?_filter'

theorem receiveAll_entry {state : GovernanceState}
    {ads : List CapabilityAdvertisement}
    (h : (ledger.receiveAll C state ads).entries[node]? = some a) :
    ledger.entries[node]? = some a ∨ (a ∈ ads ∧ a.node = node) := by
  induction ads generalizing ledger with
  | nil => exact Or.inl h
  | cons b ads ih =>
      rcases ih h with h | ⟨hmem, hnode⟩
      · rcases receive_entry h with hold | ⟨rfl, hnode⟩
        · exact Or.inl hold
        · exact Or.inr ⟨List.mem_cons_self, hnode⟩
      · exact Or.inr ⟨List.mem_cons_of_mem b hmem, hnode⟩

theorem handle_entry {m : Option GovernanceState × LedgerResponse}
    (h : (ledger.handle C m.1 m.2).1.entries[node]? = some a) :
    ledger.entries[node]? = some a ∨ (a ∈ sent m.2 ∧ a.node = node) := by
  obtain ⟨state, response⟩ := m
  cases response with
  | digest entries => exact Or.inl h
  | advertisements ads truncated =>
      cases state with
      | none => exact Or.inl h
      | some state =>
          change (ledger.insertBatch C (some state) ads).ledger.entries[node]? =
            some a at h
          rw [insertBatch_ledger] at h
          exact receiveAll_entry h

/-- What is sent is what is held. -/
theorem entry_of_sent {request : LedgerRequest}
    (h : a ∈ sent (ledger.answer request)) :
    ledger.entries[a.node]? = some a := by
  cases request with
  | digest => cases h
  | fetch nodes =>
      obtain ⟨n, _, hn⟩ := List.mem_filterMap.1 (List.mem_of_mem_take h)
      rwa [← ledger.keyed n a hn] at hn

theorem forgets (C : Crypto) (ttl : Int64) (moment : ℤ)
    (node : PerNetworkIdentityId) :
    Aging.Forgets (store C ttl) (Past moment ttl)
      (fun ledger => ∃ a, ledger.entries[node]? = some a)
      (DatedEntry moment node) (Carries node) (DatedResponse moment node) where
  past_of_le := past_of_le
  expire := by
    intro ledger now h
    obtain ⟨a, ha⟩ := h
    change (ledger.expire now ttl).2.entries[node]? = some a at ha
    rw [getElem?_expire, Option.filter_eq_some_iff] at ha
    exact ⟨a, ha.1⟩
  dated_expire := by
    intro ledger now hdated a ha
    change (ledger.expire now ttl).2.entries[node]? = some a at ha
    rw [getElem?_expire, Option.filter_eq_some_iff] at ha
    exact hdated a ha.1
  drops := by
    intro ledger now hdated hpast h
    obtain ⟨a, ha⟩ := h
    change (ledger.expire now ttl).2.entries[node]? = some a at ha
    rw [getElem?_expire, Option.filter_eq_some_iff] at ha
    have hstale : a.isStale now ttl = true :=
      decide_eq_true (ttl_lt_millisSince (hdated a ha.1) hpast)
    rw [hstale] at ha
    cases ha.2
  take := by
    intro ledger m h
    obtain ⟨a, ha⟩ := h
    rcases handle_entry ha with hold | hsent
    · exact Or.inl ⟨a, hold⟩
    · exact Or.inr ⟨a, hsent⟩
  dated_take := by
    intro ledger m hdated hm a ha
    rcases handle_entry ha with hold | hsent
    · exact hdated a hold
    · exact hm a hsent.1 hsent.2
  reply := by
    intro ledger q h
    obtain ⟨a, ha, rfl⟩ := h
    exact ⟨a, entry_of_sent ha⟩
  dated_reply := by
    intro ledger q hdated a ha hnode
    refine hdated a ?_
    rw [← hnode]
    exact entry_of_sent ha

end CapabilityLedger

/-! ## Views -/

namespace ReplicationView

variable {C : Crypto} {view : ReplicationView} {node : PerNetworkIdentityId}
  {cid : Cid} {time : Timestamp} {ttl : Int64} {moment : ℤ}

/-- When `node` last announced `cid`, as far as the view knows. -/
def heldAt (holders : BTreeMap Cid (BTreeMap PerNetworkIdentityId Timestamp))
    (cid : Cid) (node : PerNetworkIdentityId) : Option Timestamp :=
  holders[cid]?.bind fun nodes => nodes[node]?

theorem mem_holdersOf_iff :
    node ∈ view.holdersOf cid ↔
      ∃ time, heldAt view.holders cid node = some time := by
  rw [mem_holdersOf, heldAt]
  cases view.holders[cid]? with
  | none => simp
  | some nodes =>
      rw [Option.getD_some, Option.bind_some, ← Option.isSome_iff_exists]
      exact Std.ExtTreeMap.mem_iff_isSome_getElem?

/-- The view as a store: announcements are recorded, and there is no request
that a view answers. -/
def store (C : Crypto) :
    Aging.Store Timestamp ReplicationView
      (HoldingAnnouncement × GovernanceState) Empty where
  take view m :=
    match view.record C m.1 m.2 with
    | .ok next => next
    | .error _ => view
  expire view now := (view.expire now).2
  reply _ q := q.elim

/-- What nodes with views do. -/
abbrev Action (ι : Type) :=
  Aging.Action ι Timestamp (HoldingAnnouncement × GovernanceState) Empty

/-- What a view has of `node` is dated. -/
def DatedHoldings (moment : ℤ) (ttl : Int64) (node : PerNetworkIdentityId)
    (view : ReplicationView) : Prop :=
  view.ttlMillis = ttl ∧
    ∀ cid time, heldAt view.holders cid node = some time → Dated moment time

theorem heldAt_recordHolding (announcer : PerNetworkIdentityId)
    (announcedAt : Timestamp)
    (holders : BTreeMap Cid (BTreeMap PerNetworkIdentityId Timestamp))
    (c : Cid) (h : heldAt (recordHolding announcer announcedAt holders c) cid
      node = some time) :
    heldAt holders cid node = some time ∨
      (time = announcedAt ∧ announcer = node) := by
  have hnodes : holders[cid]?.getD ∅ = ∅ ∨
      holders[cid]? = some (holders[cid]?.getD ∅) := by
    cases holders[cid]? with
    | none => exact Or.inl rfl
    | some nodes => exact Or.inr rfl
  rw [recordHolding, heldAt, BTreeMap.getElem?_insert_ite] at h
  split at h
  · next hc =>
      subst hc
      rw [Option.bind_some, BTreeMap.getElem?_insert_ite] at h
      have hbefore : ∀ t, (holders[c]?.getD ∅)[node]? = some t →
          heldAt holders c node = some t := by
        intro t ht
        rcases hnodes with hempty | hsome
        · rw [hempty] at ht
          simp at ht
        · rw [heldAt, hsome]
          exact ht
      split at h
      · next hnode =>
          subst hnode
          split at h
          · next current hcurrent =>
              rw [fresher] at h
              split at h
              · exact Or.inr ⟨(Option.some.inj h).symm, rfl⟩
              · rw [← Option.some.inj h]
                exact Or.inl (hbefore _ hcurrent)
          · exact Or.inr ⟨(Option.some.inj h).symm, rfl⟩
      · exact Or.inl (hbefore _ h)
  · exact Or.inl h

theorem heldAt_take {m : HoldingAnnouncement × GovernanceState}
    (h : heldAt ((store C).take view m).holders cid node = some time) :
    heldAt view.holders cid node = some time ∨
      (time = m.1.announcedAt ∧ m.1.node = node) := by
  have hfold : ∀ (cids : List Cid) holders,
      heldAt (cids.foldl (recordHolding m.1.node m.1.announcedAt) holders) cid
          node = some time →
        heldAt holders cid node = some time ∨
          (time = m.1.announcedAt ∧ m.1.node = node) := by
    intro cids
    induction cids with
    | nil => exact fun _ hheld => Or.inl hheld
    | cons c cids ih =>
        intro holders hheld
        rcases ih _ hheld with hheld | hnew
        · exact heldAt_recordHolding _ _ holders c hheld
        · exact Or.inr hnew
  cases hrecord : view.record C m.1 m.2 with
  | error err =>
      simp only [store, hrecord] at h
      exact Or.inl h
  | ok after =>
      simp only [store, hrecord] at h
      rw [record_eq hrecord] at h
      exact hfold _ _ h

theorem heldAt_expire (view : ReplicationView) (now : Timestamp) (cid : Cid)
    (node : PerNetworkIdentityId) :
    heldAt (view.expire now).2.holders cid node =
      (heldAt view.holders cid node).filter fun time =>
        decide (now.millisSince time ≤ view.ttlMillis) := by
  have hkept : (view.expire now).2.holders[cid]? =
      view.holders[cid]?.bind fun nodes =>
        if (view.fresh now nodes).isEmpty then none
        else some (view.fresh now nodes) :=
    Std.ExtTreeMap.getElem?_filterMap'
  rw [heldAt, hkept, heldAt]
  cases view.holders[cid]? with
  | none => rfl
  | some nodes =>
      have hfresh : (view.fresh now nodes)[node]? =
          nodes[node]?.filter fun time =>
            decide (now.millisSince time ≤ view.ttlMillis) :=
        Std.ExtTreeMap.getElem?_filter'
      simp only [Option.bind_some]
      split
      · next hempty =>
          rw [← hfresh, Std.ExtTreeMap.isEmpty_iff.1 hempty]
          simp
      · rw [Option.bind_some, hfresh]

theorem ttlMillis_take (C : Crypto) (view : ReplicationView)
    (m : HoldingAnnouncement × GovernanceState) :
    ((store C).take view m).ttlMillis = view.ttlMillis := by
  cases hrecord : view.record C m.1 m.2 with
  | error err => simp only [store, hrecord]
  | ok after => simp only [store, hrecord, record_eq hrecord]

theorem forgets (C : Crypto) (ttl : Int64) (moment : ℤ)
    (node : PerNetworkIdentityId) :
    Aging.Forgets (store C) (Past moment ttl)
      (fun view => ∃ cid, node ∈ view.holdersOf cid)
      (DatedHoldings moment ttl node) (fun m => m.1.node = node)
      (fun m => m.1.node = node → Dated moment m.1.announcedAt) where
  past_of_le := past_of_le
  expire := by
    intro view now h
    obtain ⟨cid, hmem⟩ := h
    obtain ⟨time, htime⟩ := mem_holdersOf_iff.1 hmem
    change heldAt (view.expire now).2.holders cid node = some time at htime
    rw [heldAt_expire, Option.filter_eq_some_iff] at htime
    exact ⟨cid, mem_holdersOf_iff.2 ⟨time, htime.1⟩⟩
  dated_expire := by
    intro view now hdated
    refine ⟨hdated.1, fun cid time htime => ?_⟩
    change heldAt (view.expire now).2.holders cid node = some time at htime
    rw [heldAt_expire, Option.filter_eq_some_iff] at htime
    exact hdated.2 cid time htime.1
  drops := by
    intro view now hdated hpast h
    obtain ⟨cid, hmem⟩ := h
    obtain ⟨time, htime⟩ := mem_holdersOf_iff.1 hmem
    change heldAt (view.expire now).2.holders cid node = some time at htime
    rw [heldAt_expire, Option.filter_eq_some_iff, decide_eq_true_eq,
      hdated.1] at htime
    have hold := ttl_lt_millisSince (hdated.2 cid time htime.1) hpast
    exact absurd htime.2 (Int64.not_le.2 hold)
  take := by
    intro view m h
    obtain ⟨cid, hmem⟩ := h
    obtain ⟨time, htime⟩ := mem_holdersOf_iff.1 hmem
    rcases heldAt_take htime with hheld | hnew
    · exact Or.inl ⟨cid, mem_holdersOf_iff.2 ⟨time, hheld⟩⟩
    · exact Or.inr hnew.2
  dated_take := by
    intro view m hdated hm
    refine ⟨(ttlMillis_take C view m).trans hdated.1, fun cid time htime => ?_⟩
    rcases heldAt_take htime with hheld | ⟨rfl, hnode⟩
    · exact hdated.2 cid time hheld
    · exact hm hnode
  reply := by
    intro view q
    exact q.elim
  dated_reply := by
    intro view q
    exact q.elim

end ReplicationView

/-! ## The node is gone -/

namespace Departure

section

variable {ι : Type} [DecidableEq ι]

/-- Once every node has expired past the deadline, no ledger has an entry of
the node and no view a holding, and what the nodes do among themselves later
brings none back. This is so where every advertisement and announcement of the
node is dated up to `moment` and none is taken in at a clock past it plus the
time to live. -/
theorem departed_falls_out (C : Crypto) (node : PerNetworkIdentityId)
    (ttl : Int64) (moment : ℤ) :
    (∀ (s : ι → Aging.Node Timestamp CapabilityLedger)
        (as later : List (CapabilityLedger.Action ι)),
      (∀ i, (s i).store.DatedEntry moment node) →
      Aging.TimelyRun (CapabilityLedger.store C ttl) (Past moment ttl)
        (CapabilityLedger.Carries node)
        (CapabilityLedger.DatedResponse moment node) s as →
      Aging.ExpiredPast (CapabilityLedger.store C ttl) (Past moment ttl) s as →
      (∀ a ∈ later, Aging.Quiet (CapabilityLedger.Carries node) a) →
      ∀ i, (Aging.run (CapabilityLedger.store C ttl) s (as ++ later)
        i).store.entries[node]? = none) ∧
    (∀ (s : ι → Aging.Node Timestamp ReplicationView)
        (as later : List (ReplicationView.Action ι)),
      (∀ i, (s i).store.DatedHoldings moment ttl node) →
      Aging.TimelyRun (ReplicationView.store C) (Past moment ttl)
        (fun m => m.1.node = node)
        (fun m => m.1.node = node → Dated moment m.1.announcedAt) s as →
      Aging.ExpiredPast (ReplicationView.store C) (Past moment ttl) s as →
      (∀ a ∈ later, Aging.Quiet (fun m => m.1.node = node) a) →
      ∀ i cid, node ∉ (Aging.run (ReplicationView.store C) s (as ++ later)
        i).store.holdersOf cid) := by
  refine ⟨?_, ?_⟩
  · intro s as later hdated htimely hexpired hquiet i
    have hforgets := CapabilityLedger.forgets C ttl moment node
    have hgone := Aging.gone hforgets hdated htimely hexpired
    rw [Aging.run_append, Option.eq_none_iff_forall_ne_some]
    intro a ha
    exact Aging.stays_gone hforgets hgone hquiet i ⟨a, ha⟩
  · intro s as later hdated htimely hexpired hquiet i cid hmem
    have hforgets := ReplicationView.forgets C ttl moment node
    have hgone := Aging.gone hforgets hdated htimely hexpired
    rw [Aging.run_append] at hmem
    exact Aging.stays_gone hforgets hgone hquiet i ⟨cid, hmem⟩

end

open CapabilityLedger in
/-- Two nodes with an advertisement of the first member, at time 0. -/
def sampleLedgers : Bool → Aging.Node Timestamp CapabilityLedger :=
  fun _ => ⟨⟨0⟩, samplePeer [1]⟩

/-- Member 1 announces one content item. -/
def sampleAnnouncement (announcedAt : Int64) :
    HoldingAnnouncement × GovernanceState :=
  (⟨Sample.network, Sample.identity 1,
    Std.ExtTreeSet.ofList [⟨Sample.hash 5⟩] compare, ⟨announcedAt⟩,
    Sample.signature 1 0⟩, CapabilityLedger.sampleState [1])

def sampleViews : Unit → Aging.Node Timestamp ReplicationView :=
  fun _ => ⟨⟨0⟩, (ReplicationView.new Sample.network).withTtl 10⟩

/-- Both nodes move their clocks past the deadline and expire. -/
def sampleExpiry : List (CapabilityLedger.Action Bool) :=
  [.tick false ⟨100⟩, .expire false, .tick true ⟨100⟩, .expire true]

theorem dated_sampleLedgers (i : Bool) :
    (sampleLedgers i).store.DatedEntry 0 (Sample.identity 1) := by
  intro a ha
  have hentry : (CapabilityLedger.samplePeer [1]).entries[Sample.identity 1]? =
      some (CapabilityLedger.sampleAd 1 100 0) := by
    decide +kernel
  rw [sampleLedgers, hentry] at ha
  rw [← Option.some.inj ha]
  exact ⟨by decide, by decide⟩

theorem departed_falls_out_sample :
    (∀ i, (Aging.run (CapabilityLedger.store .sample 10) sampleLedgers
        (sampleExpiry ++ [.pull false true (some (CapabilityLedger.sampleState
          [1]), .fetch [Sample.identity 1])])
        i).store.entries[Sample.identity 1]? = none) ∧
      ∀ i cid, Sample.identity 1 ∉ (Aging.run (ReplicationView.store .sample)
        sampleViews ([.take () (sampleAnnouncement 0), .tick () ⟨100⟩,
          .expire ()] ++ [])
        i).store.holdersOf cid := by
  refine ⟨?_, ?_⟩
  · refine (departed_falls_out .sample (Sample.identity 1) 10 0).1
      sampleLedgers sampleExpiry _ dated_sampleLedgers ?_ ?_ ?_
    · exact .cons trivial (.cons trivial (.cons trivial (.cons trivial .nil)))
    · intro i
      cases i with
      | false => exact ⟨[.tick false ⟨100⟩], _, rfl, by unfold Past; decide⟩
      | true =>
          exact ⟨[.tick false ⟨100⟩, .expire false, .tick true ⟨100⟩], [], rfl,
            by unfold Past; decide⟩
    · intro a ha
      rw [List.mem_singleton.1 ha]
      trivial
  · refine (departed_falls_out .sample (Sample.identity 1) 10 0).2
      sampleViews _ [] ?_ ?_ ?_ ?_
    · intro i
      refine ⟨rfl, fun cid time htime => ?_⟩
      simp [sampleViews, ReplicationView.heldAt, ReplicationView.new,
        ReplicationView.withTtl] at htime
    · refine .cons ⟨fun _ => ⟨by decide, by decide⟩, fun _ => ?_⟩
        (.cons trivial (.cons trivial .nil))
      unfold Past
      decide
    · intro i
      cases i
      exact ⟨[.take () (sampleAnnouncement 0), .tick () ⟨100⟩], [], rfl,
        by unfold Past; decide⟩
    · intro a ha
      cases ha

/-- An advertisement dated ahead of the clock it is received at does not age
by that clock. One dated right comes back from a node that has not expired
yet. -/
theorem departed_stays :
    (¬ ∀ (s : Unit → Aging.Node Timestamp CapabilityLedger)
        (as : List (CapabilityLedger.Action Unit)) (C : Crypto)
        (node : PerNetworkIdentityId) (ttl : Int64) (moment : ℤ),
      0 ≤ ttl.toInt →
      (∀ i, (s i).store.entries[node]? = none) →
      Aging.TimelyRun (CapabilityLedger.store C ttl)
        (fun clock => moment < clock.millis.toInt)
        (CapabilityLedger.Carries node) (fun _ => True) s as →
      Aging.ExpiredPast (CapabilityLedger.store C ttl) (Past moment ttl) s as →
      ∀ i, (Aging.run (CapabilityLedger.store C ttl) s as
        i).store.entries[node]? = none) ∧
    ¬ ∀ (s : Bool → Aging.Node Timestamp CapabilityLedger)
        (as : List (CapabilityLedger.Action Bool)) (C : Crypto)
        (node : PerNetworkIdentityId) (ttl : Int64) (moment : ℤ),
      (∀ i, (s i).store.DatedEntry moment node) →
      (∀ a ∈ as, Aging.Quiet (CapabilityLedger.Carries node) a) →
      Aging.ExpiredPast (CapabilityLedger.store C ttl) (Past moment ttl) s as →
      ∀ i, (Aging.run (CapabilityLedger.store C ttl) s as
        i).store.entries[node]? = none := by
  refine ⟨?_, ?_⟩
  · intro h
    have hgone := h (fun _ => ⟨⟨0⟩, .new Sample.network⟩)
      [.take () (some (CapabilityLedger.sampleState [1]),
          .advertisements [CapabilityLedger.sampleAd 1 100 1000] false),
        .tick () ⟨100⟩, .expire ()]
      .sample (Sample.identity 1) 10 0 (by decide) ?_ ?_ ?_ ()
    · revert hgone
      decide +kernel
    · intro i
      decide
    · refine .cons ⟨trivial, fun _ => ?_⟩
        (.cons trivial (.cons trivial .nil))
      decide
    · intro i
      cases i
      exact ⟨[_, _], [], rfl, by unfold Past; decide +kernel⟩
  · intro h
    have hgone := h sampleLedgers
      [.tick false ⟨100⟩, .expire false,
        .pull false true (some (CapabilityLedger.sampleState [1]),
          .fetch [Sample.identity 1]),
        .tick true ⟨100⟩, .expire true]
      .sample (Sample.identity 1) 10 0 dated_sampleLedgers ?_ ?_ false
    · revert hgone
      decide +kernel
    · intro a ha
      simp only [List.mem_cons, List.not_mem_nil, or_false] at ha
      rcases ha with rfl | rfl | rfl | rfl | rfl <;> trivial
    · intro i
      cases i with
      | false => exact ⟨[_], _, rfl, by unfold Past; decide +kernel⟩
      | true => exact ⟨[_, _, _, _], [], rfl, by unfold Past; decide +kernel⟩

end Departure

end Intranet
