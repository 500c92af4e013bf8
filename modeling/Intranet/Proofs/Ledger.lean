import Intranet.Lib.Register
import Intranet.Ref.Ledger
import Intranet.Ref.Sample

/-!
# What a ledger makes of the advertisements it was given

For every node a ledger is a register of newest advertisements: one that is
valid takes the node's place unless the one there was issued at the same time
or later. Whatever was received, and in whatever order, the one that stands is
among the newest. Where a node has issued several at the newest time, the one
that arrived first stands, and that is all the order decides.
-/

namespace Intranet

/-! ## Insertion -/

/-- What `insert` asks of an advertisement. -/
structure CapabilityAdvertisement.Valid (C : Crypto) (network : NetworkId)
    (state : GovernanceState) (a : CapabilityAdvertisement) : Prop where
  signed : a.verify C = .ok ()
  here : a.network = network
  member : state.isMember a.node = true

/-- Newer advertisements come first. -/
def CapabilityAdvertisement.age (a : CapabilityAdvertisement) : ℤ :=
  -a.issuedAt.millis.toInt

namespace CapabilityLedger

variable {C : Crypto} {state : GovernanceState} {ledger : CapabilityLedger}
  {a : CapabilityAdvertisement} {node : PerNetworkIdentityId}

/-- A valid advertisement takes its node's place unless it is no newer. -/
def offer (ledger : CapabilityLedger) (a : CapabilityAdvertisement) :
    CapabilityLedger :=
  match ledger.entries[a.node]? with
  | some existing =>
      if a.issuedAt.millis ≤ existing.issuedAt.millis then ledger
      else ledger.put a
  | none => ledger.put a

theorem insert_of_valid (h : a.Valid C ledger.network state) :
    ledger.insert C a state = .ok (ledger.offer a) := by
  have hnetwork : ¬ a.network ≠ ledger.network := not_not.2 h.here
  have hmember : ¬ (!state.isMember a.node) = true := by simp [h.member]
  rw [insert, h.signed]
  show (if a.network ≠ ledger.network then _ else
    if (!state.isMember a.node) = true then _ else _) = _
  rw [if_neg hnetwork, if_neg hmember, offer]
  cases ledger.entries[a.node]? with
  | none => rfl
  | some existing =>
      dsimp only
      split <;> rfl

theorem valid_of_insert {next : CapabilityLedger}
    (h : ledger.insert C a state = .ok next) :
    a.Valid C ledger.network state := by
  unfold insert at h
  cases hsigned : a.verify C with
  | error err =>
      rw [hsigned] at h
      cases h
  | ok u =>
      rw [hsigned] at h
      change (if a.network ≠ ledger.network then _ else
        if (!state.isMember a.node) = true then _ else _) = _ at h
      split at h
      · cases h
      · next hnetwork =>
          split at h
          · cases h
          · next hmember =>
              rw [Bool.not_eq_true, Bool.not_eq_false'] at hmember
              exact ⟨hsigned, not_not.1 hnetwork, hmember⟩

/-- Receives an advertisement; one that is refused leaves no trace. -/
def receive (C : Crypto) (state : GovernanceState) (ledger : CapabilityLedger)
    (a : CapabilityAdvertisement) : CapabilityLedger :=
  match ledger.insert C a state with
  | .ok next => next
  | .error _ => ledger

/-- Receives advertisements one after the other. -/
def receiveAll (C : Crypto) (state : GovernanceState)
    (ledger : CapabilityLedger) (ads : List CapabilityAdvertisement) :
    CapabilityLedger :=
  ads.foldl (receive C state) ledger

theorem receive_of_valid (h : a.Valid C ledger.network state) :
    ledger.receive C state a = ledger.offer a := by
  rw [receive, insert_of_valid h]

theorem receive_of_not_valid (h : ¬ a.Valid C ledger.network state) :
    ledger.receive C state a = ledger := by
  unfold receive
  split
  · next next hok => exact absurd (valid_of_insert hok) h
  · rfl

theorem offer_network (ledger : CapabilityLedger)
    (a : CapabilityAdvertisement) : (ledger.offer a).network = ledger.network := by
  unfold offer
  split
  · split <;> rfl
  · rfl

theorem receive_network (ledger : CapabilityLedger)
    (a : CapabilityAdvertisement) :
    (ledger.receive C state a).network = ledger.network := by
  by_cases h : a.Valid C ledger.network state
  · rw [receive_of_valid h, offer_network]
  · rw [receive_of_not_valid h]

/-- What an offer leaves for each node. -/
theorem getElem?_offer (ledger : CapabilityLedger)
    (a : CapabilityAdvertisement) (node : PerNetworkIdentityId) :
    (ledger.offer a).entries[node]? =
      if a.node = node then
        some (match ledger.entries[node]? with
          | none => a
          | some held => Register.pick CapabilityAdvertisement.age held a)
      else ledger.entries[node]? := by
  unfold offer
  by_cases hnode : a.node = node
  · have hput : (ledger.put a).entries[node]? = some a := by
      rw [put, BTreeMap.getElem?_insert_ite, if_pos hnode]
    rw [if_pos hnode, ← hnode]
    cases hheld : ledger.entries[a.node]? with
    | none =>
        dsimp only
        rw [hnode, hput]
    | some held =>
        have hage : held.age ≤ a.age ↔
            a.issuedAt.millis ≤ held.issuedAt.millis := by
          rw [CapabilityAdvertisement.age, CapabilityAdvertisement.age,
            Int64.le_iff_toInt_le]
          omega
        dsimp only
        split
        · next hle =>
            rw [Register.pick, if_pos (hage.2 hle), hheld]
        · next hlt =>
            rw [Register.pick, if_neg fun hle => hlt (hage.1 hle), hnode, hput]
  · have hput : (ledger.put a).entries[node]? = ledger.entries[node]? := by
      rw [put, BTreeMap.getElem?_insert_ite, if_neg hnode]
    rw [if_neg hnode]
    split
    · split
      · rfl
      · exact hput
    · exact hput

/-! ## Every node's register -/

/-- The valid advertisements of a node among those received. -/
def offered (C : Crypto) (network : NetworkId) (state : GovernanceState)
    (s : Set CapabilityAdvertisement) (node : PerNetworkIdentityId) :
    Set CapabilityAdvertisement :=
  {a | a ∈ s ∧ a.Valid C network state ∧ a.node = node}

/-- A ledger that has received the advertisements in `s`. -/
structure Received (C : Crypto) (network : NetworkId) (state : GovernanceState)
    (s : Set CapabilityAdvertisement) (ledger : CapabilityLedger) : Prop where
  here : ledger.network = network
  newest : ∀ node, Register.Keeps CapabilityAdvertisement.age
    (offered C network state s node) ledger.entries[node]?

theorem received_new (C : Crypto) (network : NetworkId)
    (state : GovernanceState) : Received C network state ∅ (new network) := by
  refine ⟨rfl, fun node => ?_⟩
  have hnone : (new network).entries[node]? = none := by simp [new]
  rw [hnone]
  exact Set.eq_empty_iff_forall_notMem.2 fun x hx => hx.1

variable {network : NetworkId} {s : Set CapabilityAdvertisement}

/-- A valid advertisement is one more for its node. -/
theorem offered_insert_of_valid (h : a.Valid C network state)
    (hnode : a.node = node) :
    offered C network state (Insert.insert a s) node =
      Insert.insert a (offered C network state s node) := by
  ext x
  constructor
  · intro hx
    obtain ⟨rfl | hx, hrest⟩ := hx
    · exact Or.inl rfl
    · exact Or.inr ⟨hx, hrest⟩
  · intro hx
    rcases hx with rfl | hx
    · exact ⟨Or.inl rfl, h, hnode⟩
    · exact ⟨Or.inr hx.1, hx.2⟩

/-- Any other changes nothing for the node. -/
theorem offered_insert_of_not
    (h : ¬ (a.Valid C network state ∧ a.node = node)) :
    offered C network state (Insert.insert a s) node =
      offered C network state s node := by
  ext x
  constructor
  · intro hx
    obtain ⟨rfl | hx, hrest⟩ := hx
    · exact absurd hrest h
    · exact ⟨hx, hrest⟩
  · intro hx
    exact ⟨Or.inr hx.1, hx.2⟩

theorem Received.receive (h : Received C network state s ledger)
    (a : CapabilityAdvertisement) :
    Received C network state (Insert.insert a s)
      (ledger.receive C state a) := by
  refine ⟨(receive_network ledger a).trans h.here, fun node => ?_⟩
  have hnewest := h.newest node
  by_cases hcount : a.Valid C network state ∧ a.node = node
  · have hvalid : a.Valid C ledger.network state := by
      rw [h.here]
      exact hcount.1
    rw [offered_insert_of_valid hcount.1 hcount.2, receive_of_valid hvalid,
      getElem?_offer, if_pos hcount.2]
    cases hheld : ledger.entries[node]? with
    | none =>
        rw [hheld] at hnewest
        exact hnewest.first
    | some held =>
        rw [hheld] at hnewest
        exact hnewest.pick
  · have hsame : (ledger.receive C state a).entries[node]? =
        ledger.entries[node]? := by
      by_cases hvalid : a.Valid C ledger.network state
      · rw [receive_of_valid hvalid, getElem?_offer, if_neg]
        intro hnode
        rw [h.here] at hvalid
        exact hcount ⟨hvalid, hnode⟩
      · rw [receive_of_not_valid hvalid]
    rw [offered_insert_of_not hcount, hsame]
    exact hnewest

theorem Received.receiveAll (h : Received C network state s ledger)
    (ads : List CapabilityAdvertisement) :
    Received C network state (s ∪ {a | a ∈ ads})
      (ledger.receiveAll C state ads) :=
  Register.foldl_collect (P := Received C network state)
    (fun _ _ a _ hreceived => hreceived.receive a) h

theorem received_receiveAll (C : Crypto) (network : NetworkId)
    (state : GovernanceState) (ads : List CapabilityAdvertisement) :
    Received C network state {a | a ∈ ads}
      ((new network).receiveAll C state ads) := by
  have h := (received_new C network state).receiveAll ads
  rwa [Set.empty_union] at h

/-! ## Convergence -/

/-- One of the newest valid advertisements of its node. -/
def Newest (C : Crypto) (network : NetworkId) (state : GovernanceState)
    (ads : List CapabilityAdvertisement) (a : CapabilityAdvertisement) : Prop :=
  a ∈ ads ∧ a.Valid C network state ∧
    ∀ b ∈ ads, b.Valid C network state → b.node = a.node →
      b.issuedAt.millis ≤ a.issuedAt.millis

/-- Two lists of the same advertisements, in any order and with any
repetitions. -/
def SameAds (l l' : List CapabilityAdvertisement) : Prop :=
  ∀ a, a ∈ l ↔ a ∈ l'

/-- One advertisement per node, one of the newest, for every node that has a
valid one. -/
def HoldsNewest (C : Crypto) (network : NetworkId) (state : GovernanceState)
    (ads : List CapabilityAdvertisement) (ledger : CapabilityLedger) : Prop :=
  ∀ node, (∃ a, ledger.entries[node]? = some a ∧ a.node = node ∧
      Newest C network state ads a) ∨
    (ledger.entries[node]? = none ∧
      ∀ a ∈ ads, a.Valid C network state → a.node ≠ node)

theorem le_age_iff {a b : CapabilityAdvertisement} :
    a.age ≤ b.age ↔ b.issuedAt.millis ≤ a.issuedAt.millis := by
  rw [CapabilityAdvertisement.age, CapabilityAdvertisement.age,
    Int64.le_iff_toInt_le]
  omega

theorem Received.holdsNewest {ads : List CapabilityAdvertisement}
    (h : Received C network state {a | a ∈ ads} ledger) :
    HoldsNewest C network state ads ledger := by
  intro node
  have hkeeps := h.newest node
  cases hheld : ledger.entries[node]? with
  | none =>
      rw [hheld] at hkeeps
      refine Or.inr ⟨rfl, fun a ha hvalid hnode => ?_⟩
      exact Set.eq_empty_iff_forall_notMem.1 hkeeps a ⟨ha, hvalid, hnode⟩
  | some a =>
      rw [hheld] at hkeeps
      obtain ⟨⟨ha, hvalid, hnode⟩, hleast⟩ := hkeeps
      refine Or.inl ⟨a, rfl, hnode, ha, hvalid, fun b hb hb' hbnode => ?_⟩
      exact le_age_iff.1 (hleast b ⟨hb, hb', hbnode.trans hnode⟩)

/-- Where a node's newest advertisement is one, it is the one held. -/
theorem Received.entries_eq {ads : List CapabilityAdvertisement}
    (hone : ∀ a b, Newest C network state ads a →
      Newest C network state ads b → a.node = b.node → a = b)
    {ledger' : CapabilityLedger}
    (h : Received C network state {a | a ∈ ads} ledger)
    (h' : Received C network state {a | a ∈ ads} ledger') :
    ledger.entries = ledger'.entries := by
  refine Std.ExtTreeMap.ext_getElem? fun node => ?_
  refine (h.newest node).unique_of_least ?_ (h'.newest node)
  intro a ha b hb hleast hleast'
  obtain ⟨hmem, hvalid, hnode⟩ := ha
  obtain ⟨hmem', hvalid', hnode'⟩ := hb
  refine hone a b ⟨hmem, hvalid, fun c hc hcv hcn => ?_⟩
    ⟨hmem', hvalid', fun c hc hcv hcn => ?_⟩ (hnode.trans hnode'.symm)
  · exact le_age_iff.1 (hleast c ⟨hc, hcv, hcn.trans hnode⟩)
  · exact le_age_iff.1 (hleast' c ⟨hc, hcv, hcn.trans hnode'⟩)

/-- The first of the newest advertisements stays. -/
theorem receiveAll_cons_newest {ads l : List CapabilityAdvertisement}
    (hnewest : Newest C network state ads a) (hl : ∀ b ∈ l, b ∈ ads) :
    ((new network).receiveAll C state (a :: l)).entries[a.node]? = some a := by
  have hkeep : ∀ ledger : CapabilityLedger, ledger.network = network →
      ledger.entries[a.node]? = some a →
      (ledger.receiveAll C state l).entries[a.node]? = some a := by
    induction l with
    | nil => exact fun _ _ h => h
    | cons b l ih =>
        intro ledger hhere hheld
        refine ih (fun c hc => hl c (List.mem_cons_of_mem b hc)) _
          ((receive_network ledger b).trans hhere) ?_
        by_cases hvalid : b.Valid C ledger.network state
        · rw [receive_of_valid hvalid, getElem?_offer]
          split
          · next hnode =>
              rw [hhere] at hvalid
              rw [hheld]
              refine congrArg some (if_pos (le_age_iff.2 ?_))
              exact hnewest.2.2 b (hl b List.mem_cons_self) hvalid hnode
          · exact hheld
        · rw [receive_of_not_valid hvalid, hheld]
  refine hkeep _ (receive_network _ a) ?_
  have hnone : (new network).entries[a.node]? = none := by simp [new]
  rw [receive_of_valid hnewest.2.1, getElem?_offer, if_pos rfl, hnone]

/-- Ledgers that received the same advertisements agree, whatever the order,
exactly when no node has two different newest ones. -/
theorem ledgers_converge_iff (C : Crypto) (network : NetworkId)
    (state : GovernanceState) (ads : List CapabilityAdvertisement) :
    (∀ l l', SameAds l ads → SameAds l' ads →
      let ledger := (new network).receiveAll C state l
      let ledger' := (new network).receiveAll C state l'
      HoldsNewest C network state ads ledger ∧
        ledger.entries = ledger'.entries ∧
        ∀ key count,
          ledger.selectReplicas C key count =
            ledger'.selectReplicas C key count ∧
          ledger.selectStreamTier C key count =
            ledger'.selectStreamTier C key count) ↔
      ∀ a b, Newest C network state ads a → Newest C network state ads b →
        a.node = b.node → a = b := by
  constructor
  · intro h a b ha hb hnode
    have hsame : ∀ c ∈ ads, SameAds (c :: ads) ads := by
      intro c hc x
      rw [List.mem_cons]
      constructor
      · intro hx
        rcases hx with rfl | hx
        · exact hc
        · exact hx
      · exact Or.inr
    have hentries := (h (a :: ads) (b :: ads) (hsame a ha.1)
      (hsame b hb.1)).2.1
    have hheld := receiveAll_cons_newest ha fun _ hc => hc
    rw [hentries, hnode, receiveAll_cons_newest hb fun _ hc => hc] at hheld
    exact (Option.some.inj hheld).symm
  · intro hone l l' hl hl'
    have hreceived : ∀ l, SameAds l ads → Received C network state
        {a | a ∈ ads} ((new network).receiveAll C state l) := by
      intro l hl
      have hset : {a | a ∈ l} = {a | a ∈ ads} := Set.ext hl
      rw [← hset]
      exact received_receiveAll C network state l
    have hentries := (hreceived l hl).entries_eq hone (hreceived l' hl')
    refine ⟨(hreceived l hl).holdsNewest, hentries, fun key count => ?_⟩
    rw [selectReplicas, selectReplicas, selectStreamTier, selectStreamTier,
      storageCandidates, storageCandidates, mediaRelayCandidates,
      mediaRelayCandidates, hentries]
    exact ⟨rfl, rfl⟩

/-- A network with the given members. -/
def sampleState (members : List ℕ) : GovernanceState where
  network := Sample.network
  policy := .conservativeDefault
  groups := (∅ : BTreeMap GroupId Group).insert GroupId.everyone
    { Group.new GroupId.everyone (.explicit ∅) with
      members := Std.ExtTreeMap.ofList
        (members.map fun n => (Sample.identity n, ⟨none, ⟨0⟩, none⟩)) compare }
  deviceCertificates := ∅
  revokedDevices := ∅
  delisted := ∅
  epoch := 0
  appNames := ∅
  openVotes := ∅
  passedVotes := ∅
  epochRotationRef := none

/-- What node `n` offers, in bytes of storage. -/
def sampleAd (n : ℕ) (storage : UInt64) (issuedAt : Int64) :
    CapabilityAdvertisement :=
  ⟨Sample.network, Sample.identity n, storage, ⟨0, 0, none⟩, false, false,
    .minimal, ⟨issuedAt⟩, Sample.signature n 0⟩

/-- Two advertisements of one instant: whichever arrives first stands. -/
theorem ledgers_diverge :
    ¬ ∀ (C : Crypto) (network : NetworkId) (state : GovernanceState)
        (l l' : List CapabilityAdvertisement), SameAds l l' →
      ((new network).receiveAll C state l).entries =
        ((new network).receiveAll C state l').entries := by
  intro h
  have hentries := h .sample Sample.network (sampleState [1])
    [sampleAd 1 100 0, sampleAd 1 200 0] [sampleAd 1 200 0, sampleAd 1 100 0]
    fun a => by simp [or_comm]
  have hfirst : ((new Sample.network).receiveAll .sample (sampleState [1])
      [sampleAd 1 100 0, sampleAd 1 200 0]).entries[Sample.identity 1]? =
        some (sampleAd 1 100 0) := by
    decide +kernel
  have hsecond : ((new Sample.network).receiveAll .sample (sampleState [1])
      [sampleAd 1 200 0, sampleAd 1 100 0]).entries[Sample.identity 1]? =
        some (sampleAd 1 200 0) := by
    decide +kernel
  rw [hentries, hsecond] at hfirst
  exact absurd (Option.some.inj hfirst) (by decide)

end CapabilityLedger

end Intranet
