import Intranet.Lib.Machine
import Intranet.Ref.Circuits

/-!
# The recorded tier against the open connections

The swarm's open connections run beside the node's record (`TierRun`), each
with whether the node has asked to close it. `Recorded` is the invariant: a
peer with a direct connection that is to stay is not recorded as relayed, one
with only circuits that are to stay is recorded as relayed and has a deadline,
and deadlines are kept for relayed peers only.

The record is not renewed when a connection closes and others remain, and a
failed upgrade disconnects the peer whatever connections it has. `Renewed` is
what an event has to meet for the record to stay right.
-/

namespace Intranet

/-- An open connection, and whether the node has asked to close it. -/
structure OpenConnection where
  id : ConnectionId
  peer : PeerId
  circuit : Bool
  asked : Bool
deriving DecidableEq

/-- What the swarm does on an ask: the connections in question are to close. -/
def TierAsk.marks (ask : TierAsk) (x : OpenConnection) : Bool :=
  match ask with
  | .closeConnection connection => x.id = connection
  | .disconnectPeer peer => x.peer = peer
  | .sync _ => false

def TierAsk.apply (opened : List OpenConnection) (ask : TierAsk) :
    List OpenConnection :=
  opened.map fun x => { x with asked := x.asked || ask.marks x }

/-- A node, the open connections, and the peers that ever had a circuit. -/
structure TierRun where
  node : NodeTiers
  opened : List OpenConnection
  circuits : List PeerId
deriving DecidableEq

inductive TierEvent where
  | established (id : ConnectionId) (peer : PeerId) (endpoint : Endpoint)
      (now : ℕ)
  | closed (id : ConnectionId) (peer : PeerId)
  | dcutr (peer : PeerId) (ok : Bool)
  | sweep (now : ℕ)
deriving DecidableEq

/-- Some connection to a peer of one kind is to stay open. -/
def Stays (opened : List OpenConnection) (peer : PeerId) (circuit : Bool) :
    Prop :=
  ∃ x ∈ opened, x.peer = peer ∧ x.circuit = circuit ∧ x.asked = false

instance (opened : List OpenConnection) (peer : PeerId) (circuit : Bool) :
    Decidable (Stays opened peer circuit) :=
  inferInstanceAs (Decidable (∃ x ∈ opened,
    x.peer = peer ∧ x.circuit = circuit ∧ x.asked = false))

namespace TierRun

def start (circuitUpgradeDeadline : ℕ) : TierRun :=
  ⟨.new circuitUpgradeDeadline, [], []⟩

/-- The connections that stay when one is gone. -/
def without (opened : List OpenConnection) (id : ConnectionId) (peer : PeerId) :
    List OpenConnection :=
  opened.filter fun x => !(x.id = id && x.peer = peer)

/-- One event. -/
def step (s : TierRun) : TierEvent → TierRun
  | .established id peer endpoint now =>
      let (asks, _, node) := s.node.connectionEstablished peer id endpoint now
      let circuit := endpoint.tier.relayInDataPath
      { s with
        node := node
        opened := asks.foldl TierAsk.apply
          (⟨id, peer, circuit, false⟩ :: s.opened)
        circuits := if circuit then peer :: s.circuits else s.circuits }
  | .closed id peer =>
      let left := without s.opened id peer
      let (_, node) := s.node.connectionClosed peer
        (left.countP fun x => x.peer = peer)
      { s with node := node, opened := left }
  | .dcutr peer ok =>
      let (asks, _, node) := s.node.dcutr peer ok
      { s with node := node, opened := asks.foldl TierAsk.apply s.opened }
  | .sweep now =>
      let (_, asks, node) := s.node.closeStaleCircuit now
      { s with node := node, opened := asks.foldl TierAsk.apply s.opened }

/-- When an event can come: ids are unique, what closes is open, an upgrade
succeeds when a direct connection exists and fails after a circuit existed. -/
def Allows (s : TierRun) : TierEvent → Prop
  | .established id _ _ _ => ∀ x ∈ s.opened, x.id ≠ id
  | .closed id peer => ∃ x ∈ s.opened, x.id = id ∧ x.peer = peer
  | .dcutr peer true => ∃ x ∈ s.opened, x.peer = peer ∧ x.circuit = false
  | .dcutr peer false => peer ∈ s.circuits
  | .sweep _ => True

/-- No direct connection closes as the last of its peer while circuits stay,
and an upgrade is reported for what stays: a success with a direct connection
beside the circuits, a failure with none. -/
def Renewed (s : TierRun) : TierEvent → Prop
  | .closed id peer => Stays s.opened peer false →
      Stays (without s.opened id peer) peer true →
        Stays (without s.opened id peer) peer false
  | .dcutr peer true => Stays s.opened peer true → Stays s.opened peer false
  | .dcutr peer false => ¬Stays s.opened peer false
  | _ => True

instance (s : TierRun) : (event : TierEvent) → Decidable (s.Allows event)
  | .established id _ _ _ =>
      inferInstanceAs (Decidable (∀ x ∈ s.opened, x.id ≠ id))
  | .closed id peer =>
      inferInstanceAs (Decidable (∃ x ∈ s.opened, x.id = id ∧ x.peer = peer))
  | .dcutr peer true =>
      inferInstanceAs
        (Decidable (∃ x ∈ s.opened, x.peer = peer ∧ x.circuit = false))
  | .dcutr peer false => inferInstanceAs (Decidable (peer ∈ s.circuits))
  | .sweep _ => inferInstanceAs (Decidable True)

instance (s : TierRun) : (event : TierEvent) → Decidable (s.Renewed event)
  | .closed id peer =>
      inferInstanceAs (Decidable (Stays s.opened peer false →
        Stays (without s.opened id peer) peer true →
          Stays (without s.opened id peer) peer false))
  | .dcutr peer true =>
      inferInstanceAs (Decidable
        (Stays s.opened peer true → Stays s.opened peer false))
  | .dcutr peer false =>
      inferInstanceAs (Decidable (¬Stays s.opened peer false))
  | .established .. | .sweep _ => inferInstanceAs (Decidable True)

/-- The invariant of the record. -/
structure Recorded (node : NodeTiers) (opened : List OpenConnection) :
    Prop where
  direct : ∀ peer, Stays opened peer false →
    ∃ tier, node.tiers[peer]? = some tier ∧ tier ≠ .relayed
  circuit : ∀ peer, Stays opened peer true → ¬Stays opened peer false →
    node.tiers[peer]? = some .relayed ∧ peer ∈ node.relayedSince
  deadlines : ∀ peer ∈ node.relayedSince, node.tiers[peer]? = some .relayed

variable {opened : List OpenConnection} {peer : PeerId} {circuit : Bool}
  {node : NodeTiers}

/-! ## What stays open -/

theorem stays_apply {ask : TierAsk} :
    Stays (ask.apply opened) peer circuit ↔ ∃ x ∈ opened,
      x.peer = peer ∧ x.circuit = circuit ∧ x.asked = false ∧
        ask.marks x = false := by
  simp only [Stays, TierAsk.apply, List.mem_map]
  constructor
  · rintro ⟨-, ⟨x, hx, rfl⟩, hpeer, hcircuit, hasked⟩
    rw [Bool.or_eq_false_iff] at hasked
    exact ⟨x, hx, hpeer, hcircuit, hasked.1, hasked.2⟩
  · rintro ⟨x, hx, hpeer, hcircuit, hasked, hmarks⟩
    exact ⟨_, ⟨x, hx, rfl⟩, hpeer, hcircuit, by simp [hasked, hmarks]⟩

theorem stays_sync {other : PeerId} :
    Stays ((TierAsk.sync other).apply opened) peer circuit ↔
      Stays opened peer circuit := by
  rw [stays_apply]
  simp [Stays, TierAsk.marks]

/-- A peer that is disconnected has nothing that stays. -/
theorem stays_disconnect {other : PeerId} :
    Stays ((TierAsk.disconnectPeer other).apply opened) peer circuit ↔
      Stays opened peer circuit ∧ peer ≠ other := by
  rw [stays_apply]
  constructor
  · rintro ⟨x, hx, rfl, hcircuit, hasked, hmarks⟩
    exact ⟨⟨x, hx, rfl, hcircuit, hasked⟩, of_decide_eq_false hmarks⟩
  · rintro ⟨⟨x, hx, rfl, hcircuit, hasked⟩, hne⟩
    exact ⟨x, hx, rfl, hcircuit, hasked, decide_eq_false hne⟩

theorem stays_cons {x : OpenConnection} :
    Stays (x :: opened) peer circuit ↔
      (x.peer = peer ∧ x.circuit = circuit ∧ x.asked = false) ∨
        Stays opened peer circuit := by
  simp [Stays]

/-- A connection closed as soon as it is made changes nothing. -/
theorem stays_refused {x : OpenConnection} (hnew : ∀ y ∈ opened, y.id ≠ x.id) :
    Stays ((TierAsk.closeConnection x.id).apply (x :: opened)) peer circuit ↔
      Stays opened peer circuit := by
  rw [stays_apply]
  constructor
  · rintro ⟨y, hy, hpeer, hcircuit, hasked, hmarks⟩
    rcases List.mem_cons.1 hy with rfl | hold
    · simp [TierAsk.marks] at hmarks
    · exact ⟨y, hold, hpeer, hcircuit, hasked⟩
  · rintro ⟨y, hy, hpeer, hcircuit, hasked⟩
    exact ⟨y, List.mem_cons_of_mem _ hy, hpeer, hcircuit, hasked,
      decide_eq_false (hnew y hy)⟩

theorem stays_without {id : ConnectionId} {other : PeerId}
    (h : Stays (without opened id other) peer circuit) :
    Stays opened peer circuit := by
  obtain ⟨x, hx, hrest⟩ := h
  exact ⟨x, (List.mem_filter.1 hx).1, hrest⟩

/-- The connections of other peers stay. -/
theorem stays_without_other {id : ConnectionId} {other : PeerId}
    (hne : peer ≠ other) (h : Stays opened peer circuit) :
    Stays (without opened id other) peer circuit := by
  obtain ⟨x, hx, hpeer, hrest⟩ := h
  refine ⟨x, List.mem_filter.2 ⟨hx, ?_⟩, hpeer, hrest⟩
  simp [hpeer, hne]

/-! ## The record after each event -/

theorem recorded_start (circuitUpgradeDeadline : ℕ) :
    Recorded (.new circuitUpgradeDeadline) [] where
  direct peer h := by
    obtain ⟨x, hx, -⟩ := h
    cases hx
  circuit peer h := by
    obtain ⟨x, hx, -⟩ := h
    cases hx
  deadlines peer h := by simp [NodeTiers.new] at h

namespace Recorded

/-- Only one peer's connections and record change. -/
theorem of_peer {node' : NodeTiers} {opened' : List OpenConnection}
    (h : Recorded node opened) (peer : PeerId)
    (hstays : ∀ other circuit, other ≠ peer →
      (Stays opened' other circuit ↔ Stays opened other circuit))
    (htiers : ∀ other, other ≠ peer →
      node'.tiers[other]? = node.tiers[other]?)
    (hsince : ∀ other, other ≠ peer →
      (other ∈ node'.relayedSince ↔ other ∈ node.relayedSince))
    (hdirect : Stays opened' peer false →
      ∃ tier, node'.tiers[peer]? = some tier ∧ tier ≠ .relayed)
    (hcircuit : Stays opened' peer true → ¬Stays opened' peer false →
      node'.tiers[peer]? = some .relayed ∧ peer ∈ node'.relayedSince)
    (hdeadline : peer ∈ node'.relayedSince →
      node'.tiers[peer]? = some .relayed) : Recorded node' opened' where
  direct other hother := by
    by_cases hpeer : other = peer
    · exact hpeer ▸ hdirect (hpeer ▸ hother)
    · rw [htiers other hpeer]
      exact h.direct other ((hstays other false hpeer).1 hother)
  circuit other hother hnone := by
    by_cases hpeer : other = peer
    · exact hpeer ▸ hcircuit (hpeer ▸ hother) (hpeer ▸ hnone)
    · rw [htiers other hpeer, hsince other hpeer]
      rw [hstays other _ hpeer] at hother hnone
      exact h.circuit other hother hnone
  deadlines other hother := by
    by_cases hpeer : other = peer
    · exact hpeer ▸ hdeadline (hpeer ▸ hother)
    · rw [htiers other hpeer]
      exact h.deadlines other ((hsince other hpeer).1 hother)

end Recorded

theorem tiers_insert_other {tiers : BTreeMap PeerId ConnectionTier}
    {other : PeerId} {tier : ConnectionTier} (hne : other ≠ peer) :
    (tiers.insert peer tier)[other]? = tiers[other]? := by
  rw [BTreeMap.getElem?_insert_ite, if_neg (Ne.symm hne)]

theorem tiers_erase_other {tiers : BTreeMap PeerId ConnectionTier}
    {other : PeerId} (hne : other ≠ peer) :
    (tiers.erase peer)[other]? = tiers[other]? := by
  rw [BTreeMap.getElem?_erase_ite, if_neg (Ne.symm hne)]

theorem since_erase_other {since : BTreeMap PeerId ℕ} {other : PeerId}
    (hne : other ≠ peer) : other ∈ since.erase peer ↔ other ∈ since := by
  rw [Std.ExtTreeMap.mem_erase]
  simpa using fun _ => Ne.symm hne

theorem not_mem_since_erase {since : BTreeMap PeerId ℕ} :
    peer ∉ since.erase peer := by
  simp

/-- A tier a connection upgrades to is relayed only for a circuit. -/
theorem upgraded_relayed (known : Option ConnectionTier)
    {tier : ConnectionTier} (h : tier.relayInDataPath = false) :
    (NodeTiers.upgraded known tier).relayInDataPath = false := by
  unfold NodeTiers.upgraded
  split
  · rw [h]
    rfl
  · rw [h]
    rfl
  · exact h

theorem upgraded_circuit {known : Option ConnectionTier}
    {tier : ConnectionTier} (h : tier.relayInDataPath = true) :
    NodeTiers.upgraded known tier = tier := by
  unfold NodeTiers.upgraded
  split
  · rw [h]
    rfl
  · rw [h]
    rfl
  · rfl

theorem relayInDataPath_iff {tier : ConnectionTier} :
    tier.relayInDataPath = true ↔ tier = .relayed := decide_eq_true_iff

section

variable {id : ConnectionId} {endpoint : Endpoint} {now : ℕ}

/-- A circuit to a peer reached without one. -/
theorem established_refused (hcircuit : endpoint.tier.relayInDataPath = true)
    (hknown : node.tiers[peer]?.any
      (fun known => !known.relayInDataPath) = true) :
    node.connectionEstablished peer id endpoint now =
      ([.closeConnection id], none, node) := by
  simp only [NodeTiers.connectionEstablished]
  rw [hcircuit, hknown]
  rfl

theorem established_circuit (hcircuit : endpoint.tier.relayInDataPath = true)
    (hknown : node.tiers[peer]?.any
      (fun known => !known.relayInDataPath) = false) :
    node.connectionEstablished peer id endpoint now =
      ([], some (.connected peer .relayed endpoint.remoteAddress),
        { node with
          tiers := node.tiers.insert peer .relayed
          relayedSince :=
            if node.relayedSince.contains peer then node.relayedSince
            else node.relayedSince.insert peer now }) := by
  have htier := relayInDataPath_iff.1 hcircuit
  simp only [NodeTiers.connectionEstablished]
  rw [upgraded_circuit hcircuit, hknown, htier]
  rfl

theorem established_direct (node : NodeTiers) (peer : PeerId)
    (id : ConnectionId) (now : ℕ)
    (hdirect : endpoint.tier.relayInDataPath = false) :
    ∃ tier : ConnectionTier, tier ≠ .relayed ∧
      node.connectionEstablished peer id endpoint now =
        ([.sync peer], some (.connected peer tier endpoint.remoteAddress),
          { node with
            tiers := node.tiers.insert peer tier
            relayedSince := node.relayedSince.erase peer }) := by
  have hupgraded := upgraded_relayed node.tiers[peer]? hdirect
  refine ⟨NodeTiers.upgraded node.tiers[peer]? endpoint.tier, ?_, ?_⟩
  · intro heq
    rw [heq] at hupgraded
    cases hupgraded
  · simp only [NodeTiers.connectionEstablished]
    rw [hdirect, hupgraded]
    rfl

end

namespace Recorded

variable {id : ConnectionId} {endpoint : Endpoint} {now : ℕ}

theorem congr (h : Recorded node opened) (opened' : List OpenConnection)
    (hstays : ∀ peer circuit,
      Stays opened' peer circuit ↔ Stays opened peer circuit) :
    Recorded node opened' where
  direct peer hpeer := h.direct peer ((hstays peer false).1 hpeer)
  circuit peer hpeer hnone := by
    rw [hstays] at hpeer hnone
    exact h.circuit peer hpeer hnone
  deadlines := h.deadlines

/-- A peer that is known as reached without a circuit, or not. -/
theorem not_direct (h : Recorded node opened)
    (hknown : node.tiers[peer]?.any
      (fun known => !known.relayInDataPath) = false) :
    ¬Stays opened peer false := by
  intro hstays
  obtain ⟨tier, htier, hne⟩ := h.direct peer hstays
  rw [htier] at hknown
  simp [ConnectionTier.relayInDataPath, hne] at hknown

/-- A circuit that is not refused: its peer is known by no connection without
one, and the time of its first circuit is noted. -/
theorem established_as_circuit (h : Recorded node opened)
    (hcircuit : endpoint.tier.relayInDataPath = true)
    (hknown : node.tiers[peer]?.any
      (fun known => !known.relayInDataPath) = false) :
    let reaction := node.connectionEstablished peer id endpoint now
    Recorded reaction.2.2 (reaction.1.foldl TierAsk.apply
      (⟨id, peer, true, false⟩ :: opened)) := by
  have hnone := h.not_direct hknown
  rw [established_circuit hcircuit hknown]
  refine h.of_peer peer ?_ ?_ ?_ ?_ ?_ ?_
  · intro other circuit hne
    rw [List.foldl_nil, stays_cons]
    simp [Ne.symm hne]
  · intro other hne
    exact tiers_insert_other hne
  · intro other hne
    dsimp only
    split
    · rfl
    · simp [Ne.symm hne]
  · intro hstays
    rw [List.foldl_nil, stays_cons] at hstays
    simp [hnone] at hstays
  · intro _ _
    dsimp only
    refine ⟨by simp, ?_⟩
    split
    · next hheld => exact Std.ExtTreeMap.contains_iff_mem.1 hheld
    · simp
  · intro _
    simp

/-- A connection without a circuit: its peer is known by it, and no time of a
circuit is kept. -/
theorem established_as_direct (h : Recorded node opened)
    (hdirect : endpoint.tier.relayInDataPath = false) :
    let reaction := node.connectionEstablished peer id endpoint now
    Recorded reaction.2.2 (reaction.1.foldl TierAsk.apply
      (⟨id, peer, false, false⟩ :: opened)) := by
  obtain ⟨tier, hne, heq⟩ := established_direct node peer id now hdirect
  rw [heq]
  have hstays : ∀ other circuit, Stays
      ([TierAsk.sync peer].foldl TierAsk.apply
        (⟨id, peer, false, false⟩ :: opened)) other circuit ↔
      (peer = other ∧ false = circuit ∧ false = false) ∨
        Stays opened other circuit := by
    intro other circuit
    rw [List.foldl_cons, List.foldl_nil, stays_sync, stays_cons]
  refine h.of_peer peer ?_ ?_ ?_ ?_ ?_ ?_
  · intro other circuit hother
    rw [hstays]
    simp [Ne.symm hother]
  · intro other hother
    exact tiers_insert_other hother
  · intro other hother
    exact since_erase_other hother
  · intro _
    exact ⟨tier, by simp, hne⟩
  · intro _ hnone
    rw [hstays] at hnone
    simp at hnone
  · intro hmem
    exact absurd hmem not_mem_since_erase

theorem established (h : Recorded node opened)
    (hnew : ∀ x ∈ opened, x.id ≠ id) :
    let reaction := node.connectionEstablished peer id endpoint now
    Recorded reaction.2.2 (reaction.1.foldl TierAsk.apply
      (⟨id, peer, endpoint.tier.relayInDataPath, false⟩ :: opened)) := by
  cases hcircuit : endpoint.tier.relayInDataPath with
  | true =>
      cases hknown : node.tiers[peer]?.any
          fun known => !known.relayInDataPath with
      | true =>
          rw [established_refused hcircuit hknown]
          exact h.congr _ fun other circuit =>
            stays_refused (x := ⟨id, peer, true, false⟩) hnew
      | false => exact h.established_as_circuit hcircuit hknown
  | false => exact h.established_as_direct hcircuit

theorem closed (h : Recorded node opened)
    (hrenewed : Stays opened peer false →
      Stays (without opened id peer) peer true →
        Stays (without opened id peer) peer false) :
    Recorded (node.connectionClosed peer
      ((without opened id peer).countP fun x => x.peer = peer)).2
        (without opened id peer) := by
  have hothers : ∀ other circuit, other ≠ peer →
      (Stays (without opened id peer) other circuit ↔
        Stays opened other circuit) :=
    fun other circuit hne => ⟨stays_without, stays_without_other hne⟩
  unfold NodeTiers.connectionClosed
  split
  · refine h.of_peer peer hothers (fun _ _ => rfl) (fun _ _ => Iff.rfl) ?_ ?_
      (h.deadlines peer)
    · intro hstays
      exact h.direct peer (stays_without hstays)
    · intro hstays hnone
      refine h.circuit peer (stays_without hstays) fun hdirect => ?_
      exact hnone (hrenewed hdirect hstays)
  · next hcount =>
    have hgone : ∀ circuit, ¬Stays (without opened id peer) peer circuit := by
      rintro circuit ⟨x, hx, hpeer, -⟩
      exact hcount (List.countP_pos_iff.2 ⟨x, hx, decide_eq_true hpeer⟩)
    refine h.of_peer peer hothers ?_ ?_ ?_ ?_ ?_
    · intro other hne
      exact tiers_erase_other hne
    · intro other hne
      exact since_erase_other hne
    · intro hstays
      exact absurd hstays (hgone false)
    · intro hstays
      exact absurd hstays (hgone true)
    · intro hmem
      exact absurd hmem not_mem_since_erase

/-- An upgrade succeeded. -/
theorem dcutr_ok (h : Recorded node opened)
    (hrenewed : Stays opened peer true → Stays opened peer false) :
    let reaction := node.dcutr peer true
    Recorded reaction.2.2 (reaction.1.foldl TierAsk.apply opened) := by
  have hsame := h.congr ((TierAsk.sync peer).apply opened)
    fun other circuit => stays_sync
  refine hsame.of_peer peer (fun _ _ _ => Iff.rfl) ?_ ?_ ?_ ?_ ?_
  · intro other hne
    exact tiers_insert_other hne
  · intro other hne
    exact since_erase_other hne
  · intro _
    exact ⟨.holePunched, by simp [NodeTiers.dcutr], by simp⟩
  · intro hstays hnone
    change Stays ((TierAsk.sync peer).apply opened) peer true at hstays
    change ¬Stays ((TierAsk.sync peer).apply opened) peer false at hnone
    rw [stays_sync] at hstays hnone
    exact absurd (hrenewed hstays) hnone
  · intro hmem
    exact absurd hmem not_mem_since_erase

/-- A peer is disconnected and forgotten. -/
theorem disconnected {node' : NodeTiers} (h : Recorded node opened)
    (htiers : node'.tiers = node.tiers.erase peer)
    (hsince : node'.relayedSince = node.relayedSince.erase peer) :
    Recorded node' ((TierAsk.disconnectPeer peer).apply opened) := by
  refine h.of_peer peer ?_ ?_ ?_ ?_ ?_ ?_
  · intro other circuit hne
    rw [stays_disconnect]
    exact and_iff_left hne
  · intro other hne
    rw [htiers]
    exact tiers_erase_other hne
  · intro other hne
    rw [hsince]
    exact since_erase_other hne
  · intro hstays
    exact absurd rfl (stays_disconnect.1 hstays).2
  · intro hstays
    exact absurd rfl (stays_disconnect.1 hstays).2
  · intro hmem
    rw [hsince] at hmem
    exact absurd hmem not_mem_since_erase

/-- One round of the sweep. -/
theorem closeStale (h : Recorded node opened) (peer : PeerId) :
    let reaction := node.closeStale peer
    Recorded reaction.2 (reaction.1.foldl TierAsk.apply opened) := by
  unfold NodeTiers.closeStale
  dsimp only
  split
  · next hne =>
    refine h.of_peer peer (fun _ _ _ => Iff.rfl) (fun _ _ => rfl) ?_
      (h.direct peer) ?_ ?_
    · intro other hother
      exact since_erase_other hother
    · intro hstays hnone
      exact absurd (h.circuit peer hstays hnone).1 hne
    · intro hmem
      exact absurd hmem not_mem_since_erase
  · exact h.disconnected rfl rfl

/-- A sweep disconnects nobody who has a direct connection. -/
theorem closeStale_keeps (h : Recorded node opened) {x : OpenConnection}
    (hx : x ∈ opened) (hcircuit : x.circuit = false) (hasked : x.asked = false) :
    x ∈ (node.closeStale peer).1.foldl TierAsk.apply opened := by
  unfold NodeTiers.closeStale
  dsimp only
  split
  · exact hx
  · next hrelayed =>
    rw [not_not] at hrelayed
    have hne : x.peer ≠ peer := by
      rintro rfl
      obtain ⟨tier, htier, hne⟩ := h.direct x.peer ⟨x, hx, rfl, hcircuit, hasked⟩
      rw [htier] at hrelayed
      exact hne (Option.some.inj hrelayed)
    refine List.mem_map.2 ⟨x, hx, ?_⟩
    simp [TierAsk.marks, hne]

end Recorded

/-! ## A sweep -/

/-- Asking only takes away from what stays. -/
theorem stays_of_asks {asks : List TierAsk}
    (h : Stays (asks.foldl TierAsk.apply opened) peer circuit) :
    Stays opened peer circuit := by
  induction asks generalizing opened with
  | nil => exact h
  | cons ask asks ih =>
      obtain ⟨x, hx, hpeer, hcircuit, hasked, -⟩ := stays_apply.1 (ih h)
      exact ⟨x, hx, hpeer, hcircuit, hasked⟩

/-- A round leaves its peer no circuit, unless it has a direct connection. -/
theorem closeStale_gone (h : Recorded node opened)
    (hnone : ¬Stays opened peer false) :
    ¬Stays ((node.closeStale peer).1.foldl TierAsk.apply opened) peer true := by
  unfold NodeTiers.closeStale
  dsimp only
  split
  · next hne =>
    intro hstays
    exact hne (h.circuit peer hstays hnone).1
  · intro hstays
    exact (stays_disconnect.1 hstays).2 rfl

/-- The rounds of a sweep, on the record and what has been asked so far. -/
def rounds (peers : List PeerId)
    (start : Option PeerId × List TierAsk × NodeTiers) :
    Option PeerId × List TierAsk × NodeTiers :=
  peers.foldl (fun (closed, asks, m) peer =>
    let (more, m) := m.closeStale peer
    (if more.isEmpty then closed else closed.or (some peer), asks ++ more, m))
    start

theorem rounds_cons (first : PeerId) (peers : List PeerId)
    (closed : Option PeerId) (asks : List TierAsk) (node : NodeTiers) :
    rounds (first :: peers) (closed, asks, node) =
      rounds peers
        (if (node.closeStale first).1.isEmpty then closed
          else closed.or (some first),
        asks ++ (node.closeStale first).1, (node.closeStale first).2) := rfl

theorem rounds_asks (peers : List PeerId) (closed : Option PeerId)
    (asks : List TierAsk) (node : NodeTiers) :
    asks <+: (rounds peers (closed, asks, node)).2.1 := by
  induction peers generalizing closed asks node with
  | nil => exact List.prefix_rfl
  | cons first peers ih =>
      rw [rounds_cons]
      exact (List.prefix_append _ _).trans (ih _ _ _)

/-- What a sweep comes to: the record is right, no direct connection is asked
to close, and no circuit of the peers it goes through stays on its own. -/
theorem rounds_recorded (peers : List PeerId) (closed : Option PeerId)
    (asks : List TierAsk) (node : NodeTiers)
    (h : Recorded node (asks.foldl TierAsk.apply opened)) :
    let done := rounds peers (closed, asks, node)
    Recorded done.2.2 (done.2.1.foldl TierAsk.apply opened) ∧
      (∀ x ∈ asks.foldl TierAsk.apply opened, x.circuit = false →
        x.asked = false → x ∈ done.2.1.foldl TierAsk.apply opened) ∧
      ∀ peer ∈ peers, ¬Stays opened peer false →
        ¬Stays (done.2.1.foldl TierAsk.apply opened) peer true := by
  induction peers generalizing closed asks node with
  | nil => exact ⟨h, fun _ hx _ _ => hx, fun _ hpeer => by cases hpeer⟩
  | cons first peers ih =>
      have happend : (asks ++ (node.closeStale first).1).foldl TierAsk.apply
          opened = (node.closeStale first).1.foldl TierAsk.apply
            (asks.foldl TierAsk.apply opened) := List.foldl_append
      have hnext := h.closeStale first
      dsimp only at hnext
      rw [← happend] at hnext
      rw [rounds_cons]
      obtain ⟨hrecorded, hkept, hswept⟩ := ih
        (if (node.closeStale first).1.isEmpty then closed
          else closed.or (some first)) _ _ hnext
      refine ⟨hrecorded, ?_, ?_⟩
      · intro x hx hcircuit hasked
        refine hkept x ?_ hcircuit hasked
        rw [happend]
        exact h.closeStale_keeps hx hcircuit hasked
      · intro peer hpeer hnone
        rcases List.mem_cons.1 hpeer with rfl | hrest
        · intro hstays
          obtain ⟨more, hmore⟩ := rounds_asks peers
            (if (node.closeStale peer).1.isEmpty then closed
              else closed.or (some peer))
            (asks ++ (node.closeStale peer).1) (node.closeStale peer).2
          rw [← hmore, List.foldl_append, happend] at hstays
          exact closeStale_gone h (fun hdirect => hnone (stays_of_asks hdirect))
            (stays_of_asks hstays)
        · exact hswept peer hrest hnone

/-! ## Runs -/

variable {s : TierRun} {deadline : ℕ} {events : List TierEvent}

theorem step_recorded (h : Recorded s.node s.opened) {event : TierEvent}
    (hallows : s.Allows event) (hrenewed : s.Renewed event) :
    Recorded (s.step event).node (s.step event).opened := by
  cases event with
  | established id peer endpoint now => exact h.established hallows
  | closed id peer => exact h.closed hrenewed
  | dcutr peer ok =>
      cases ok with
      | true => exact h.dcutr_ok hrenewed
      | false => exact h.disconnected rfl rfl
  | sweep now => exact (rounds_recorded _ none [] s.node h).1

/-- Where a node stands after some events. -/
def after (deadline : ℕ) (events : List TierEvent) : TierRun :=
  Machine.state (fun s event => ((), s.step event)) (start deadline) events

/-- Every event of a run meets a condition on the state before it. -/
def Always (deadline : ℕ) (condition : TierRun → TierEvent → Prop)
    (events : List TierEvent) : Prop :=
  Machine.Along (fun s event => ((), s.step event)) condition (start deadline)
    events

/-- A peer's open connections are circuits the node has not asked to close. -/
def OnlyCircuits (opened : List OpenConnection) (peer : PeerId) : Prop :=
  (∃ x ∈ opened, x.peer = peer) ∧
    ∀ x ∈ opened, x.peer = peer → x.circuit = true ∧ x.asked = false

/-- What the record is to say of the open connections, and what a sweep is to
do about them. -/
structure Faithful (s : TierRun) : Prop where
  direct : ∀ peer, Stays s.opened peer false →
    ∃ tier, s.node.tiers[peer]? = some tier ∧ tier ≠ .relayed
  spared : ∀ now, ∀ x ∈ s.opened, x.circuit = false → x.asked = false →
    x ∈ (s.step (.sweep now)).opened
  circuit : ∀ peer, OnlyCircuits s.opened peer →
    s.node.tiers[peer]? = some .relayed ∧
    ∃ since, s.node.relayedSince[peer]? = some since ∧
      ∀ now, s.node.circuitUpgradeDeadline ≤ now - since →
        ¬Stays (s.step (.sweep now)).opened peer true
  deadlines : ∀ peer ∈ s.node.relayedSince,
    s.node.tiers[peer]? = some .relayed

theorem OnlyCircuits.stays (h : OnlyCircuits opened peer) :
    Stays opened peer true ∧ ¬Stays opened peer false := by
  obtain ⟨⟨x, hx, hpeer⟩, hall⟩ := h
  refine ⟨⟨x, hx, hpeer, hall x hx hpeer⟩, ?_⟩
  rintro ⟨y, hy, hother, hcircuit, -⟩
  rw [(hall y hy hother).1] at hcircuit
  cases hcircuit

theorem Recorded.faithful (h : Recorded s.node s.opened) : Faithful s where
  direct := h.direct
  spared now := by
    have hrounds := rounds_recorded (s.node.expired now) none [] s.node h
    exact hrounds.2.1
  circuit peer honly := by
    obtain ⟨hstays, hnone⟩ := honly.stays
    obtain ⟨htier, hmem⟩ := h.circuit peer hstays hnone
    obtain ⟨since, hsince⟩ := (BTreeMap.mem_iff_exists _ _).1 hmem
    refine ⟨htier, since, hsince, fun now hnow => ?_⟩
    have hrounds := rounds_recorded (s.node.expired now) none [] s.node h
    refine hrounds.2.2 peer (List.mem_map.2 ⟨(peer, since), ?_, rfl⟩) hnone
    rw [List.mem_filter, BTreeMap.mem_toList_iff]
    exact ⟨hsince, decide_eq_true hnow⟩
  deadlines := h.deadlines

/-- No failed upgrade disconnects a peer with a direct connection. -/
def PunchesKept (deadline : ℕ) (events : List TierEvent) : Prop :=
  ∀ pre peer, pre ++ [.dcutr peer false] <+: events →
    ∀ x ∈ (after deadline pre).opened, x.peer = peer → x.circuit = false →
      x.asked = false →
      x ∈ (after deadline (pre ++ [.dcutr peer false])).opened

/-- The recorded tier is the tier of the connections. -/
theorem tiers_faithful (hallowed : Always deadline Allows events)
    (hrenewed : Always deadline Renewed events) :
    Faithful (after deadline events) ∧ PunchesKept deadline events := by
  constructor
  · refine Recorded.faithful ?_
    refine Machine.guarded (P := fun s : TierRun => Recorded s.node s.opened)
      (G := fun s event => s.Allows event ∧ s.Renewed event) ?_ ?_ ?_
    · exact recorded_start deadline
    · intro s event h hgiven
      exact step_recorded h hgiven.1 hgiven.2
    · intro pre event hpre
      exact ⟨hallowed pre event hpre, hrenewed pre event hpre⟩
  · intro pre peer hpre x hx hpeer hcircuit hasked
    exact absurd ⟨x, hx, hpeer, hcircuit, hasked⟩ (hrenewed pre _ hpre)

/-- A circuit is upgraded, and one of the two connections closes. -/
def upgradeThen (closing : ConnectionId) : List TierEvent :=
  [.established ⟨1⟩ ⟨[7]⟩ (.dialer [.p2pCircuit]) 0,
    .established ⟨2⟩ ⟨[7]⟩ (.dialer [.other [4]]) 10, .closed closing ⟨[7]⟩]

theorem tiers_faithful_upgrade :
    Faithful (after 25000 (upgradeThen ⟨1⟩)) ∧
      PunchesKept 25000 (upgradeThen ⟨1⟩) :=
  tiers_faithful (Machine.along_of_decide (by decide +kernel))
    (Machine.along_of_decide (by decide +kernel))

/-- A circuit is upgraded, and then one's own dial is reported as failed. -/
def upgradeFailed : List TierEvent :=
  [.established ⟨1⟩ ⟨[7]⟩ (.dialer [.p2pCircuit]) 0,
    .established ⟨2⟩ ⟨[7]⟩ (.dialer [.other [4]]) 10, .dcutr ⟨[7]⟩ false]

/-- If the direct connection closes first, the circuit has no deadline. A
failure of one's own dial tears down the connection the peer's dial made. -/
theorem circuit_outlives_record :
    (¬ ∀ events : List TierEvent, Always 25000 Allows events →
      Faithful (after 25000 events)) ∧
    ¬ ∀ events : List TierEvent, Always 25000 Allows events →
      PunchesKept 25000 events := by
  constructor
  · intro hall
    have hfaithful := hall (upgradeThen ⟨2⟩)
      (Machine.along_of_decide (by decide +kernel))
    have hopened : (after 25000 (upgradeThen ⟨2⟩)).opened =
        [⟨⟨1⟩, ⟨[7]⟩, true, false⟩] := by decide +kernel
    have honly : OnlyCircuits (after 25000 (upgradeThen ⟨2⟩)).opened ⟨[7]⟩ := by
      rw [hopened]
      simp [OnlyCircuits]
    have htier : (after 25000
        (upgradeThen ⟨2⟩)).node.tiers[(⟨[7]⟩ : PeerId)]? = some .holePunched := by
      decide +kernel
    rw [(hfaithful.circuit ⟨[7]⟩ honly).1] at htier
    cases htier
  · intro hall
    have hkept := hall upgradeFailed (Machine.along_of_decide (by decide +kernel))
      (upgradeFailed.take 2) ⟨[7]⟩ List.prefix_rfl ⟨⟨2⟩, ⟨[7]⟩, false, false⟩
      (by decide +kernel) rfl rfl rfl
    exact absurd hkept (by decide +kernel)

end TierRun

end Intranet
