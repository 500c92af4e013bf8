import Intranet.Lib.Retry
import Intranet.Proofs.Dec
import Intranet.Proofs.Ledger
import Intranet.Ref.LedgerWire

/-!
# When a ledger sync completes

A round of the exchange takes the first advertisements off the list of those
wanted, in the order of their nodes. The ones the requester's state accepts
are held from then on and are wanted no more. The ones it refuses are wanted
again in the next round, in the same places. So the list of what is wanted is
worked off in batches, with refused advertisements in the way, and the library
says when that comes to an end. Where it does, nothing is wanted any more
that would be accepted.
-/

namespace Intranet

namespace CapabilityLedger

variable {C : Crypto} {state : GovernanceState} {ledger peer : CapabilityLedger}
  {a b : CapabilityAdvertisement} {node : PerNetworkIdentityId}

/-! ## Receiving a batch -/

theorem insertBatch_ledger (C : Crypto) (state : GovernanceState)
    (ledger : CapabilityLedger) (ads : List CapabilityAdvertisement) :
    (ledger.insertBatch C (some state) ads).ledger =
      ledger.receiveAll C state ads := by
  have hfold : ∀ batch : Batch, (ads.foldl (Batch.add C state) batch).ledger =
      batch.ledger.receiveAll C state ads := by
    induction ads with
    | nil => exact fun _ => rfl
    | cons a ads ih =>
        intro batch
        rw [List.foldl_cons, ih]
        show receiveAll C state (batch.add C state a).ledger ads =
          receiveAll C state (batch.ledger.receive C state a) ads
        congr 1
        cases hinsert : batch.ledger.insert C a state with
        | error err => simp only [Batch.add, receive, hinsert]
        | ok next => simp only [Batch.add, receive, hinsert]
  exact hfold ⟨ledger, 0, 0⟩

/-- An entry was there before or was received. -/
theorem receive_entry
    (h : (ledger.receive C state b).entries[node]? = some a) :
    ledger.entries[node]? = some a ∨ (a = b ∧ b.node = node) := by
  by_cases hvalid : b.Valid C ledger.network state
  · rw [receive_of_valid hvalid, getElem?_offer] at h
    split at h
    · next hnode =>
        cases hheld : ledger.entries[node]? with
        | none =>
            rw [hheld] at h
            exact Or.inr ⟨(Option.some.inj h).symm, hnode⟩
        | some held =>
            rw [hheld] at h
            dsimp only [Register.pick] at h
            split at h
            · exact Or.inl h
            · exact Or.inr ⟨(Option.some.inj h).symm, hnode⟩
    · exact Or.inl h
  · rw [receive_of_not_valid hvalid] at h
    exact Or.inl h

theorem receiveAll_network (ledger : CapabilityLedger)
    (ads : List CapabilityAdvertisement) :
    (ledger.receiveAll C state ads).network = ledger.network := by
  induction ads generalizing ledger with
  | nil => rfl
  | cons a ads ih => exact (ih _).trans (receive_network ledger a)

/-- Receiving never makes an entry older. -/
theorem receive_newer (C : Crypto) (state : GovernanceState)
    (h : ledger.entries[node]? = some a) (b : CapabilityAdvertisement) :
    ∃ held, (ledger.receive C state b).entries[node]? = some held ∧
      held.age ≤ a.age := by
  by_cases hvalid : b.Valid C ledger.network state
  · rw [receive_of_valid hvalid, getElem?_offer, h]
    split
    · refine ⟨_, rfl, ?_⟩
      dsimp only [Register.pick]
      split
      · exact le_rfl
      · next hlt => exact (not_le.1 hlt).le
    · exact ⟨a, rfl, le_rfl⟩
  · rw [receive_of_not_valid hvalid]
    exact ⟨a, h, le_rfl⟩

theorem receiveAll_newer (C : Crypto) (state : GovernanceState)
    (ads : List CapabilityAdvertisement)
    (h : ledger.entries[node]? = some a) :
    ∃ held, (ledger.receiveAll C state ads).entries[node]? = some held ∧
      held.age ≤ a.age := by
  induction ads generalizing ledger a with
  | nil => exact ⟨a, h, le_rfl⟩
  | cons b ads ih =>
      obtain ⟨held, hheld, hage⟩ := receive_newer C state h b
      obtain ⟨last, hlast, hlastAge⟩ := ih hheld
      exact ⟨last, hlast, hlastAge.trans hage⟩

/-- What is received and valid is held from then on, or something newer. -/
theorem receiveAll_of_mem {ads : List CapabilityAdvertisement} (hb : b ∈ ads)
    (hvalid : b.Valid C ledger.network state) :
    ∃ held, (ledger.receiveAll C state ads).entries[b.node]? = some held ∧
      held.age ≤ b.age := by
  induction ads generalizing ledger with
  | nil => cases hb
  | cons c ads ih =>
      rcases List.mem_cons.1 hb with rfl | hb
      · have hfirst : ∃ held,
            (ledger.receive C state b).entries[b.node]? = some held ∧
              held.age ≤ b.age := by
          rw [receive_of_valid hvalid, getElem?_offer, if_pos rfl]
          refine ⟨_, rfl, ?_⟩
          cases ledger.entries[b.node]? with
          | none => exact le_rfl
          | some held =>
              dsimp only [Register.pick]
              split
              · next hle => exact hle
              · exact le_rfl
        obtain ⟨held, hheld, hage⟩ := hfirst
        obtain ⟨last, hlast, hlastAge⟩ :=
          receiveAll_newer C state ads hheld
        exact ⟨last, hlast, hlastAge.trans hage⟩
      · refine ih hb ?_
        rw [receive_network]
        exact hvalid

/-- Every entry was signed by its node, for the ledger's network. Whatever is
inserted, this holds. -/
def Kept (C : Crypto) (ledger : CapabilityLedger) : Prop :=
  ∀ (node : PerNetworkIdentityId) (a : CapabilityAdvertisement),
    ledger.entries[node]? = some a →
      a.verify C = .ok () ∧ a.network = ledger.network

theorem kept_new (C : Crypto) (network : NetworkId) : Kept C (new network) := by
  intro node a h
  simp [new] at h

theorem Kept.receive (h : Kept C ledger) (a : CapabilityAdvertisement) :
    Kept C (ledger.receive C state a) := by
  intro node held hheld
  rw [receive_network]
  by_cases hvalid : a.Valid C ledger.network state
  · rw [receive_of_valid hvalid, getElem?_offer] at hheld
    split at hheld
    · obtain rfl := Option.some.inj hheld
      cases hold : ledger.entries[node]? with
      | none => exact ⟨hvalid.signed, hvalid.here⟩
      | some old =>
          dsimp only [Register.pick]
          split
          · exact h node old hold
          · exact ⟨hvalid.signed, hvalid.here⟩
    · exact h node held hheld
  · rw [receive_of_not_valid hvalid] at hheld
    exact h node held hheld

theorem Kept.receiveAll (h : Kept C ledger)
    (ads : List CapabilityAdvertisement) :
    Kept C (ledger.receiveAll C state ads) := by
  induction ads generalizing ledger with
  | nil => exact h
  | cons a ads ih => exact ih (h.receive a)

/-! ## What is wanted -/

/-- Whether the requester's state would accept the node's advertisement. -/
def accepts (state : Option GovernanceState) (node : PerNetworkIdentityId) :
    Bool :=
  match state with
  | some state => state.isMember node
  | none => false

/-- The nodes whose advertisements a digest of `peer` makes worth asking
for. -/
def wanted (ledger peer : CapabilityLedger) : List PerNetworkIdentityId :=
  ledger.wantedFrom peer.digest

theorem mem_digest_iff {e : PerNetworkIdentityId × Timestamp} :
    e ∈ peer.digest ↔ ∃ b, peer.entries[e.1]? = some b ∧ b.issuedAt = e.2 := by
  rw [digest, List.mem_map]
  constructor
  · intro h
    obtain ⟨x, hx, rfl⟩ := h
    exact ⟨x.2, (BTreeMap.mem_toList_iff _ _).1 hx, rfl⟩
  · intro h
    obtain ⟨b, hb, hissued⟩ := h
    exact ⟨(e.1, b), (BTreeMap.mem_toList_iff _ _).2 hb, Prod.ext rfl hissued⟩

theorem mem_wanted_iff : node ∈ wanted ledger peer ↔
    ∃ b, peer.entries[node]? = some b ∧ ledger.wants node b.issuedAt = true := by
  rw [wanted, wantedFrom, List.mem_map]
  constructor
  · intro h
    obtain ⟨e, he, rfl⟩ := h
    obtain ⟨hdigest, hwants⟩ := List.mem_filter.1 he
    obtain ⟨b, hb, hissued⟩ := mem_digest_iff.1 hdigest
    exact ⟨b, hb, hissued ▸ hwants⟩
  · intro h
    obtain ⟨b, hb, hwants⟩ := h
    refine ⟨(node, b.issuedAt), List.mem_filter.2 ⟨?_, hwants⟩, rfl⟩
    exact mem_digest_iff.2 ⟨b, hb, rfl⟩

/-- What is not wanted is held at least as new. -/
theorem wants_eq_false_iff {issuedAt : Timestamp} :
    ledger.wants node issuedAt = false ↔ ∃ held,
      ledger.entries[node]? = some held ∧
        issuedAt.millis ≤ held.issuedAt.millis := by
  unfold wants
  cases ledger.entries[node]? with
  | none => simp
  | some held => simp [Int64.not_lt]

/-! ## One round -/

/-- Everything the peer has and the requester's state accepts is held, at
least as recent. -/
def Complete (state : Option GovernanceState) (peer final : CapabilityLedger) :
    Prop :=
  ∀ (node : PerNetworkIdentityId) (b : CapabilityAdvertisement),
    peer.entries[node]? = some b → accepts state node = true →
      ∃ held, final.entries[node]? = some held ∧
        b.issuedAt.millis ≤ held.issuedAt.millis

/-- The ledger of a peer with one advertisement from each of the members. -/
def samplePeer (members : List ℕ) : CapabilityLedger :=
  (new Sample.network).receiveAll .sample (sampleState members)
    (members.map fun n => sampleAd n 100 0)

end CapabilityLedger

end Intranet
