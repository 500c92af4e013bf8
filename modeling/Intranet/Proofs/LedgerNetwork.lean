import Intranet.Lib.Gossip
import Intranet.Lib.Turns
import Intranet.Proofs.Departure
import Intranet.Proofs.LedgerWire
import Intranet.Ref.LedgerNetwork

/-!
# Advertisements spread over the wire

Nodes whose logs know the same members pull each other's advertisements as
bytes. What counts is what was put in anywhere and is valid (`Stock`). Its
windows lie within a day and its digest fits a message, so every message of
the protocol is read as it was written (`takeFrame_ofRequest`,
`takeFrame_ofResponse`).

An entry only ever makes way for a newer one. So a node covers more and more
of the stock, and a sync with a peer that covers something it does not comes to
an end with more covered (`exchange_grows`): the digest may be old when it
arrives and the answer to the fetch is cut, but the first of what comes back
is newer than what was held when it was asked for. In the end every node holds
the newest of everything, and all of them place replicas alike.
-/

namespace Intranet

open Reader

variable {C : Crypto} {validKey : Bytes 32 → Bool} {network : NetworkId}
  {state : GovernanceState} {S : Set CapabilityAdvertisement}

/-- The ledger has `a`, or something as new from its node. -/
def CapabilityLedger.Covers (ledger : CapabilityLedger)
    (a : CapabilityAdvertisement) : Prop :=
  ∃ held, ledger.entries[a.node]? = some held ∧ held.age ≤ a.age

/-- Nothing of a ledger makes way but for something as new. -/
def CapabilityLedger.Renews (ledger ledger' : CapabilityLedger) : Prop :=
  ∀ (node : PerNetworkIdentityId) (a : CapabilityAdvertisement),
    ledger.entries[node]? = some a →
      ∃ held, ledger'.entries[node]? = some held ∧ held.age ≤ a.age

namespace CapabilityLedger

variable {ledger ledger' peer : CapabilityLedger} {a : CapabilityAdvertisement}
  {node : PerNetworkIdentityId}

theorem Renews.refl (ledger : CapabilityLedger) : ledger.Renews ledger :=
  fun _ a ha => ⟨a, ha, le_rfl⟩

theorem Renews.trans {ledger'' : CapabilityLedger} (h : ledger.Renews ledger')
    (h' : ledger'.Renews ledger'') : ledger.Renews ledger'' := by
  intro node a ha
  obtain ⟨held, hheld, hage⟩ := h node a ha
  obtain ⟨last, hlast, hlastAge⟩ := h' node held hheld
  exact ⟨last, hlast, hlastAge.trans hage⟩

theorem Covers.renews (h : ledger.Covers a) (hrenews : ledger.Renews ledger') :
    ledger'.Covers a := by
  obtain ⟨held, hheld, hage⟩ := h
  obtain ⟨last, hlast, hlastAge⟩ := hrenews a.node held hheld
  exact ⟨last, hlast, hlastAge.trans hage⟩

/-- What is not wanted is covered. -/
theorem wants_eq_false_iff_covers :
    ledger.wants a.node a.issuedAt = false ↔ ledger.Covers a := by
  rw [wants_eq_false_iff, Covers]
  simp only [le_age_iff]

/-- What the peer covers and the node does not is wanted. -/
theorem mem_wanted_of_covers (hpeer : peer.Covers a)
    (hlacks : ¬ ledger.Covers a) : a.node ∈ wanted ledger peer := by
  obtain ⟨held, hheld, hage⟩ := hpeer
  refine mem_wanted_iff.2 ⟨held, hheld, ?_⟩
  by_contra hwants
  rw [Bool.not_eq_true] at hwants
  have hnode := peer.keyed a.node held hheld
  rw [← hnode, wants_eq_false_iff_covers] at hwants
  obtain ⟨own, hown, hownAge⟩ := hwants
  rw [hnode] at hown
  exact hlacks ⟨own, hown, hownAge.trans hage⟩

/-- Covering all that is valid is holding the newest. -/
theorem holdsNewest_of_covers {ads : List CapabilityAdvertisement}
    (hwithin : ∀ (node : PerNetworkIdentityId) (a : CapabilityAdvertisement),
      ledger.entries[node]? = some a → a ∈ ads ∧ a.Valid C network state)
    (hcovers : ∀ a ∈ ads, a.Valid C network state → ledger.Covers a) :
    HoldsNewest C network state ads ledger := by
  intro node
  cases hheld : ledger.entries[node]? with
  | none =>
      refine .inr ⟨rfl, fun a ha hvalid hnode => ?_⟩
      obtain ⟨held, hfound, -⟩ := hcovers a ha hvalid
      rw [hnode, hheld] at hfound
      cases hfound
  | some a =>
      obtain ⟨ha, hvalid⟩ := hwithin node a hheld
      have hnode := ledger.keyed node a hheld
      refine .inl ⟨a, rfl, hnode, ha, hvalid, fun b hb hb' hbnode => ?_⟩
      obtain ⟨held, hfound, hage⟩ := hcovers b hb hb'
      rw [hbnode, hnode, hheld] at hfound
      cases hfound
      exact le_age_iff.1 hage

/-- Where each newest advertisement is one, it is what both hold. -/
theorem HoldsNewest.entries_eq {ads : List CapabilityAdvertisement}
    (hone : ∀ a b, Newest C network state ads a →
      Newest C network state ads b → a.node = b.node → a = b)
    (h : HoldsNewest C network state ads ledger)
    (h' : HoldsNewest C network state ads ledger') :
    ledger.entries = ledger'.entries := by
  refine Std.ExtTreeMap.ext_getElem? fun node => ?_
  rcases h node with ⟨a, ha, hnode, hnewest⟩ | ⟨hnone, hall⟩
  · rcases h' node with ⟨b, hb, hnode', hnewest'⟩ | ⟨-, hall'⟩
    · rw [ha, hb, hone a b hnewest hnewest' (hnode.trans hnode'.symm)]
    · exact absurd hnode (hall' a hnewest.1 hnewest.2.1)
  · rcases h' node with ⟨b, -, hnode', hnewest'⟩ | ⟨hnone', -⟩
    · exact absurd hnode' (hall b hnewest'.1 hnewest'.2.1)
    · rw [hnone, hnone']

end CapabilityLedger

open CapabilityLedger

namespace LedgerNode

variable {node : LedgerNode} {log : GovernanceLog}

/-! ## What fits a message -/

/-- The nodes `S` has advertisements of. -/
def advertisers (S : Set CapabilityAdvertisement) :
    Set PerNetworkIdentityId :=
  CapabilityAdvertisement.node '' S

/-- Advertisements that count, and travel. -/
structure Stock (C : Crypto) (validKey : Bytes 32 → Bool) (network : NetworkId)
    (state : GovernanceState) (S : Set CapabilityAdvertisement) : Prop where
  valid : ∀ a ∈ S, a.Valid C network state
  inDay : ∀ a ∈ S, a.InDay
  keyed : ∀ a ∈ S, validKey a.node.key.bytes = true
  finite : S.Finite
  fits : 49 + 40 * (advertisers S).ncard ≤ maxMessageBytes

theorem length_le_ncard {α : Type} {items : List α} {s : Set α}
    (hs : s.Finite) (hnodup : items.Nodup) (hitems : ∀ x ∈ items, x ∈ s) :
    items.length ≤ s.ncard := by
  classical
  rw [← List.toFinset_card_of_nodup hnodup, ← Set.ncard_coe_finset]
  refine Set.ncard_le_ncard (fun x hx => hitems x ?_) hs
  exact List.mem_toFinset.1 hx

/-- Each of the nodes asked for is one of the stock's, and named once. -/
def GoodRequest (S : Set CapabilityAdvertisement) : LedgerRequest → Prop
  | .digest => True
  | .fetch nodes => nodes.Nodup ∧ ∀ n ∈ nodes, n ∈ advertisers S

/-- So is each entry of a digest, and advertisements are out of the stock. -/
def GoodResponse (S : Set CapabilityAdvertisement) : LedgerResponse → Prop
  | .digest entries => (entries.map Prod.fst).Nodup ∧
      ∀ n ∈ entries.map Prod.fst, n ∈ advertisers S
  | .advertisements ads _ =>
      ads.length ≤ maxAdvertisementsPerResponse ∧ ∀ a ∈ ads, a ∈ S

theorem Stock.keyed_of_mem (h : Stock C validKey network state S)
    {n : PerNetworkIdentityId} (hn : n ∈ advertisers S) :
    validKey n.key.bytes = true := by
  obtain ⟨a, ha, rfl⟩ := hn
  exact h.keyed a ha

theorem length_flatMap_const {α : Type} {k : ℕ} {f : α → List UInt8}
    (hf : ∀ a, (f a).length = k) (items : List α) :
    (items.flatMap f).length = k * items.length := by
  rw [List.length_flatMap]
  simp only [hf, List.map_const', List.sum_replicate, smul_eq_mul]
  exact mul_comm _ _

theorem length_encode_fetch (nodes : List PerNetworkIdentityId) :
    (LedgerRequest.fetch nodes).encode.length = 48 + 32 * nodes.length := by
  have hdomain : (Enc.domain LedgerRequest.wireDomain).length = 39 := by
    decide +kernel
  have hnode : ∀ n : PerNetworkIdentityId, n.encode.length = 32 :=
    fun n => Bytes.length_eq _
  simp only [LedgerRequest.encode, LedgerRequest.put, List.length_append,
    hdomain, Enc.variant, Enc.u8, Enc.seq, Enc.u64, Enc.length_bigEndian,
    List.length_singleton, length_flatMap_const hnode]
  omega

theorem length_encode_digest
    (entries : List (PerNetworkIdentityId × Timestamp)) :
    (LedgerResponse.digest entries).encode.length =
      49 + 40 * entries.length := by
  have hdomain : (Enc.domain LedgerResponse.wireDomain).length = 40 := by
    decide +kernel
  have hentry : ∀ e : PerNetworkIdentityId × Timestamp,
      (LedgerResponse.putDigestEntry e).length = 40 := by
    intro e
    rw [LedgerResponse.putDigestEntry, List.length_append,
      show e.1.encode.length = 32 from Bytes.length_eq _, Enc.i64, Enc.u64,
      Enc.length_bigEndian]
  simp only [LedgerResponse.encode, LedgerResponse.put, List.length_append,
    hdomain, Enc.variant, Enc.u8, Enc.seq, Enc.u64, Enc.length_bigEndian,
    List.length_singleton, length_flatMap_const hentry]
  omega

theorem length_encode_advertisements_le (ads : List CapabilityAdvertisement)
    (truncated : Bool) :
    (LedgerResponse.advertisements ads truncated).encode.length ≤
      50 + 227 * ads.length := by
  have hdomain : (Enc.domain LedgerResponse.wireDomain).length = 40 := by
    decide +kernel
  have hsent : (ads.flatMap fun a =>
      Enc.bytes (LedgerWire.encodeAdvertisement a)).length ≤
        227 * ads.length := by
    rw [List.length_flatMap, mul_comm, ← smul_eq_mul, ← List.length_map
      (f := fun a => (Enc.bytes (LedgerWire.encodeAdvertisement a)).length)]
    refine List.sum_le_card_nsmul _ _ fun n hn => ?_
    obtain ⟨a, -, rfl⟩ := List.mem_map.1 hn
    have hone := LedgerWire.length_encodeAdvertisement_le a
    rw [Enc.bytes, List.length_append, Enc.u64, Enc.length_bigEndian]
    omega
  simp only [LedgerResponse.encode, LedgerResponse.put, List.length_append,
    hdomain, Enc.variant, Enc.u8, Enc.bool, Enc.seq, Enc.u64,
    Enc.length_bigEndian, List.length_singleton]
  omega

/-- A good request is read as it was written. -/
theorem Stock.read_request (h : Stock C validKey network state S)
    {request : LedgerRequest} (hgood : GoodRequest S request) :
    LedgerRequest.decode validKey (request.encode.take maxMessageBytes) =
      .ok request := by
  cases request with
  | digest =>
      rw [List.take_of_length_le (by decide +kernel)]
      exact Dec.framed_reads (Dec.variant_pure_reads rfl) (Reads.pure _)
        (by decide +kernel)
  | fetch nodes =>
      have hfew := length_le_ncard (h.finite.image _) hgood.1 hgood.2
      have hfits := h.fits
      rw [advertisers] at hfits
      have hlen : (LedgerRequest.fetch nodes).encode.length ≤
          maxMessageBytes := by
        rw [length_encode_fetch]
        omega
      rw [List.take_of_length_le hlen]
      refine Dec.framed_reads (Dec.variant_reads (Reads.map ?_))
        (Reads.pure _) (hlen.trans_lt (by decide))
      exact Dec.seq_reads PerNetworkIdentityId.encode_ne_nil fun n hn =>
        LedgerWire.getIdentity_reads (h.keyed_of_mem (hgood.2 n hn))

/-- So is a good response. -/
theorem Stock.read_response (h : Stock C validKey network state S)
    {response : LedgerResponse} (hgood : GoodResponse S response) :
    LedgerResponse.decode C validKey (response.encode.take maxMessageBytes) =
      .ok response := by
  cases response with
  | digest entries =>
      have hfew := length_le_ncard (h.finite.image _) hgood.1 hgood.2
      have hfits := h.fits
      rw [advertisers] at hfits
      rw [List.length_map] at hfew
      have hlen : (LedgerResponse.digest entries).encode.length ≤
          maxMessageBytes := by
        rw [length_encode_digest]
        omega
      rw [List.take_of_length_le hlen]
      exact LedgerResponse.decode_digest (fun e he =>
        h.keyed_of_mem (hgood.2 e.1 (List.mem_map_of_mem he)))
        (hlen.trans_lt (by decide))
  | advertisements ads truncated =>
      have hlen := length_encode_advertisements_le ads truncated
      have hfew := hgood.1
      rw [maxAdvertisementsPerResponse] at hfew
      rw [List.take_of_length_le (hlen.trans (by rw [maxMessageBytes]; omega))]
      refine LedgerResponse.decode_advertisements (fun a ha => ?_) hgood.1 _
      have haS := hgood.2 a ha
      exact (LedgerWire.decode_encodeAdvertisement_iff (h.valid a haS).signed
        (h.keyed a haS)).2 (h.inDay a haS)

/-! ## Frames -/

/-- A frame is a good message, as it was written. -/
def Genuine (S : Set CapabilityAdvertisement) (frame : Frame) : Prop :=
  (∃ request, frame = .ofRequest request ∧ GoodRequest S request) ∨
    ∃ response, frame = .ofResponse response ∧ GoodResponse S response

theorem receive_eq {ι : Type} (i j : ι) (frame : Frame) :
    (protocol ι C validKey).receive i j frame node =
      node.takeFrame C validKey frame :=
  rfl

/-- A good request is answered. -/
theorem takeFrame_ofRequest (hstock : Stock C validKey network state S)
    {request : LedgerRequest} (hgood : GoodRequest S request) :
    node.takeFrame C validKey (.ofRequest request) =
      (none, node, some (.ofResponse (node.ledger.answer request))) := by
  rw [Frame.ofRequest, takeFrame, hstock.read_request hgood]

/-- A good response is handled. -/
theorem takeFrame_ofResponse (hstock : Stock C validKey network state S)
    {response : LedgerResponse} (hgood : GoodResponse S response) :
    (node.takeFrame C validKey (.ofResponse response)).2 =
      ((node.handleResponse C response).2.1,
        (node.handleResponse C response).2.2.map .ofRequest) := by
  rw [Frame.ofResponse, takeFrame, hstock.read_response hgood]

/-- A digest with nothing new in it ends the sync. -/
theorem takeFrame_known (hstock : Stock C validKey network state S)
    {entries : List (PerNetworkIdentityId × Timestamp)}
    (hgood : GoodResponse S (.digest entries))
    (hnone : node.ledger.wantedFrom entries = []) :
    (node.takeFrame C validKey (.ofResponse (.digest entries))).2 =
      (node, none) := by
  rw [takeFrame_ofResponse hstock hgood, handleResponse, handle, hnone]
  rfl

/-! ## Nodes -/

/-- A log under which the members are those of `state`. -/
def Ready (C : Crypto) (state : GovernanceState) (log : GovernanceLog) :
    Prop :=
  ∃ s, log.replayCanonical C = .ok s ∧
    ∀ n, s.isMember n = state.isMember n

/-- Everything `node` holds is out of the stock. -/
structure Sound (network : NetworkId) (S : Set CapabilityAdvertisement)
    (log : GovernanceLog) (node : LedgerNode) : Prop where
  log_eq : node.log = log
  here : node.ledger.network = network
  within : ∀ (n : PerNetworkIdentityId) (a : CapabilityAdvertisement),
    node.ledger.entries[n]? = some a → a ∈ S

def Renews (node node' : LedgerNode) : Prop :=
  node.ledger.Renews node'.ledger

theorem sound_new (network : NetworkId) (S : Set CapabilityAdvertisement)
    (log : GovernanceLog) : Sound network S log (new network log) where
  log_eq := rfl
  here := rfl
  within n a ha := by simp [new, CapabilityLedger.new] at ha

/-- The state a node with a ready log takes advertisements under. -/
theorem Sound.governanceState (h : Sound network S log node)
    (hready : Ready C state log) : ∃ s, node.governanceState C = some s ∧
      ∀ a, CapabilityAdvertisement.Valid C network s a ↔
        a.Valid C network state := by
  obtain ⟨s, hs, hmembers⟩ := hready
  refine ⟨s, ?_, fun a => ⟨fun ha => ?_, fun ha => ?_⟩⟩
  · rw [LedgerNode.governanceState, h.log_eq, hs]
    rfl
  · exact ⟨ha.signed, ha.here, hmembers a.node ▸ ha.member⟩
  · exact ⟨ha.signed, ha.here, (hmembers a.node).trans ha.member⟩

/-- Receiving keeps a ledger within the stock, and renews it. -/
theorem Sound.receiveAll (h : Sound network S log node) {s : GovernanceState}
    {ads : List CapabilityAdvertisement}
    (hads : ∀ a ∈ ads, a.Valid C network s → a ∈ S) :
    Sound network S log
        { node with ledger := node.ledger.receiveAll C s ads } ∧
      Renews node { node with ledger := node.ledger.receiveAll C s ads } := by
  refine ⟨⟨h.log_eq, (receiveAll_network _ _).trans h.here, ?_⟩,
    fun n a ha => receiveAll_newer C s ads ha⟩
  intro n a ha
  change (node.ledger.receiveAll C s ads).entries[n]? = some a at ha
  have hhere := h.here
  have hwithin := h.within
  generalize node.ledger = ledger at ha hhere hwithin
  induction ads generalizing ledger with
  | nil => exact hwithin n a ha
  | cons b ads ih =>
      refine ih (fun c hc => hads c (List.mem_cons_of_mem b hc)) _ ha
        ((receive_network ledger b).trans hhere) fun m c hc => ?_
      by_cases hvalid : b.Valid C ledger.network s
      · rcases receive_entry hc with hold | ⟨rfl, -⟩
        · exact hwithin m c hold
        · exact hads c List.mem_cons_self (hhere ▸ hvalid)
      · rw [receive_of_not_valid hvalid] at hc
        exact hwithin m c hc

theorem call_advertise {s : GovernanceState} {ι : Type}
    (hs : node.governanceState C = some s) (a : CapabilityAdvertisement) :
    node.call C (.advertise a : Call ι) =
      ({ node with ledger := node.ledger.receiveAll C s [a] }, none) := by
  rw [call, advertise, hs]
  show _ = ({ node with ledger := node.ledger.receive C s a }, none)
  cases hinsert : node.ledger.insert C a s with
  | error err => simp only [receive, hinsert]; rfl
  | ok next => simp only [receive, hinsert]; rfl

theorem handle_advertisements {s : GovernanceState}
    (hs : node.governanceState C = some s)
    (ads : List CapabilityAdvertisement) (truncated : Bool) :
    (node.handleResponse C (.advertisements ads truncated)).2 =
      ({ node with ledger := node.ledger.receiveAll C s ads },
        if truncated then some .digest else none) := by
  rw [handleResponse, handle, hs, insertBatch_ledger]

/-- What a node answers is good. -/
theorem Sound.answer (h : Sound network S log node)
    (request : LedgerRequest) :
    GoodResponse S (node.ledger.answer request) := by
  cases request with
  | digest =>
      have hnodes : node.ledger.digest.map Prod.fst =
          node.ledger.entries.toList.map Prod.fst := by
        rw [digest, List.map_map]
        rfl
      refine ⟨?_, fun n hn => ?_⟩
      · rw [hnodes]
        exact List.pairwise_map.2
          ((BTreeMap.toList_pairwise node.ledger.entries).imp
            fun hlt => hlt.ne)
      · obtain ⟨e, he, rfl⟩ := List.mem_map.1 hn
        obtain ⟨a, ha, -⟩ := mem_digest_iff.1 he
        exact ⟨a, h.within e.1 a ha, node.ledger.keyed e.1 a ha⟩
  | fetch nodes =>
      refine ⟨List.length_take_le _ _, fun a ha => ?_⟩
      obtain ⟨n, -, hn⟩ := List.mem_filterMap.1 (List.mem_of_mem_take ha)
      exact h.within n a hn

theorem Sound.digest (h : Sound network S log node) :
    GoodResponse S (.digest node.ledger.digest) :=
  h.answer .digest

/-- What is asked for after a good digest is good. -/
theorem good_fetch {ledger : CapabilityLedger}
    {entries : List (PerNetworkIdentityId × Timestamp)}
    (hgood : GoodResponse S (.digest entries)) :
    GoodRequest S (.fetch (ledger.wantedFrom entries)) := by
  have hsub : List.Sublist (ledger.wantedFrom entries)
      (entries.map Prod.fst) := List.filter_sublist.map _
  exact ⟨hgood.1.sublist hsub, fun n hn => hgood.2 n (hsub.subset hn)⟩

/-- What is put in is out of the stock if it is valid. -/
def Allowed (C : Crypto) (network : NetworkId) (state : GovernanceState)
    (S : Set CapabilityAdvertisement) {ι : Type} (_ : ι) :
    Call ι → Prop
  | .advertise a => a.Valid C network state → a ∈ S
  | .syncLedgerWith _ => True

/-- The protocol keeps ledgers within the stock, and renews them. -/
theorem keeps {ι : Type} {logs : ι → GovernanceLog}
    (hstock : Stock C validKey network state S)
    (hready : ∀ i, Ready C state (logs i)) :
    Network.Keeps (protocol ι C validKey)
      (fun i => Sound network S (logs i)) Renews (fun _ _ _ _ => Genuine S)
      (Allowed C network state S) (fun _ => True) where
  refl node := CapabilityLedger.Renews.refl node.ledger
  trans := fun hab hbc => CapabilityLedger.Renews.trans hab hbc
  mono := fun _ _ h => h
  act := by
    intro i node asked hnode hallowed
    cases asked with
    | advertise a =>
        obtain ⟨s, hs, hvalid⟩ := hnode.governanceState (hready i)
        rw [show (protocol ι C validKey).act i (.advertise a) node = _ from
          call_advertise hs a]
        have hcounts : ∀ b ∈ [a], b.Valid C network s → b ∈ S := by
          intro b hb hb'
          rw [List.mem_singleton.1 hb] at hb' ⊢
          exact hallowed ((hvalid a).1 hb')
        obtain ⟨hsound, hrenews⟩ := hnode.receiveAll hcounts
        exact ⟨hsound, hrenews, fun j frame hsent => by cases hsent⟩
    | syncLedgerWith peer =>
        refine ⟨hnode, CapabilityLedger.Renews.refl _,
          fun j frame hsent t _ => ?_⟩
        cases hsent
        exact .inl ⟨.digest, rfl, trivial⟩
  receive := by
    intro i j node sender frame hnode hsender hgenuine
    rcases hgenuine with ⟨request, rfl, hgood⟩ | ⟨response, rfl, hgood⟩
    · rw [receive_eq, takeFrame_ofRequest hstock hgood]
      refine ⟨hnode, CapabilityLedger.Renews.refl _, trivial,
        fun answer hanswer => ?_⟩
      cases hanswer
      exact .inr ⟨_, rfl, hnode.answer request⟩
    · rw [receive_eq, takeFrame_ofResponse hstock hgood]
      cases response with
      | digest entries =>
          refine ⟨hnode, CapabilityLedger.Renews.refl _, trivial,
            fun answer hanswer => ?_⟩
          obtain ⟨next, hnext, rfl⟩ := Option.map_eq_some_iff.1 hanswer
          rw [handleResponse, handle] at hnext
          dsimp only at hnext
          split at hnext
          · cases hnext
          · cases hnext
            exact .inl ⟨_, rfl, good_fetch hgood⟩
      | advertisements ads truncated =>
          obtain ⟨s, hs, -⟩ := hnode.governanceState (hready i)
          rw [handle_advertisements hs]
          obtain ⟨hsound, hrenews⟩ := hnode.receiveAll (C := C) (s := s)
            fun a ha _ => hgood.2 a ha
          refine ⟨hsound, hrenews, trivial, fun answer hanswer => ?_⟩
          obtain ⟨next, hnext, rfl⟩ := Option.map_eq_some_iff.1 hanswer
          dsimp only at hnext
          split at hnext
          · cases hnext
            exact .inl ⟨.digest, rfl, trivial⟩
          · cases hnext

/-! ## A sync with a peer -/

section Exchange

variable {ι : Type} [DecidableEq ι] {logs : ι → GovernanceLog}
  {later : ℕ → Network.Action ι (Call ι)}
  {run : ℕ → Network.Net ι LedgerNode Frame} {i j : ι}
  {a : CapabilityAdvertisement}

/-- What a peer serves of what is wanted of it. -/
theorem served (h : Sound network S log node)
    {nodes : List PerNetworkIdentityId} (hne : nodes ≠ [])
    (hheld : ∀ n ∈ nodes, ∃ b, node.ledger.entries[n]? = some b) :
    ∃ ads cut, node.ledger.answer (.fetch nodes) = .advertisements ads cut ∧
      ∃ b ∈ ads, b ∈ S ∧ b.node ∈ nodes ∧
        node.ledger.entries[b.node]? = some b := by
  obtain ⟨first, rest, rfl⟩ := List.exists_cons_of_ne_nil hne
  obtain ⟨b, hb⟩ := hheld first List.mem_cons_self
  have hnode := node.ledger.keyed first b hb
  refine ⟨_, _, rfl, b, ?_, h.within first b hb,
    hnode ▸ List.mem_cons_self, hnode ▸ hb⟩
  rw [CapabilityLedger.fetch, List.filterMap_cons, hb]
  exact List.mem_cons_self

theorem arrive_frame (frame : Frame)
    (net : Network.Net ι LedgerNode Frame) :
    (Network.arrive (protocol ι C validKey) net ⟨j, i, frame⟩).2.nodes i =
      ((net.nodes i).takeFrame C validKey frame).2.1 :=
  @Network.arrive_target _ _ _ _ _ _ (protocol ι C validKey) net ⟨j, i, frame⟩

/-- A node that syncs with a peer that covers more comes to cover more. -/
theorem exchange_grows (hstock : Stock C validKey network state S)
    (hready : ∀ i, Ready C state (logs i))
    (hrun : Network.Runs (protocol ι C validKey) later run)
    (hsane : ∀ n, Network.Sane (fun i => Sound network S (logs i))
      (fun _ _ _ _ => Genuine S) (run n))
    (hgrows : ∀ n, Network.Grows Renews (run n) (run (n + 1)))
    (harrives : Network.Arrives later run) {n : ℕ}
    (hask : later n = .act i (.syncLedgerWith j)) (haS : a ∈ S)
    (hmore : ((run n).nodes j).ledger.Covers a)
    (hlacks : ¬ ((run n).nodes i).ledger.Covers a) :
    ∃ m, n ≤ m ∧ ∃ b ∈ S, ((run m).nodes i).ledger.Covers b ∧
      ¬ ((run n).nodes i).ledger.Covers b := by
  have hkept : ∀ {x y}, x ≤ y → ∀ k,
      ((run x).nodes k).ledger.Renews ((run y).nodes k).ledger :=
    fun hxy => (keeps hstock hready).grows_run hgrows hxy
  -- the digest is asked for, and comes as it is by then
  have hdigest : GoodRequest S .digest := trivial
  have hasked : (run (n + 1)).inflight[(run n).nextId]? =
      some ⟨i, j, .ofRequest .digest⟩ := by
    rw [hrun, hask]
    exact Network.getElem?_send _ _
  obtain ⟨p, hnp, hp, -⟩ :=
    Network.arrives_as_sent hrun hsane harrives hasked
  have htold : (run (p + 1)).inflight[(run p).nextId]? = some ⟨j, i,
      .ofResponse (.digest ((run p).nodes j).ledger.digest)⟩ := by
    rw [hp]
    refine Network.arrive_answers ?_
    rw [receive_eq, takeFrame_ofRequest hstock hdigest]
    rfl
  obtain ⟨q, hpq, hq, -⟩ := Network.arrives_as_sent hrun hsane harrives htold
  by_cases hgained : ((run q).nodes i).ledger.Covers a
  · exact ⟨q, by omega, a, haS, hgained, hlacks⟩
  -- `a` is still lacking, so something is fetched
  let wants := wanted ((run q).nodes i).ledger ((run p).nodes j).ledger
  have hgood := ((hsane p).inv j).digest
  have hnamed : GoodRequest S (.fetch wants) := good_fetch hgood
  have hne : wants ≠ [] := List.ne_nil_of_mem (mem_wanted_of_covers
    (hmore.renews (hkept (by omega) j)) hgained)
  have hfetch : (run (q + 1)).inflight[(run q).nextId]? =
      some ⟨i, j, .ofRequest (.fetch wants)⟩ := by
    rw [hq]
    refine Network.arrive_answers ?_
    rw [receive_eq, takeFrame_ofResponse hstock hgood, handleResponse, handle]
    rw [if_neg (by rwa [List.isEmpty_iff])]
    rfl
  obtain ⟨r, hqr, hr, -⟩ :=
    Network.arrives_as_sent hrun hsane harrives hfetch
  -- the peer still has all of it, or newer
  have hheld : ∀ w ∈ wants, ∃ b,
      ((run r).nodes j).ledger.entries[w]? = some b := by
    intro w hw
    obtain ⟨c, hc, -⟩ := mem_wanted_iff.1 hw
    obtain ⟨b, hb, -⟩ := hkept (by omega : p ≤ r) j w c hc
    exact ⟨b, hb⟩
  obtain ⟨ads, cut, hanswer, b, hb, hbS, hbwanted, hbheld⟩ :=
    served ((hsane r).inv j) hne hheld
  have hsent : (run (r + 1)).inflight[(run r).nextId]? =
      some ⟨j, i, .ofResponse (.advertisements ads cut)⟩ := by
    rw [hr]
    refine Network.arrive_answers ?_
    rw [receive_eq, takeFrame_ofRequest hstock hnamed, ← hanswer]
  obtain ⟨t, hrt, ht, -⟩ := Network.arrives_as_sent hrun hsane harrives hsent
  -- it comes back, and what came first was not covered
  have hads : GoodResponse S (.advertisements ads cut) :=
    hanswer ▸ ((hsane r).inv j).answer _
  obtain ⟨s, hs, hvalid⟩ := ((hsane t).inv i).governanceState (hready i)
  have hnode : (run (t + 1)).nodes i = { (run t).nodes i with
      ledger := ((run t).nodes i).ledger.receiveAll C s ads } := by
    rw [ht, arrive_frame, takeFrame_ofResponse hstock hads]
    exact congrArg Prod.fst (handle_advertisements hs ads cut)
  refine ⟨t + 1, by omega, b, hbS, ?_, fun hold => ?_⟩
  · rw [hnode]
    refine receiveAll_of_mem hb ?_
    rw [((hsane t).inv i).here]
    exact (hvalid b).2 (hstock.valid b hbS)
  · obtain ⟨c, hc, hwants⟩ := mem_wanted_iff.1 hbwanted
    obtain ⟨newer, hnewer, hage⟩ := hkept (by omega : p ≤ r) j b.node c hc
    rw [hbheld] at hnewer
    cases hnewer
    obtain ⟨own, hown, hownAge⟩ := hold.renews (hkept (by omega : n ≤ q) i)
    have hcovers : ((run q).nodes i).ledger.wants b.node c.issuedAt = false :=
      wants_eq_false_iff.2 ⟨own, hown, le_age_iff.1 (hownAge.trans hage)⟩
    rw [hcovers] at hwants
    cases hwants

end Exchange

/-! ## Runs -/

section Runs

variable {ι : Type}

def Call.puts : Call ι → Option CapabilityAdvertisement
  | .advertise a => some a
  | .syncLedgerWith _ => none

/-- What is put in while `actions` happen. -/
def advertised (actions : List (Network.Action ι (Call ι))) :
    List CapabilityAdvertisement :=
  actions.filterMap (Network.Action.puts fun _ asked => asked.puts)

/-- Nodes that have heard of nothing. -/
def fresh (network : NetworkId) (logs : ι → GovernanceLog) :
    Network.Net ι LedgerNode Frame :=
  .start fun i => new network (logs i)

theorem mem_advertised {actions : List (Network.Action ι (Call ι))}
    {a : CapabilityAdvertisement} :
    a ∈ advertised actions ↔ ∃ i, .act i (.advertise a) ∈ actions := by
  rw [advertised, List.mem_filterMap]
  constructor
  · intro h
    obtain ⟨action, haction, hputs⟩ := h
    cases action with
    | act i asked =>
        cases asked with
        | advertise b =>
            cases hputs
            exact ⟨i, haction⟩
        | syncLedgerWith peer => cases hputs
    | deliver id => cases hputs
    | lose id => cases hputs
  · intro h
    obtain ⟨i, hi⟩ := h
    exact ⟨_, hi, rfl⟩

/-- What counts of it. -/
def counted (C : Crypto) (network : NetworkId) (state : GovernanceState)
    (actions : List (Network.Action ι (Call ι))) :
    Set CapabilityAdvertisement :=
  {a | a ∈ advertised actions ∧ a.Valid C network state}

theorem stock_counted {actions : List (Network.Action ι (Call ι))}
    (hkeys : ∀ key message signature,
      C.verify key message signature = true → validKey key.bytes = true)
    (hday : ∀ a ∈ advertised actions, a.Valid C network state → a.InDay)
    (hfits : 49 + 40 * {n | ∃ a ∈ advertised actions,
      a.Valid C network state ∧ a.node = n}.ncard ≤ maxMessageBytes) :
    Stock C validKey network state (counted C network state actions) where
  valid a ha := ha.2
  inDay a ha := hday a ha.1 ha.2
  keyed a ha := by
    have hsigned := ha.2.signed
    rw [CapabilityAdvertisement.verify] at hsigned
    split at hsigned
    · next hverify => exact hkeys _ _ _ hverify
    · cases hsigned
  finite := (List.finite_toSet (advertised actions)).subset fun a ha => ha.1
  fits := by
    have hnodes : advertisers (counted C network state actions) =
        {n | ∃ a ∈ advertised actions,
          a.Valid C network state ∧ a.node = n} := by
      ext n
      simp only [advertisers, counted, Set.mem_image, Set.mem_ofPred_eq,
        and_assoc]
    rwa [hnodes]

theorem calls_counted (C : Crypto) (network : NetworkId)
    (state : GovernanceState) (actions : List (Network.Action ι (Call ι))) :
    Network.Calls (Allowed C network state (counted C network state actions))
      actions := by
  intro action haction i asked heq
  cases asked with
  | advertise a =>
      exact fun hvalid => ⟨mem_advertised.2 ⟨i, heq ▸ haction⟩, hvalid⟩
  | syncLedgerWith peer => trivial

variable [DecidableEq ι]

/-- What counts is covered where it was put in. -/
theorem advertised_covered {logs : ι → GovernanceLog}
    {actions : List (Network.Action ι (Call ι))}
    (hstock : Stock C validKey network state S)
    (hready : ∀ i, Ready C state (logs i))
    (hcalls : Network.Calls (Allowed C network state S) actions)
    {a : CapabilityAdvertisement} (ha : a ∈ advertised actions)
    (hvalid : a.Valid C network state) :
    ∃ i, ((Machine.state (Network.step (protocol ι C validKey))
      (fresh network logs) actions).nodes i).ledger.Covers a := by
  obtain ⟨i, hi⟩ := mem_advertised.1 ha
  obtain ⟨node, hsound, -, hrenews⟩ := (keeps hstock hready).run_call
    (Network.sane_start fun i => sound_new network S (logs i)) hcalls hi
  obtain ⟨s, hs, hsame⟩ := hsound.governanceState (hready i)
  have hput : (protocol ι C validKey).act i (.advertise a) node =
      ({ node with ledger := node.ledger.receiveAll C s [a] }, none) :=
    call_advertise hs a
  rw [hput] at hrenews
  have hcovers : (node.ledger.receiveAll C s [a]).Covers a := by
    refine receiveAll_of_mem List.mem_cons_self ?_
    rw [hsound.here]
    exact (hsame a).2 hvalid
  exact ⟨i, hcovers.renews hrenews⟩

/-- Advertisements spread. Nodes whose logs know the same members put
advertisements in, in any order, and what they send each other arrives in any
order or is lost. If from then on nodes keep syncing along the edges of a
connected graph and what is sent arrives, all of them come to hold the newest
valid advertisements of every node there are, provided that windows lie within
a day and a digest of everything fits a message. Where each newest one is one
of a kind, all then choose the same replicas and stream tiers. -/
theorem advertisements_spread [Finite ι] (logs : ι → GovernanceLog)
    (network : NetworkId) (state : GovernanceState)
    (actions : List (Network.Action ι (Call ι)))
    (later : ℕ → Network.Action ι (Call ι)) (edge : ι → ι → Prop)
    (hkeys : ∀ key message signature,
      C.verify key message signature = true → validKey key.bytes = true)
    (hready : ∀ i, Ready C state (logs i))
    (hday : ∀ a ∈ advertised actions, a.Valid C network state → a.InDay)
    (hfits : 49 + 40 * {n | ∃ a ∈ advertised actions,
      a.Valid C network state ∧ a.node = n}.ncard ≤ maxMessageBytes)
    (hquiet : ∀ n i a, later n ≠ .act i (.advertise a))
    (hlinked : ∀ i j, Relation.ReflTransGen edge i j)
    (hasks : ∀ i j, edge i j → ∀ n, ∃ m, n ≤ m ∧
      later m = .act i (.syncLedgerWith j)) :
    let net := Machine.after (Network.step (protocol ι C validKey))
      (Machine.state (Network.step (protocol ι C validKey))
        (fresh network logs) actions) later
    Network.Arrives later net → ∃ n, ∀ m, n ≤ m →
      (∀ i, HoldsNewest C network state (advertised actions)
        ((net m).nodes i).ledger) ∧
      ((∀ a b, Newest C network state (advertised actions) a →
          Newest C network state (advertised actions) b →
          a.node = b.node → a = b) →
        ∀ i j key count,
          ((net m).nodes i).ledger.selectReplicas C key count =
              ((net m).nodes j).ledger.selectReplicas C key count ∧
            ((net m).nodes i).ledger.selectStreamTier C key count =
              ((net m).nodes j).ledger.selectStreamTier C key count) := by
  intro net harrives
  have hstock := stock_counted (C := C) hkeys hday hfits
  have hkeeps := keeps hstock hready
  have hcalls := calls_counted C network state actions
  obtain ⟨hstart, -, -⟩ := hkeeps.run
    (Network.sane_start fun i => sound_new network _ (logs i)) hcalls
  have hrun : Network.Runs (protocol ι C validKey) later net := fun _ => rfl
  obtain ⟨hsane, hgrows⟩ := hkeeps.forever hrun hstart
    fun n i asked heq => by
      cases asked with
      | advertise a => exact absurd heq (hquiet n i a)
      | syncLedgerWith peer => trivial
  have hkept : ∀ {x y}, x ≤ y → ∀ k,
      ((net x).nodes k).ledger.Renews ((net y).nodes k).ledger :=
    fun hxy => hkeeps.grows_run hgrows hxy
  obtain ⟨n, all, hall⟩ := Gossip.agree
    (fun n i => {a | a ∈ counted C network state actions ∧
      ((net n).nodes i).ledger.Covers a}) hstock.finite
    (fun n i a ha => ha.1)
    (fun n i a ha => ⟨ha.1, ha.2.renews (hgrows n i)⟩)
    (fun i j hij n => by
      obtain ⟨m, hnm, hask⟩ := hasks i j hij n
      refine ⟨m, hnm, fun hmore => ?_⟩
      obtain ⟨a, ha, hlacks⟩ := Set.not_subset.1 hmore
      obtain ⟨k, hmk, b, hbS, hb, hnew⟩ := exchange_grows hstock hready hrun
        hsane hgrows harrives hask ha.1 ha.2 fun h => hlacks ⟨ha.1, h⟩
      exact ⟨k, hmk, fun heq =>
        hnew ((Set.ext_iff.1 (congrFun heq i) b).1 ⟨hbS, hb⟩).2⟩)
    hlinked
  have hholds : ∀ m, n ≤ m → ∀ i, HoldsNewest C network state
      (advertised actions) ((net m).nodes i).ledger := by
    intro m hnm i
    refine holdsNewest_of_covers ((hsane m).inv i).within
      fun a ha hvalid => ?_
    obtain ⟨k, hk⟩ := advertised_covered hstock hready hcalls ha hvalid
    have hcovers : a ∈ all := by
      rw [← hall m hnm k]
      exact ⟨⟨ha, hvalid⟩, hk.renews (hkept (Nat.zero_le m) k)⟩
    rw [← hall m hnm i] at hcovers
    exact hcovers.2
  refine ⟨n, fun m hnm => ⟨hholds m hnm, fun hone i j key count => ?_⟩⟩
  have hentries := (hholds m hnm i).entries_eq hone (hholds m hnm j)
  rw [selectReplicas, selectReplicas, selectStreamTier, selectStreamTier,
    storageCandidates, storageCandidates, mediaRelayCandidates,
    mediaRelayCandidates, hentries]
  exact ⟨rfl, rfl⟩

end Runs

/-! ## Two members -/

/-- The log of a network in which 2 and 3 were admitted. -/
def pairLog : GovernanceLog :=
  GovernanceLog.new.insertAll .sample
    [Sample.genesis 0 .conservativeDefault [],
      Sample.entry 1 (some 0) 1 1 (Sample.admits 2),
      Sample.entry 2 (some 1) 2 1 (Sample.admits 3)]

/-- Each advertises, and syncs with the other once. -/
def pairing : List (Network.Action Bool (Call Bool)) :=
  [.act false (.advertise (sampleAd 2 100 5)),
    .act true (.advertise (sampleAd 3 50 7)),
    .act false (.syncLedgerWith true), .deliver 0, .deliver 1, .deliver 2,
    .deliver 3,
    .act true (.syncLedgerWith false), .deliver 4, .deliver 5, .deliver 6,
    .deliver 7]

/-- Where they stand when both have synced. -/
def paired : Network.Net Bool LedgerNode Frame :=
  Machine.state (Network.step (protocol Bool .sample fun _ => true))
    (fresh Sample.network fun _ => pairLog) pairing

theorem mem_advertised_pairing {a : CapabilityAdvertisement}
    (ha : a ∈ advertised pairing) :
    a = sampleAd 2 100 5 ∨ a = sampleAd 3 50 7 :=
  List.mem_pair.1 ha

theorem inDay_pairing (a : CapabilityAdvertisement)
    (ha : a ∈ advertised pairing) : a.InDay := by
  rcases mem_advertised_pairing ha with rfl | rfl <;>
    exact fun window hwindow => by cases hwindow

theorem fits_pairing (state : GovernanceState) :
    49 + 40 * {n | ∃ a ∈ advertised pairing,
      a.Valid .sample Sample.network state ∧ a.node = n}.ncard ≤
        maxMessageBytes := by
  have hpair : {n | ∃ a ∈ advertised pairing,
      a.Valid .sample Sample.network state ∧ a.node = n} ⊆
        {Sample.identity 2, Sample.identity 3} := by
    intro n hn
    obtain ⟨a, ha, -, rfl⟩ := hn
    rcases mem_advertised_pairing ha with rfl | rfl
    · exact .inl rfl
    · exact .inr rfl
  have hcard := (Set.ncard_le_ncard hpair (Set.toFinite _)).trans
    (Set.ncard_insert_le _ _)
  rw [Set.ncard_singleton] at hcard
  rw [maxMessageBytes]
  omega

theorem settled_paired (hready : Ready .sample state pairLog) :
    Network.Settled (protocol Bool .sample fun _ => true) paired.nodes
      (fun i => .syncLedgerWith (!i)) (fun _ => .ofRequest .digest)
      (fun i => .ofResponse
        (.digest (paired.nodes (!i)).ledger.digest)) := by
  have hstock : Stock .sample (fun _ => true) Sample.network state
      (counted .sample Sample.network state pairing) :=
    stock_counted (fun _ _ _ _ => rfl) (fun a ha _ => inDay_pairing a ha)
      (fits_pairing state)
  have hsane : Network.Sane
      (fun _ => Sound Sample.network
        (counted .sample Sample.network state pairing) pairLog)
      (fun _ _ _ _ =>
        Genuine (counted .sample Sample.network state pairing)) paired := by
    rw [paired, fresh]
    exact ((keeps hstock fun _ => hready).run
      (Network.sane_start fun i => sound_new Sample.network _ pairLog)
      (calls_counted .sample Sample.network state pairing)).1
  have hknown : ∀ i, (paired.nodes i).ledger.wantedFrom
      (paired.nodes (!i)).ledger.digest = [] := by
    intro i
    cases i <;> decide +kernel
  have hdigest : GoodRequest (counted .sample Sample.network state pairing)
    .digest := trivial
  refine ⟨fun _ => rfl, fun i => ?_, fun i => ?_⟩
  · rw [receive_eq, takeFrame_ofRequest hstock hdigest]
    rfl
  · rw [receive_eq]
    exact takeFrame_known hstock (hsane.inv (!i)).digest (hknown i)

/-- Two members that sync with each other in turn choose alike. -/
theorem advertisements_spread_two : ∃ state n, ∀ m, n ≤ m →
    ∀ i, HoldsNewest .sample Sample.network state (advertised pairing)
      ((Machine.after (Network.step (protocol Bool .sample fun _ => true))
        paired (Network.turns (fun i => .syncLedgerWith (!i)) 8)
          m).nodes i).ledger := by
  have hcheck : Run.okAnd (pairLog.replayCanonical .sample) (fun _ => true) =
      true := by
    decide +kernel
  obtain ⟨s, hs, -⟩ := Run.okAnd_iff.1 hcheck
  have hready : Ready .sample s pairLog := ⟨s, hs, fun _ => rfl⟩
  have hrests : Network.Rests paired.nodes 8 paired :=
    ⟨rfl, by decide +kernel, Std.ExtTreeMap.isEmpty_iff.1 (by decide +kernel)⟩
  obtain ⟨n, hall⟩ := advertisements_spread (fun _ => pairLog) Sample.network
    s pairing (Network.turns (fun i => .syncLedgerWith (!i)) 8)
    (fun i j => j = !i) (fun _ _ _ _ => rfl) (fun _ => hready)
    (fun a ha _ => inDay_pairing a ha) (fits_pairing s)
    (fun n i a heq => by
      unfold Network.turns at heq
      split at heq <;> cases heq)
    Network.turns_linked
    (fun i j hij n => by
      rw [hij]
      exact Network.turns_ask _ _ n i)
    ((settled_paired hready).arrives hrests)
  exact ⟨s, n, fun m hnm => (hall m hnm).1⟩

end LedgerNode

end Intranet
