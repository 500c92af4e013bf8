import Intranet.Proofs.MediaLimits
import Intranet.Ref.Media

/-!
# Forwarding is confined and cannot loop

Envelopes travel between nodes that carry calls, in any order and with any
loss, while the nodes' own callers change what they carry. Every packet is
marked with the injection it goes back to and with how often it has been
forwarded. The marks are read by nobody; they are there to be counted.

What stops a loop is the readdressing: a copy names the node it is sent to, so
that node keeps it. An injected envelope is therefore forwarded at one node at
most, and to no more participants than the roster there has.
-/

namespace Intranet

namespace MediaNode

variable {node : MediaNode} {peer : PerNetworkIdentityId}
  {request : MediaEnvelope}

/-! ## One envelope at one node -/

theorem fanOut_participants {participants : BTreeSet PerNetworkIdentityId}
    {sender selfId : PerNetworkIdentityId} {recipient : Recipient}
    {fan : FanOut}
    (h : MediaRelayGuard.fanOut participants sender recipient selfId =
      .ok fan) (hself : recipient.is selfId = false) :
    fan.recipients.Nodup ∧
      (∀ id ∈ fan.recipients, id ∈ participants ∧ id ≠ selfId) ∧
      (recipient = .participants → ∀ id, id ∈ fan.recipients ↔
        id ∈ participants ∧ id ≠ sender ∧ id ≠ selfId) := by
  have hnodup : participants.toList.Nodup :=
    (BTreeSet.toList_pairwise participants).imp fun hlt => hlt.ne
  unfold MediaRelayGuard.fanOut at h
  split at h
  · cases h
    have hmem : ∀ id, id ∈ participants.toList.filter (fun id =>
        decide (id ≠ sender) && decide (id ≠ selfId)) ↔
          id ∈ participants ∧ id ≠ sender ∧ id ≠ selfId := by
      intro id
      rw [List.mem_filter, Std.ExtTreeSet.mem_toList, Bool.and_eq_true,
        decide_eq_true_iff, decide_eq_true_iff]
    refine ⟨hnodup.filter _, ?_, fun _ => hmem⟩
    intro id hid
    obtain ⟨hin, -, hne⟩ := (hmem id).1 hid
    exact ⟨hin, hne⟩
  · next target =>
      split at h
      · next hin =>
          cases h
          refine ⟨List.nodup_singleton target, ?_, fun heq => nomatch heq⟩
          intro id hid
          rw [List.mem_singleton.1 hid]
          refine ⟨Std.ExtTreeSet.contains_iff_mem.1 hin, ?_⟩
          exact of_decide_eq_false hself
      · cases h

/-- What a node may send for an envelope: copies, each to a different
participant of a call it carries for the peer, never to itself, and under
fan-out to everybody else. -/
structure Confined (node : MediaNode) (peer : PerNetworkIdentityId)
    (request : MediaEnvelope)
    (sends : List (PerNetworkIdentityId × MediaEnvelope))
    (roster : BTreeSet PerNetworkIdentityId) : Prop where
  carried : node.mediaRelay.calls[request.call]? = some roster
  peer_mem : peer ∈ roster
  distinct : (sends.map Prod.fst).Nodup
  few : sends.length ≤ roster.size
  copies : ∀ send ∈ sends, send.1 ∈ roster ∧ send.1 ≠ node.identityId ∧
    send.2 = readdressed request send.1
  everyone : request.recipient = .participants → ∀ id,
    id ∈ sends.map Prod.fst ↔
      id ∈ roster ∧ id ≠ peer ∧ id ≠ node.identityId

theorem forward_sends (node : MediaNode) (request : MediaEnvelope)
    (fan : FanOut) : (node.forward request fan).sends =
      fan.recipients.map fun id => (id, readdressed request id) := by
  unfold forward
  dsimp only
  split
  · next hempty =>
      rw [List.isEmpty_iff.1 hempty]
      rfl
  · rfl

/-- An envelope is kept, dropped, refused or forwarded within bounds. -/
theorem handleMedia_sends (node : MediaNode) (peer : PerNetworkIdentityId)
    (request : MediaEnvelope) :
    (node.handleMedia peer request).sends = [] ∨
      ∃ roster, Confined node peer request
        (node.handleMedia peer request).sends roster := by
  unfold handleMedia
  split
  · exact Or.inl rfl
  · next hself =>
      split
      · exact Or.inl rfl
      · next hpeer =>
          rcases node.mediaRelay.authorize_cases request.call request.sender
              request.recipient
              (UInt64.ofNat request.frame.ciphertext.length)
              node.identityId with
            ⟨reason, hrefused⟩ | ⟨roster, fan, hcarried, hsender, hfan, -, hok⟩
          · rw [hrefused]
            exact Or.inl rfl
          · rw [hok]
            right
            obtain ⟨hnodup, hin, hall⟩ := fanOut_participants hfan
              (Bool.eq_false_of_not_eq_true hself)
            have hfst : ((fan.recipients.map fun id =>
                (id, readdressed request id)).map Prod.fst) =
                  fan.recipients := by
              rw [List.map_map]
              exact List.map_id _
            refine ⟨roster, hcarried, not_not.1 hpeer ▸ hsender, ?_, ?_, ?_,
              ?_⟩
            · rw [forward_sends, hfst]
              exact hnodup
            · rw [forward_sends, List.length_map, ←
                Std.ExtTreeSet.length_toList]
              refine (List.subperm_of_subset hnodup fun id hid => ?_).length_le
              exact Std.ExtTreeSet.mem_toList.2 (hin id hid).1
            · intro send hsend
              rw [forward_sends, List.mem_map] at hsend
              obtain ⟨id, hid, rfl⟩ := hsend
              exact ⟨(hin id hid).1, (hin id hid).2, rfl⟩
            · intro hform id
              rw [forward_sends, hfst, hall hform, not_not.1 hpeer]

theorem handleMedia_identityId (node : MediaNode)
    (peer : PerNetworkIdentityId) (request : MediaEnvelope) :
    (node.handleMedia peer request).node.identityId = node.identityId := by
  unfold handleMedia
  split
  · rfl
  · split
    · rfl
    · split
      · rfl
      · unfold forward
        dsimp only
        split
        · rfl
        · dsimp only
          split <;> rfl

/-- What is addressed to a node stays there. -/
theorem handleMedia_of_is (h : request.recipient.is node.identityId = true) :
    (node.handleMedia peer request).sends = [] := by
  rw [handleMedia, if_pos h]

end MediaNode

/-! ## A network of nodes -/

/-- An envelope on its way from one node to another, with the injection it
goes back to and how often it has been forwarded since. -/
structure Packet where
  origin : ℕ
  hops : ℕ
  peer : PerNetworkIdentityId
  target : PerNetworkIdentityId
  envelope : MediaEnvelope

/-- The nodes of a network under their identities, and what is on its way
between them. -/
structure MediaNetwork where
  nodes : PerNetworkIdentityId → MediaNode
  named : ∀ id, (nodes id).identityId = id
  flying : List Packet
  injected : ℕ

namespace MediaNetwork

/-- What can happen next. A peer injects whatever it likes; some packet
arrives, or is lost; the caller of some node does something to its guard. -/
inductive Happening where
  | inject (peer target : PerNetworkIdentityId) (envelope : MediaEnvelope)
  | arrive (index : ℕ)
  | lose (index : ℕ)
  | manage (id : PerNetworkIdentityId)
      (change : MediaRelayGuard → MediaRelayGuard)

/-- A packet, the node it reached and what came of it. -/
structure Arrival where
  packet : Packet
  node : MediaNode
  handled : MediaHandled

def put (net : MediaNetwork) (id : PerNetworkIdentityId) (node : MediaNode)
    (h : node.identityId = id) (flying : List Packet) : MediaNetwork where
  nodes := Function.update net.nodes id node
  named := fun a => by
    by_cases ha : a = id
    · rw [ha, Function.update_self, h]
    · rw [Function.update_of_ne ha]
      exact net.named a
  flying := flying
  injected := net.injected

/-- The packets that carry a node's sends. -/
def copies (packet : Packet)
    (sends : List (PerNetworkIdentityId × MediaEnvelope)) : List Packet :=
  sends.map fun send =>
    ⟨packet.origin, packet.hops + 1, packet.target, send.1, send.2⟩

/-- A packet reaches the node it was sent to. -/
def arrival (net : MediaNetwork) (packet : Packet) : Arrival :=
  let node := net.nodes packet.target
  ⟨packet, node, node.handleMedia packet.peer packet.envelope⟩

def step (net : MediaNetwork) : Happening → Option Arrival × MediaNetwork
  | .inject peer target envelope =>
      (none, { net with
        flying := net.flying ++ [⟨net.injected, 0, peer, target, envelope⟩]
        injected := net.injected + 1 })
  | .arrive index =>
      match net.flying[index]? with
      | none => (none, net)
      | some packet =>
          let arrival := net.arrival packet
          (some arrival, net.put packet.target arrival.handled.node
            ((MediaNode.handleMedia_identityId _ _ _).trans (net.named _))
            (net.flying.eraseIdx index ++
              copies packet arrival.handled.sends))
  | .lose index => (none, { net with flying := net.flying.eraseIdx index })
  | .manage id change =>
      (none, net.put id
        { net.nodes id with mediaRelay := change (net.nodes id).mediaRelay }
        (net.named id) net.flying)

/-- Nodes with whatever guards they may have, and nothing on its way. -/
def start (guards : PerNetworkIdentityId → MediaRelayGuard) : MediaNetwork :=
  ⟨fun id => ⟨id, guards id, []⟩, fun _ => rfl, [], 0⟩

/-- The arrivals of a run, in order. -/
def arrivals (es : List (Happening × Option Arrival)) : List Arrival :=
  es.filterMap Prod.snd

/-- How many packets an injection has put on their way to other nodes. -/
def sendsOf (n : ℕ) (as : List Arrival) : ℕ :=
  ((as.filter fun a => decide (a.packet.origin = n)).map fun a =>
    a.handled.sends.length).sum

/-- How many arrivals go back to an injection. -/
def arrivalsOf (n : ℕ) (as : List Arrival) : ℕ :=
  as.countP fun a => decide (a.packet.origin = n)

/-- How many arrivals of an injection were of the envelope itself. -/
def firstsOf (n : ℕ) (as : List Arrival) : ℕ :=
  as.countP fun a => decide (a.packet.origin = n ∧ a.packet.hops = 0)

/-- The injections of a run, in order. -/
def injections (happenings : List Happening) :
    List (PerNetworkIdentityId × PerNetworkIdentityId × MediaEnvelope) :=
  happenings.filterMap fun happening =>
    match happening with
    | .inject peer target envelope => some (peer, target, envelope)
    | _ => none

/-! ### Counting packets -/

variable {packet : Packet} {flying : List Packet} {index : ℕ}

theorem countP_eraseIdx (q : Packet → Bool)
    (h : flying[index]? = some packet) :
    flying.countP q =
      (flying.eraseIdx index).countP q + if q packet then 1 else 0 := by
  obtain ⟨hlt, rfl⟩ := List.getElem?_eq_some_iff.1 h
  rw [← (List.getElem_cons_eraseIdx_perm hlt).countP_eq, List.countP_cons]

theorem countP_copies (packet : Packet)
    (sends : List (PerNetworkIdentityId × MediaEnvelope)) (n : ℕ) :
    (copies packet sends).countP (fun p => decide (p.origin = n)) =
      if packet.origin = n then sends.length else 0 := by
  rw [copies, List.countP_map]
  split
  · next h => simp [Function.comp_def, h]
  · next h => simp [Function.comp_def, h]

theorem countP_copies_first (packet : Packet)
    (sends : List (PerNetworkIdentityId × MediaEnvelope)) (n : ℕ) :
    (copies packet sends).countP
      (fun p => decide (p.origin = n ∧ p.hops = 0)) = 0 := by
  rw [copies, List.countP_map]
  simp [Function.comp_def]

/-- One for an injection that has been made. -/
def made (n injected : ℕ) : ℕ := if n < injected then 1 else 0

theorem made_succ (n injected : ℕ) :
    made n (injected + 1) =
      made n injected + if injected = n then 1 else 0 := by
  unfold made
  split <;> split <;> split <;> omega

/-! ### What holds along a run -/

/-- A network after the events of a run. A copy that is on its way names the
node it goes to. An injection is on its way or has arrived, but once; and
whatever else goes back to it has been sent. -/
structure Tracked (es : List (Happening × Option Arrival))
    (net : MediaNetwork) : Prop where
  count : net.injected = (injections (es.map Prod.fst)).length
  original : ∀ p ∈ net.flying, p.hops = 0 →
    (injections (es.map Prod.fst))[p.origin]? =
      some (p.peer, p.target, p.envelope)
  addressed : ∀ p ∈ net.flying, p.hops ≠ 0 →
    p.envelope.recipient = .one p.target
  arrived : ∀ a ∈ arrivals es, (a.packet.hops ≠ 0 → a.handled.sends = []) ∧
    (a.packet.hops = 0 → (injections (es.map Prod.fst))[a.packet.origin]? =
      some (a.packet.peer, a.packet.target, a.packet.envelope)) ∧
    (a.handled.sends = [] ∨ ∃ roster, MediaNode.Confined a.node a.packet.peer
      a.packet.envelope a.handled.sends roster)
  firsts : ∀ n, firstsOf n (arrivals es) +
    net.flying.countP (fun p => decide (p.origin = n ∧ p.hops = 0)) ≤
      made n net.injected
  caused : ∀ n, arrivalsOf n (arrivals es) +
    net.flying.countP (fun p => decide (p.origin = n)) ≤
      made n net.injected + sendsOf n (arrivals es)

theorem tracked_start (guards : PerNetworkIdentityId → MediaRelayGuard) :
    Tracked [] (start guards) where
  count := rfl
  original := fun _ h => nomatch h
  addressed := fun _ h => nomatch h
  arrived := fun _ h => nomatch h
  firsts := fun _ => Nat.zero_le _
  caused := fun _ => Nat.zero_le _

theorem getElem?_append_of_some {α : Type} {l : List α} {i : ℕ} {x : α}
    (h : l[i]? = some x) (r : List α) : (l ++ r)[i]? = some x := by
  rw [List.getElem?_append_left (List.getElem?_eq_some_iff.1 h).1, h]

theorem injections_snoc (es : List (Happening × Option Arrival))
    (happening : Happening) (a : Option Arrival) :
    injections ((es ++ [(happening, a)]).map Prod.fst) =
      injections (es.map Prod.fst) ++ injections [happening] := by
  simp [injections]

theorem arrivals_snoc_none (es : List (Happening × Option Arrival))
    (happening : Happening) :
    arrivals (es ++ [(happening, none)]) = arrivals es := by
  simp [arrivals]

theorem arrivals_snoc_some (es : List (Happening × Option Arrival))
    (happening : Happening) (a : Arrival) :
    arrivals (es ++ [(happening, some a)]) = arrivals es ++ [a] := by
  simp [arrivals]

/-- Packets may get lost, and nodes may do what they do. -/
theorem Tracked.lessen {es : List (Happening × Option Arrival)}
    {net next : MediaNetwork} (h : Tracked es net) {happening : Happening}
    (hquiet : injections [happening] = [])
    (hinjected : next.injected = net.injected)
    (hflying : next.flying.Sublist net.flying) :
    Tracked (es ++ [(happening, none)]) next := by
  refine ⟨?_, ?_, ?_, ?_, ?_, ?_⟩
  · rw [injections_snoc, hquiet, List.append_nil, hinjected, h.count]
  · rw [injections_snoc, hquiet, List.append_nil]
    exact fun p hp => h.original p (hflying.subset hp)
  · exact fun p hp => h.addressed p (hflying.subset hp)
  · rw [injections_snoc, hquiet, List.append_nil, arrivals_snoc_none]
    exact h.arrived
  · intro n
    rw [arrivals_snoc_none, hinjected]
    exact (Nat.add_le_add_left hflying.countP_le _).trans (h.firsts n)
  · intro n
    rw [arrivals_snoc_none, hinjected]
    exact (Nat.add_le_add_left hflying.countP_le _).trans (h.caused n)

theorem Tracked.inject {es : List (Happening × Option Arrival)}
    {net : MediaNetwork} (h : Tracked es net)
    (peer target : PerNetworkIdentityId) (envelope : MediaEnvelope) :
    Tracked (es ++ [(.inject peer target envelope, none)])
      (net.step (.inject peer target envelope)).2 := by
  have hsnoc : injections
      ((es ++ [(Happening.inject peer target envelope, none)]).map Prod.fst) =
        injections (es.map Prod.fst) ++ [(peer, target, envelope)] :=
    injections_snoc es _ none
  have hnew : ∀ p ∈ (net.step (.inject peer target envelope)).2.flying,
      p ∈ net.flying ∨ p = ⟨net.injected, 0, peer, target, envelope⟩ := by
    intro p hp
    rw [step, List.mem_append, List.mem_singleton] at hp
    exact hp
  refine ⟨?_, ?_, ?_, ?_, ?_, ?_⟩
  · rw [hsnoc, List.length_append, ← h.count]
    rfl
  · intro p hp hfirst
    rw [hsnoc]
    rcases hnew p hp with hold | rfl
    · exact getElem?_append_of_some (h.original p hold hfirst) _
    · rw [h.count, List.getElem?_concat_length]
  · intro p hp hcopy
    rcases hnew p hp with hold | rfl
    · exact h.addressed p hold hcopy
    · exact absurd rfl hcopy
  · intro a ha
    rw [arrivals_snoc_none] at ha
    obtain ⟨hsilent, hfirst, hconfined⟩ := h.arrived a ha
    refine ⟨hsilent, fun hzero => ?_, hconfined⟩
    rw [hsnoc]
    exact getElem?_append_of_some (hfirst hzero) _
  · intro n
    have hn := h.firsts n
    rw [arrivals_snoc_none, step, List.countP_append, List.countP_singleton,
      made_succ]
    simp only [and_true, decide_eq_true_eq]
    omega
  · intro n
    have hn := h.caused n
    rw [arrivals_snoc_none, step, List.countP_append, List.countP_singleton,
      made_succ]
    simp only [decide_eq_true_eq]
    omega

theorem arrival_packet (net : MediaNetwork) (packet : Packet) :
    (net.arrival packet).packet = packet := rfl

theorem sendsOf_snoc (n : ℕ) (as : List Arrival) (a : Arrival) :
    sendsOf n (as ++ [a]) = sendsOf n as +
      if a.packet.origin = n then a.handled.sends.length else 0 := by
  rw [sendsOf, List.filter_append, List.map_append, List.sum_append, sendsOf]
  split
  · next h => simp [h]
  · next h => simp [h]

/-- A packet arrives, and its copies take its place. -/
theorem Tracked.arrive {es : List (Happening × Option Arrival)}
    {net : MediaNetwork} (h : Tracked es net) {index : ℕ} {packet : Packet}
    (hpacket : net.flying[index]? = some packet) {next : MediaNetwork}
    (hinjected : next.injected = net.injected)
    (hflying : next.flying = net.flying.eraseIdx index ++
      copies packet (net.arrival packet).handled.sends) :
    Tracked (es ++ [(.arrive index, some (net.arrival packet))]) next := by
  have hmem := List.mem_of_getElem? hpacket
  have hquiet : injections [Happening.arrive index] = [] := rfl
  have hsends := MediaNode.handleMedia_sends (net.nodes packet.target)
    packet.peer packet.envelope
  have hsilent : packet.hops ≠ 0 →
      (net.arrival packet).handled.sends = [] := by
    intro hcopy
    refine MediaNode.handleMedia_of_is ?_
    rw [h.addressed packet hmem hcopy, net.named]
    exact decide_eq_true rfl
  refine ⟨?_, ?_, ?_, ?_, ?_, ?_⟩
  · rw [injections_snoc, hquiet, List.append_nil, hinjected, h.count]
  · rw [injections_snoc, hquiet, List.append_nil, hflying]
    intro p hp hfirst
    rcases List.mem_append.1 hp with hold | hcopy
    · exact h.original p (List.mem_of_mem_eraseIdx hold) hfirst
    · obtain ⟨send, -, rfl⟩ := List.mem_map.1 hcopy
      exact absurd hfirst (Nat.succ_ne_zero _)
  · rw [hflying]
    intro p hp hhops
    rcases List.mem_append.1 hp with hold | hcopy
    · exact h.addressed p (List.mem_of_mem_eraseIdx hold) hhops
    · obtain ⟨send, hsend, rfl⟩ := List.mem_map.1 hcopy
      rcases hsends with hnone | ⟨roster, hconfined⟩
      · rw [arrival, hnone] at hsend
        cases hsend
      · show send.2.recipient = _
        rw [(hconfined.copies send hsend).2.2]
        rfl
  · rw [injections_snoc, hquiet, List.append_nil, arrivals_snoc_some]
    intro a ha
    rcases List.mem_append.1 ha with hold | hnew
    · exact h.arrived a hold
    · rw [List.mem_singleton.1 hnew]
      exact ⟨hsilent, h.original packet hmem, hsends⟩
  · intro n
    have hn := h.firsts n
    rw [countP_eraseIdx _ hpacket] at hn
    rw [arrivals_snoc_some, firstsOf, List.countP_append, ← firstsOf,
      List.countP_singleton, hflying, List.countP_append,
      countP_copies_first, hinjected, arrival_packet]
    omega
  · intro n
    have hn := h.caused n
    rw [countP_eraseIdx _ hpacket] at hn
    rw [arrivals_snoc_some, arrivalsOf, List.countP_append, ← arrivalsOf,
      List.countP_singleton, hflying, List.countP_append, countP_copies,
      hinjected, sendsOf_snoc, arrival_packet]
    omega

theorem Tracked.step {es : List (Happening × Option Arrival)}
    {net : MediaNetwork} (h : Tracked es net) (happening : Happening) :
    Tracked (es ++ [(happening, (net.step happening).1)])
      (net.step happening).2 := by
  cases happening with
  | inject peer target envelope => exact h.inject peer target envelope
  | arrive index =>
      rw [MediaNetwork.step]
      split
      · exact h.lessen rfl rfl (List.Sublist.refl _)
      · next packet hpacket => exact h.arrive hpacket rfl rfl
  | lose index => exact h.lessen rfl rfl (List.eraseIdx_sublist _ _)
  | manage id change => exact h.lessen rfl rfl (List.Sublist.refl _)

/-- Where copies cause no sends, the sends of an injection are those of the
envelope itself. -/
theorem sendsOf_eq_firsts {as : List Arrival} (n : ℕ)
    (hsilent : ∀ a ∈ as, a.packet.hops ≠ 0 → a.handled.sends = []) :
    sendsOf n as = ((as.filter fun a =>
      decide (a.packet.origin = n ∧ a.packet.hops = 0)).map fun a =>
        a.handled.sends.length).sum := by
  induction as with
  | nil => rfl
  | cons a as ih =>
      have hrest := ih fun a ha => hsilent a (List.mem_cons_of_mem _ ha)
      rw [sendsOf] at hrest ⊢
      by_cases horigin : a.packet.origin = n
      · by_cases hhops : a.packet.hops = 0
        · simp [horigin, hhops, hrest]
        · simp [horigin, hhops, hrest, hsilent a List.mem_cons_self hhops]
      · simp [horigin, hrest]

/-- Each envelope arrives once at most, so all sends of an injection come from
one arrival. -/
theorem sendsOf_eq {as : List Arrival} {n : ℕ}
    (hsilent : ∀ a ∈ as, a.packet.hops ≠ 0 → a.handled.sends = [])
    (hfirst : firstsOf n as ≤ 1) :
    sendsOf n as = 0 ∨ ∃ a ∈ as, a.packet.origin = n ∧ a.packet.hops = 0 ∧
      sendsOf n as = a.handled.sends.length := by
  rw [sendsOf_eq_firsts n hsilent]
  rw [firstsOf, List.countP_eq_length_filter] at hfirst
  cases hfilter : as.filter fun a =>
      decide (a.packet.origin = n ∧ a.packet.hops = 0) with
  | nil => exact Or.inl rfl
  | cons a rest =>
      rw [hfilter, List.length_cons] at hfirst
      obtain rfl : rest = [] := List.eq_nil_of_length_eq_zero (by omega)
      have hmem : a ∈ as.filter fun a =>
          decide (a.packet.origin = n ∧ a.packet.hops = 0) := by
        rw [hfilter]
        exact List.mem_singleton_self a
      rw [List.mem_filter, decide_eq_true_iff] at hmem
      refine Or.inr ⟨a, hmem.1, hmem.2.1, hmem.2.2, ?_⟩
      simp

/-- Over every run: a copy is never forwarded again, whatever is sent stays
within the roster, and all that goes back to one injection is sent at one
node. -/
theorem forwarding_confined
    (guards : PerNetworkIdentityId → MediaRelayGuard)
    (happenings : List Happening) :
    let as := arrivals (Machine.trace step (start guards) happenings)
    (∀ a ∈ as, a.packet.hops ≠ 0 → a.handled.sends = []) ∧
      (∀ a ∈ as, a.handled.sends = [] ∨
        ∃ roster, MediaNode.Confined a.node a.packet.peer a.packet.envelope
          a.handled.sends roster) ∧
      ∀ n, arrivalsOf n as ≤ 1 + sendsOf n as ∧
        (sendsOf n as = 0 ∨ ∃ a ∈ as, ∃ roster,
          (injections happenings)[n]? =
            some (a.packet.peer, a.packet.target, a.packet.envelope) ∧
          MediaNode.Confined a.node a.packet.peer a.packet.envelope
            a.handled.sends roster ∧
          sendsOf n as = a.handled.sends.length ∧
          sendsOf n as ≤ roster.size) := by
  intro as
  have htracked : Tracked (Machine.trace step (start guards) happenings)
      (Machine.state step (start guards) happenings) := by
    refine Machine.history (tracked_start guards) ?_ happenings
    intro es net happening h
    exact h.step happening
  have harrived := htracked.arrived
  rw [Machine.map_fst_trace] at harrived
  refine ⟨fun a ha => (harrived a ha).1, fun a ha => (harrived a ha).2.2, ?_⟩
  intro n
  have hmade : made n (Machine.state step (start guards)
      happenings).injected ≤ 1 := by
    unfold made
    split <;> omega
  constructor
  · have hcaused : arrivalsOf n as + _ ≤ _ + sendsOf n as :=
      htracked.caused n
    omega
  · have hfirsts := htracked.firsts n
    rcases sendsOf_eq (fun a ha => (harrived a ha).1) (n := n)
        (by omega) with hnone | ⟨a, ha, horigin, hhops, hsum⟩
    · exact Or.inl hnone
    · obtain ⟨-, hinjected, hconfined⟩ := harrived a ha
      rcases hconfined with hempty | ⟨roster, hconfined⟩
      · left
        rw [hsum, hempty]
        rfl
      · right
        refine ⟨a, ha, roster, ?_, hconfined, hsum, ?_⟩
        · rw [← horigin]
          exact hinjected hhops
        · rw [hsum]
          exact hconfined.few

end MediaNetwork

end Intranet
