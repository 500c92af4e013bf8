import Intranet.Proofs.DirectOnly

/-!
# Dials are answered

Several wrapped behaviours share a swarm, and so do others that are not
wrapped. The swarm declines a dial to a peer that is connected or being
dialled, with a failure that behaviours ignore. What a behaviour asked for can
then only be answered by the dial that was already under way.

`Served` is the invariant: every wrapper agrees with the swarm's view of its
connections, and every request that waits has a dial in progress that will
answer it. A dial answers all who wait for it unless it lands on a circuit:
then only the wrapper that made it knows it was a dial. The requests of other
wrapped behaviours are left waiting, so `Unshared` is what a run has to meet.
-/

namespace Intranet

/-- A dial in progress. `maker` is the wrapped behaviour that asked for it. -/
structure PendingDial (ι : Type) where
  id : ConnectionId
  maker : Option ι
  peer : Option PeerId

/-- A dial an inner behaviour issued and has no answer to. -/
structure Unanswered (ι : Type) where
  owner : ι
  id : ConnectionId
  peer : Option PeerId

/-- Whether a call of the inner behaviour answers a dial: a failure that is not
ignored, or a connection it may use. -/
def Unanswered.answeredBy {ι : Type} (e : Unanswered ι) : InnerCall → Bool
  | .swarmEvent (.dialFailure peer error id) =>
      error ≠ .dialPeerConditionFalse &&
        (id = e.id || (peer.isSome && peer = e.peer))
  | .swarmEvent (.connectionEstablished peer id _) =>
      id = e.id || some peer = e.peer
  | _ => false

/-- A dial whose outcome will answer a request: the request's own, or one to
the peer it names. -/
def PendingDial.Covers {ι : Type} (x : PendingDial ι) (e : Unanswered ι) :
    Prop :=
  (x.id = e.id ∧ x.maker = some e.owner) ∨ (x.peer.isSome ∧ x.peer = e.peer)

/-- One swarm, its wrapped behaviours under the names in `ι`. -/
structure DialSwarm (ι : Type) where
  wrappers : ι → DirectOnly
  connections : Connections
  pending : List (PendingDial ι)
  unanswered : List (Unanswered ι)

/-- What happens in a swarm. A connection is refused by one of the behaviours
when those in `asked` have been asked. -/
inductive DialEvent (ι : Type) where
  | dial (i : ι) (id : ConnectionId) (peer : Option PeerId)
  | dialUnwrapped (id : ConnectionId) (peer : Option PeerId)
  | connected (id : ConnectionId) (peer : PeerId) (addr : Multiaddr)
  | refused (id : ConnectionId) (peer : PeerId) (addr : Multiaddr)
      (asked : ι → Bool)
  | failed (id : ConnectionId) (peer : Option PeerId) (error : DialError)
  | inbound (id : ConnectionId) (peer : PeerId) (localAddr : Multiaddr)
  | inboundRefused (id : ConnectionId) (peer : PeerId) (localAddr : Multiaddr)
      (asked : ι → Bool)
  | closed (id : ConnectionId) (peer : PeerId)

namespace DialSwarm

variable {ι : Type}

def start : DialSwarm ι := ⟨fun _ => .new, .start, [], []⟩

/-- A callback to the wrappers in `asked`. What their behaviours are told
answers what they wait for. -/
def each (s : DialSwarm ι) (asked : ι → Bool) (callback : Callback Unit) :
    DialSwarm ι :=
  { s with
    wrappers := fun i =>
      if asked i then ((s.wrappers i).callback callback).2 else s.wrappers i
    connections := s.connections.next callback
    unanswered := s.unanswered.filter fun e =>
      !(asked e.owner && ((s.wrappers e.owner).callback callback).1.calls.any
        e.answeredBy) }

/-- A callback to every wrapper. -/
def all (s : DialSwarm ι) (callback : Callback Unit) : DialSwarm ι :=
  s.each (fun _ => true) callback

/-- Whether the swarm declines a dial to a peer. -/
def busy (s : DialSwarm ι) (peer : PeerId) : Bool :=
  s.connections.opened.any (fun x => x.peer = peer) ||
    s.pending.any fun x => x.peer = some peer

/-- The swarm is asked to dial. -/
def swarmDial (s : DialSwarm ι) (maker : Option ι) (id : ConnectionId)
    (peer : Option PeerId) : DialSwarm ι :=
  if peer.any s.busy then
    s.all (.swarmEvent (.dialFailure peer .dialPeerConditionFalse id))
  else { s with pending := ⟨id, maker, peer⟩ :: s.pending }

/-- An inner behaviour issues a dial. One that holds a connection to the peer
has its answer. -/
def issue (s : DialSwarm ι) (i : ι) (id : ConnectionId)
    (peer : Option PeerId) : DialSwarm ι :=
  if peer.any fun peer => 0 < (s.wrappers i).permittedFor peer then s
  else { s with unanswered := ⟨i, id, peer⟩ :: s.unanswered }

/-- The dial with an id is over. -/
def settle (s : DialSwarm ι) (id : ConnectionId) : DialSwarm ι :=
  { s with pending := s.pending.filter fun x => x.id ≠ id }

/-- The connections a swarm counts to a peer. -/
def connectedTo (s : DialSwarm ι) (peer : PeerId) : ℕ :=
  s.connections.opened.countP fun x => x.peer = peer

/-- The id of a dial enters the swarm's view. -/
def numbered (s : DialSwarm ι) (id : ConnectionId) : DialSwarm ι :=
  { s with connections :=
      { s.connections with dials := id :: s.connections.dials } }

/-- One event. -/
def step [DecidableEq ι] (s : DialSwarm ι) : DialEvent ι → DialSwarm ι
  | .dial i id peer =>
      let polled := (s.issue i id peer).each (fun j => j = i)
        (.poll [.dial id peer])
      match ((s.wrappers i).poll [(.dial id peer : ToSwarm Unit)]).1 with
      | some (.dial id peer) => polled.swarmDial (some i) id peer
      | _ => polled
  | .dialUnwrapped id peer => (s.numbered id).swarmDial none id peer
  | .connected id peer addr =>
      ((s.settle id).all (.establishedOutbound id peer addr false)).all
        (.swarmEvent (.connectionEstablished peer id (s.connectedTo peer)))
  | .refused id peer addr asked =>
      ((s.settle id).each asked (.establishedOutbound id peer addr true)).all
        (.swarmEvent (.dialFailure (some peer) .denied id))
  | .failed id peer error =>
      (s.settle id).all (.swarmEvent (.dialFailure peer error id))
  | .inbound id peer localAddr =>
      (s.all (.establishedInbound id peer localAddr false)).all
        (.swarmEvent (.connectionEstablished peer id (s.connectedTo peer)))
  | .inboundRefused id peer localAddr asked =>
      (s.each asked (.establishedInbound id peer localAddr true)).all
        (.swarmEvent (.listenFailure id))
  | .closed id peer =>
      s.all (.swarmEvent (.connectionClosed peer id (s.connectedTo peer - 1)))

/-- When an event can come: ids are unique, a dial ends once and with the peer
it named, and only what is open closes. -/
def Allows (s : DialSwarm ι) : DialEvent ι → Prop
  | .dial _ id _ | .dialUnwrapped id _ | .inbound id _ _
  | .inboundRefused id _ _ _ =>
      id ∉ s.connections.used ∧ id ∉ s.connections.dials
  | .connected id peer _ | .refused id peer _ _ =>
      ∃ x ∈ s.pending, x.id = id ∧ ∀ known ∈ x.peer, known = peer
  | .failed id peer error =>
      error ≠ .dialPeerConditionFalse ∧
        ∃ x ∈ s.pending, x.id = id ∧ ∀ known ∈ x.peer, peer = some known
  | .closed id peer => ∃ x ∈ s.connections.opened, x.id = id ∧ x.peer = peer

/-- Of the behaviours in `asked`, only the maker of a dial waits for the peer
it names. -/
def OnlyMaker (s : DialSwarm ι) (id : ConnectionId) (asked : ι → Bool) : Prop :=
  ∀ x ∈ s.pending, x.id = id → ∀ e ∈ s.unanswered, asked e.owner = true →
    x.peer.isSome → x.peer = e.peer → x.maker = some e.owner

/-- A dial that lands on a circuit is nobody else's. -/
def Unshared (s : DialSwarm ι) : DialEvent ι → Prop
  | .connected id _ addr =>
      throughACircuit addr = true → s.OnlyMaker id fun _ => true
  | .refused id _ addr asked =>
      throughACircuit addr = true → s.OnlyMaker id asked
  | _ => True

instance (s : DialSwarm ι) :
    (event : DialEvent ι) → Decidable (s.Allows event)
  | .dial _ id _ | .dialUnwrapped id _ | .inbound id _ _
  | .inboundRefused id _ _ _ =>
      inferInstanceAs (Decidable
        (id ∉ s.connections.used ∧ id ∉ s.connections.dials))
  | .connected id peer _ | .refused id peer _ _ =>
      inferInstanceAs (Decidable
        (∃ x ∈ s.pending, x.id = id ∧ ∀ known ∈ x.peer, known = peer))
  | .failed id peer error =>
      inferInstanceAs (Decidable (error ≠ .dialPeerConditionFalse ∧
        ∃ x ∈ s.pending, x.id = id ∧ ∀ known ∈ x.peer, peer = some known))
  | .closed id peer =>
      inferInstanceAs (Decidable
        (∃ x ∈ s.connections.opened, x.id = id ∧ x.peer = peer))

instance [DecidableEq ι] (s : DialSwarm ι) (id : ConnectionId)
    (asked : ι → Bool) : Decidable (s.OnlyMaker id asked) :=
  inferInstanceAs (Decidable (∀ x ∈ s.pending, x.id = id →
    ∀ e ∈ s.unanswered, asked e.owner = true →
      x.peer.isSome → x.peer = e.peer → x.maker = some e.owner))

instance [DecidableEq ι] (s : DialSwarm ι) :
    (event : DialEvent ι) → Decidable (s.Unshared event)
  | .connected id _ addr =>
      inferInstanceAs (Decidable
        (throughACircuit addr = true → s.OnlyMaker id fun _ => true))
  | .refused id _ addr asked =>
      inferInstanceAs (Decidable
        (throughACircuit addr = true → s.OnlyMaker id asked))
  | .dial .. | .dialUnwrapped .. | .failed .. | .inbound ..
  | .inboundRefused .. | .closed .. => inferInstanceAs (Decidable True)

end DialSwarm

/-! ## What answers a dial -/

namespace PendingDial.Covers

variable {ι : Type} {x : PendingDial ι} {e : Unanswered ι}

theorem answered_failure
    {reported : Option PeerId} {error : DialError} (h : x.Covers e)
    (herror : error ≠ .dialPeerConditionFalse)
    (hpeer : ∀ known ∈ x.peer, reported = some known) :
    e.answeredBy (.swarmEvent (.dialFailure reported error x.id)) = true := by
  rcases h with ⟨hid, -⟩ | ⟨hsome, heq⟩
  · simp [Unanswered.answeredBy, herror, hid]
  · obtain ⟨known, hknown⟩ := Option.isSome_iff_exists.1 hsome
    have hreported := hpeer known hknown
    simp [Unanswered.answeredBy, herror, hreported, ← heq, hknown]

theorem answered_connection {peer : PeerId} {others : ℕ} (h : x.Covers e)
    (hpeer : ∀ known ∈ x.peer, known = peer) :
    e.answeredBy
      (.swarmEvent (.connectionEstablished peer x.id others)) = true := by
  rcases h with ⟨hid, -⟩ | ⟨hsome, heq⟩
  · simp [Unanswered.answeredBy, hid]
  · obtain ⟨known, hknown⟩ := Option.isSome_iff_exists.1 hsome
    have hreached := hpeer known hknown
    simp [Unanswered.answeredBy, ← heq, hknown, hreached]

end PendingDial.Covers

/-! ## What a wrapper tells its behaviour -/

namespace DirectOnly

variable {d : DirectOnly} {id : ConnectionId} {peer : PeerId}
  {addr : Multiaddr}

/-- A failure is passed on, unless it is a circuit's. -/
theorem failure_passed {reported : Option PeerId} {error : DialError}
    (h : id ∉ d.relayed) : (d.callback (.swarmEvent
      (.dialFailure reported error id) : Callback Unit)).1.calls =
        [.swarmEvent (.dialFailure reported error id)] := by
  rw [← Std.ExtTreeMap.contains_iff_mem] at h
  simp only [callback, onSwarmEvent]
  split
  · rfl
  · rfl

theorem connection_passed {others : ℕ} (h : id ∉ d.relayed) :
    (d.callback (.swarmEvent
      (.connectionEstablished peer id others) : Callback Unit)).1.calls =
        [.swarmEvent
          (.connectionEstablished peer id (d.permittedFor peer))] := by
  rw [← Std.ExtTreeMap.contains_iff_mem] at h
  simp only [callback, onSwarmEvent]
  rw [if_neg h]

/-- A dial that lands on a circuit is reported to the behaviour that made it. -/
theorem landed_reported {denied : Bool} (hcircuit : throughACircuit addr = true)
    (h : id ∈ d.dialling) : (d.callback
      (.establishedOutbound id peer addr denied : Callback Unit)).1.calls =
        [.swarmEvent (.dialFailure (some peer) .aborted id)] := by
  rw [← Std.ExtTreeSet.contains_iff_mem] at h
  simp only [callback, establishedOutbound]
  rw [if_pos hcircuit, if_pos h]

theorem direct_not_relayed {denied : Bool}
    (hdirect : ¬ throughACircuit addr = true) : (d.callback
      (.establishedOutbound id peer addr denied : Callback Unit)).2.relayed =
        d.relayed := by
  simp only [callback, establishedOutbound]
  rw [if_neg hdirect]

theorem poll_keeps (inner : List (ToSwarm Unit)) {other : ConnectionId}
    (h : other ∈ d.dialling) : other ∈ (d.poll inner).2.2.dialling := by
  induction inner with
  | nil => exact h
  | cons first inner ih =>
      cases first with
      | other => exact h
      | notifyHandler peer handler event =>
          simp only [poll]
          split
          · exact h
          · exact ih
      | dial id peer =>
          simp only [poll]
          split
          · exact ih
          · exact (BTreeSet.mem_insert_iff _ _ _).2 (Or.inr h)

/-- Other dials stay waited for. -/
theorem dialling_kept (callback : Callback Unit) {other : ConnectionId}
    (h : other ∈ d.dialling)
    (hout : ∀ peer addr denied,
      callback ≠ .establishedOutbound other peer addr denied)
    (hfail : ∀ reported error,
      callback ≠ .swarmEvent (.dialFailure reported error other)) :
    other ∈ (d.callback callback).2.dialling := by
  cases callback with
  | pendingInbound id localAddr =>
      simp only [callback, pendingInbound]
      split <;> exact h
  | establishedInbound id peer localAddr denied =>
      simp only [callback, establishedInbound]
      split <;> exact h
  | pendingOutbound id peer => exact h
  | establishedOutbound id peer addr denied =>
      have hne : id ≠ other := by
        rintro rfl
        exact hout peer addr denied rfl
      have hkept : other ∈ d.dialling.erase id :=
        Std.ExtTreeSet.mem_erase.2 ⟨by simpa using hne, h⟩
      simp only [callback, establishedOutbound]
      split
      · split
        · exact hkept
        · exact h
      · exact hkept
  | handlerEvent peer id => exact h
  | poll inner => exact poll_keeps inner h
  | swarmEvent event =>
      cases event with
      | dialFailure reported error id =>
          have hne : id ≠ other := by
            rintro rfl
            exact hfail reported error rfl
          simp only [callback, onSwarmEvent]
          split
          · exact Std.ExtTreeSet.mem_erase.2 ⟨by simpa using hne, h⟩
          · split <;> exact h
      | connectionEstablished peer id others =>
          simp only [callback, onSwarmEvent]
          split <;> exact h
      | connectionClosed peer id remaining =>
          simp only [callback, onSwarmEvent]
          split <;> exact h
      | addressChange peer id =>
          simp only [callback, onSwarmEvent]
          split <;> exact h
      | listenFailure id =>
          simp only [callback, onSwarmEvent]
          split <;> exact h
      | other => exact h

/-- Whether a dial is answered at once: its peer has circuits and no other
connection. -/
theorem circuitOnly_of_opened {c : Connections} {x : Connection}
    (h : Agrees d c) (hx : x ∈ c.opened) (hno : d.permittedFor x.peer = 0) :
    d.circuitOnly x.peer = true := by
  have hcircuit : x.circuit = true := by
    rw [h.permittedFor, List.length_eq_zero_iff] at hno
    by_contra hdirect
    rw [Bool.not_eq_true] at hdirect
    have hmem : x.id ∈ c.direct x.peer := by
      rw [Connections.mem_direct, ← hdirect]
      exact hx
    rw [hno] at hmem
    cases hmem
  have hheld : d.relayed[x.id]? = some x.peer := by
    rw [h.relayed, ← hcircuit]
    exact List.mem_append_right _ hx
  rw [circuitOnly, Bool.and_eq_true]
  refine ⟨decide_eq_true hno, List.any_eq_true.2 ⟨x.peer, ?_, by simp⟩⟩
  exact (BTreeMap.mem_values_iff _ _).2 ⟨x.id, hheld⟩

/-- More ids may have been used. -/
theorem Agrees.mono {c c' : Connections} (h : Agrees d c)
    (haccepted : c'.accepted = c.accepted) (hopened : c'.opened = c.opened)
    (hused : c.used ⊆ c'.used) (hdials : c.dials ⊆ c'.dials) : Agrees d c' where
  permitted peer := by
    rw [Connections.direct, hopened]
    exact h.permitted peer
  relayed id peer := by
    rw [haccepted, hopened]
    exact h.relayed id peer
  nodup := by
    rw [haccepted, hopened]
    exact h.nodup
  used x hx := by
    rw [haccepted, hopened] at hx
    exact hused (h.used x hx)
  dialled id hid := hdials (h.dialled id hid)
  settled := h.settled

/-- What is not open has no circuit. -/
theorem Agrees.not_relayed {c : Connections} (h : Agrees d c)
    (haccepted : c.accepted = []) (hopen : ∀ x ∈ c.opened, x.id ≠ id) :
    id ∉ d.relayed := by
  rw [BTreeMap.mem_iff_exists]
  rintro ⟨peer, hpeer⟩
  rw [h.relayed, haccepted, List.nil_append] at hpeer
  exact hopen _ hpeer rfl

end DirectOnly

namespace DialSwarm

open DirectOnly

variable {ι : Type} {s : DialSwarm ι} {e : Unanswered ι}
  {asked : ι → Bool} {callback : Callback Unit} {id : ConnectionId}

theorem mem_each : e ∈ (s.each asked callback).unanswered ↔
    e ∈ s.unanswered ∧ (asked e.owner = true →
      ∀ call ∈ ((s.wrappers e.owner).callback callback).1.calls,
        e.answeredBy call = false) := by
  rw [each, List.mem_filter]
  refine and_congr_right fun _ => ?_
  cases asked e.owner <;> simp

theorem mem_all : e ∈ (s.all callback).unanswered ↔
    e ∈ s.unanswered ∧
      ∀ call ∈ ((s.wrappers e.owner).callback callback).1.calls,
        e.answeredBy call = false := by
  rw [all, mem_each]
  simp

/-- The wrappers agree with the swarm's view, and dials in progress are known
to the wrapper that made them. -/
structure Tracks (s : DialSwarm ι) : Prop where
  agrees : ∀ i, Agrees (s.wrappers i) s.connections
  announced : s.connections.accepted = []
  dialled : ∀ x ∈ s.pending, x.id ∈ s.connections.dials
  unused : ∀ x ∈ s.pending, x.id ∉ s.connections.used
  nodup : (s.pending.map PendingDial.id).Nodup
  own : ∀ x ∈ s.pending, ∀ i, x.maker = some i →
    x.id ∈ (s.wrappers i).dialling

/-- What waits has a dial in progress that will answer it. -/
def Covered (s : DialSwarm ι) : Prop :=
  ∀ e ∈ s.unanswered, ∃ x ∈ s.pending, x.Covers e

theorem tracks_start : Tracks (start : DialSwarm ι) where
  agrees _ := agrees_start
  announced := rfl
  dialled x hx := by cases hx
  unused x hx := by cases hx
  nodup := List.nodup_nil
  own x hx := by cases hx

/-- Connections come and go, and no dial begins. -/
theorem Tracks.of_sublist {s' : DialSwarm ι} (h : Tracks s)
    (hagrees : ∀ i, Agrees (s'.wrappers i) s'.connections)
    (hannounced : s'.connections.accepted = [])
    (hpending : s'.pending.Sublist s.pending)
    (hdials : s.connections.dials ⊆ s'.connections.dials)
    (hunused : ∀ x ∈ s'.pending, x.id ∉ s'.connections.used)
    (hown : ∀ x ∈ s'.pending, ∀ i, x.id ∈ (s.wrappers i).dialling →
      x.id ∈ (s'.wrappers i).dialling) : Tracks s' where
  agrees := hagrees
  announced := hannounced
  dialled x hx := hdials (h.dialled x (hpending.subset hx))
  unused := hunused
  nodup := h.nodup.sublist (hpending.map _)
  own x hx i hi := hown x hx i (h.own x (hpending.subset hx) i hi)

/-- What is answered waits no longer, and the rest is covered as before. -/
theorem Covered.of_kept {s' : DialSwarm ι} (h : Covered s)
    (hkept : ∀ e ∈ s'.unanswered, e ∈ s.unanswered ∧
      ∀ x ∈ s.pending, x.Covers e → x ∈ s'.pending) : Covered s' := by
  intro e he
  obtain ⟨hwaits, hstill⟩ := hkept e he
  obtain ⟨x, hx, hcovers⟩ := h e hwaits
  exact ⟨x, hstill x hx hcovers, hcovers⟩

/-! ## Several callbacks -/

section

variable {opening closing : Callback Unit} {x : Connection} {others : ℕ}

theorem agrees_all (h : ∀ i, Agrees (s.wrappers i) s.connections)
    (hallows : s.connections.Allows callback) (i : ι) :
    Agrees ((s.all callback).wrappers i) (s.all callback).connections :=
  (callback_agrees callback (h i) hallows).1

/-- A connection is given its handlers and announced. -/
theorem agrees_connected (h : ∀ i, Agrees (s.wrappers i) s.connections)
    (hallows : s.connections.Allows opening)
    (hnext : s.connections.next opening = s.connections.admitted x) (i : ι) :
    let s' := (s.all opening).all
      (.swarmEvent (.connectionEstablished x.peer x.id others))
    Agrees (s'.wrappers i) s'.connections := by
  have hadmitted : (s.all opening).connections = s.connections.admitted x := hnext
  have hannounce : (s.all opening).connections.Allows (ε := Unit)
      (.swarmEvent (.connectionEstablished x.peer x.id others)) := by
    rw [hadmitted]
    exact ⟨x, List.mem_cons_self, rfl, rfl⟩
  exact agrees_all (agrees_all h hallows) hannounce i

/-- Nothing stays between its handlers and its announcement. -/
theorem accepted_announced {c : Connections} (others : ℕ)
    (hannounced : c.accepted = []) :
    ((c.admitted x).next (ε := Unit) (.swarmEvent
      (.connectionEstablished x.peer x.id others))).accepted = [] := by
  simp [Connections.next, Connections.failed, Connections.admitted, hannounced]

theorem accepted_failed {c : Connections} (hannounced : c.accepted = []) :
    ((c.admitted x).failed x.id).accepted = [] := by
  simp [Connections.failed, Connections.admitted, hannounced]

theorem next_failed {c : Connections} (hannounced : c.accepted = [])
    (hclosing : ∀ c : Connections, c.next closing = c.failed x.id) :
    (c.admitted x).next closing =
      { c.next closing with used := x.id :: c.used } := by
  rw [hclosing, hclosing]
  simp [Connections.failed, Connections.admitted, hannounced]

/-- A connection is given some of its handlers and refused. -/
theorem agrees_refused (h : ∀ i, Agrees (s.wrappers i) s.connections)
    (hannounced : s.connections.accepted = [])
    (hallows : s.connections.Allows opening)
    (hnext : s.connections.next opening = s.connections.admitted x)
    (hclosing : ∀ c : Connections, c.next closing = c.failed x.id)
    (hcloses : ∀ c : Connections,
      c.opened = s.connections.opened → c.Allows closing) (i : ι) :
    let s' := (s.each asked opening).all closing
    Agrees (s'.wrappers i) s'.connections := by
  change Agrees (DirectOnly.callback (if asked i then _ else _) _).2
    ((s.connections.next opening).next closing)
  rw [hnext]
  split
  · have hopened := (callback_agrees opening (h i) hallows).1
    rw [hnext] at hopened
    exact (callback_agrees closing hopened (hcloses _ rfl)).1
  · have hclosed := (callback_agrees closing (h i) (hcloses _ rfl)).1
    have hused : (s.connections.next closing).used = s.connections.used := by
      rw [hclosing]
      rfl
    rw [next_failed hannounced hclosing]
    refine hclosed.mono rfl rfl ?_ (List.Subset.refl _)
    rw [hused]
    exact List.subset_cons_self _ _

end

namespace Tracks

/-- The id of a dial in progress names no connection. -/
theorem not_opened (h : Tracks s) {x : PendingDial ι} (hx : x ∈ s.pending)
    (i : ι) {y : Connection} (hy : y ∈ s.connections.opened) : y.id ≠ x.id := by
  intro heq
  have hused := (h.agrees i).used y (List.mem_append_right _ hy)
  exact h.unused x hx (heq ▸ hused)

/-- The dial that is over covers nothing that is left waiting, if it covers
only what it answers. -/
theorem kept (h : Tracks s) {x z : PendingDial ι} (hx : x ∈ s.pending)
    (hz : z ∈ s.pending) (hanswers : z.Covers e → False) (hcovers : x.Covers e) :
    x ∈ (s.settle z.id).pending := by
  refine List.mem_filter.2 ⟨hx, decide_eq_true ?_⟩
  intro hid
  rw [List.inj_on_of_nodup_map h.nodup hx hz hid] at hcovers
  exact hanswers hcovers

/-- A dial that lands on a circuit answers what its maker waits for. -/
theorem landed (h : Tracks s) {z : PendingDial ι} {peer : PeerId}
    {addr : Multiaddr} {denied : Bool} (hz : z ∈ s.pending)
    (hpeer : ∀ known ∈ z.peer, known = peer)
    (hcircuit : throughACircuit addr = true) (hcovers : z.Covers e)
    (hmaker : z.peer.isSome → z.peer = e.peer → z.maker = some e.owner)
    (hsilent : ∀ call ∈ ((s.wrappers e.owner).callback
      (.establishedOutbound z.id peer addr denied : Callback Unit)).1.calls,
      e.answeredBy call = false) : False := by
  have hown : z.maker = some e.owner := by
    rcases hcovers with ⟨-, hmade⟩ | ⟨hknown, hsame⟩
    · exact hmade
    · exact hmaker hknown hsame
  have hcalls : ((s.wrappers e.owner).callback
      (.establishedOutbound z.id peer addr denied : Callback Unit)).1.calls =
        [.swarmEvent (.dialFailure (some peer) .aborted z.id)] :=
    landed_reported hcircuit (h.own z hz e.owner hown)
  have hreached : ∀ known ∈ z.peer, some peer = some known := by
    intro known hknown
    rw [hpeer known hknown]
  have hanswered : e.answeredBy
      (.swarmEvent (.dialFailure (some peer) .aborted z.id)) = true :=
    hcovers.answered_failure (by simp) hreached
  rw [hcalls] at hsilent
  exact Bool.eq_false_iff.1 (hsilent _ (List.mem_singleton_self _)) hanswered

/-- A failure that is passed on answers whoever waits for the dial. -/
theorem failed_answers {z : PendingDial ι} {d : DirectOnly}
    {reported : Option PeerId} {error : DialError} (hrelayed : z.id ∉ d.relayed)
    (hcovers : z.Covers e) (herror : error ≠ .dialPeerConditionFalse)
    (hpeer : ∀ known ∈ z.peer, reported = some known)
    (hsilent : ∀ call ∈ (d.callback (.swarmEvent
      (.dialFailure reported error z.id) : Callback Unit)).1.calls,
      e.answeredBy call = false) : False := by
  rw [failure_passed hrelayed] at hsilent
  exact Bool.eq_false_iff.1 (hsilent _ (List.mem_singleton_self _))
    (hcovers.answered_failure herror hpeer)

theorem connected_answers {z : PendingDial ι} {d : DirectOnly} {peer : PeerId}
    {others : ℕ} (hrelayed : z.id ∉ d.relayed) (hcovers : z.Covers e)
    (hpeer : ∀ known ∈ z.peer, known = peer)
    (hsilent : ∀ call ∈ (d.callback (.swarmEvent
      (.connectionEstablished peer z.id others) : Callback Unit)).1.calls,
      e.answeredBy call = false) : False := by
  rw [connection_passed hrelayed] at hsilent
  exact Bool.eq_false_iff.1 (hsilent _ (List.mem_singleton_self _))
    (hcovers.answered_connection hpeer)

theorem not_relayed (h : Tracks s) {z : PendingDial ι} (hz : z ∈ s.pending)
    (i : ι) : z.id ∉ (s.wrappers i).relayed :=
  (h.agrees i).not_relayed h.announced fun _ hy => h.not_opened hz i hy

/-- Callbacks about one id leave the other dials in progress alone. -/
theorem dialling_all {other : ConnectionId} {i : ι}
    (h : other ∈ (s.wrappers i).dialling)
    (hout : ∀ peer addr denied,
      callback ≠ .establishedOutbound other peer addr denied)
    (hfail : ∀ reported error,
      callback ≠ .swarmEvent (.dialFailure reported error other)) :
    other ∈ ((s.each asked callback).wrappers i).dialling := by
  rw [each]
  dsimp only
  split
  · exact dialling_kept callback h hout hfail
  · exact h

theorem failed (h : Tracks s) {reported : Option PeerId}
    {error : DialError} {z : PendingDial ι} (hz : z ∈ s.pending) :
    Tracks ((s.settle z.id).all
      (.swarmEvent (.dialFailure reported error z.id))) := by
  refine h.of_sublist ?_ ?_ List.filter_sublist (List.Subset.refl _) ?_ ?_
  · intro i
    have hallows : s.connections.Allows (.swarmEvent
        (.dialFailure reported error z.id) : Callback Unit) :=
      fun y hy => h.not_opened hz i hy
    exact agrees_all (s := s.settle z.id) h.agrees hallows i
  · change List.filter _ s.connections.accepted = []
    rw [h.announced]
    rfl
  · intro x hx
    exact h.unused x (List.mem_filter.1 hx).1
  · intro x hx i hown
    have hne : x.id ≠ z.id := by simpa using (List.mem_filter.1 hx).2
    refine dialling_all (s := s.settle z.id) hown (by simp) ?_
    intro reported error heq
    simp only [Callback.swarmEvent.injEq, FromSwarm.dialFailure.injEq] at heq
    exact hne heq.2.2.symm

theorem covered_failed (h : Tracks s) (hcovered : Covered s)
    {reported : Option PeerId} {error : DialError} {z : PendingDial ι}
    (hz : z ∈ s.pending) (herror : error ≠ .dialPeerConditionFalse)
    (hpeer : ∀ known ∈ z.peer, reported = some known) :
    Covered ((s.settle z.id).all
      (.swarmEvent (.dialFailure reported error z.id))) := by
  refine hcovered.of_kept fun e he => ?_
  obtain ⟨hwaits, hsilent⟩ := mem_all.1 he
  refine ⟨hwaits, fun x hx hcovers => h.kept hx hz ?_ hcovers⟩
  intro hz'
  exact failed_answers (h.not_relayed hz e.owner) hz' herror hpeer hsilent

/-- The other dials in progress, after a dial was given its handlers. -/
theorem dialling_after {z x : PendingDial ι} {peer : PeerId} {addr : Multiaddr}
    {denied : Bool} {i : ι} (hx : x ∈ (s.settle z.id).pending)
    (hown : x.id ∈ (s.wrappers i).dialling) : x.id ∈ (((s.settle z.id).each asked
      (.establishedOutbound z.id peer addr denied)).wrappers i).dialling := by
  have hne : x.id ≠ z.id := by simpa using (List.mem_filter.1 hx).2
  refine dialling_all (s := s.settle z.id) hown ?_ (by simp)
  intro peer addr denied heq
  simp only [Callback.establishedOutbound.injEq] at heq
  exact hne heq.1.symm

theorem connected (h : Tracks s) {peer : PeerId} {addr : Multiaddr}
    {others : ℕ} {z : PendingDial ι} (hz : z ∈ s.pending) :
    Tracks (((s.settle z.id).all (.establishedOutbound z.id peer addr false)).all
      (.swarmEvent (.connectionEstablished peer z.id others))) := by
  refine h.of_sublist ?_ ?_ List.filter_sublist (List.Subset.refl _) ?_ ?_
  · intro i
    have hallows : s.connections.Allows
        (.establishedOutbound z.id peer addr false : Callback Unit) :=
      h.unused z hz
    exact agrees_connected (s := s.settle z.id)
      (x := ⟨z.id, peer, throughACircuit addr⟩) h.agrees hallows rfl i
  · exact accepted_announced (x := ⟨z.id, peer, throughACircuit addr⟩) others
      h.announced
  · intro x hx hused
    obtain ⟨hx, hne⟩ := List.mem_filter.1 hx
    rcases List.mem_cons.1 hused with heq | hused
    · simp [heq] at hne
    · exact h.unused x hx hused
  · intro x hx i hown
    exact dialling_all (dialling_after hx hown) (by simp) (by simp)

theorem covered_connected (h : Tracks s) (hcovered : Covered s) {peer : PeerId}
    {addr : Multiaddr} {others : ℕ} {z : PendingDial ι} (hz : z ∈ s.pending)
    (hpeer : ∀ known ∈ z.peer, known = peer)
    (hunshared : throughACircuit addr = true → s.OnlyMaker z.id fun _ => true) :
    Covered (((s.settle z.id).all
      (.establishedOutbound z.id peer addr false)).all
        (.swarmEvent (.connectionEstablished peer z.id others))) := by
  refine hcovered.of_kept fun e he => ?_
  obtain ⟨hfirst, hsecond⟩ := mem_all.1 he
  obtain ⟨hwaits, hsilent⟩ := mem_all.1 hfirst
  refine ⟨hwaits, fun x hx hcovers => h.kept hx hz ?_ hcovers⟩
  intro hz'
  by_cases hcircuit : throughACircuit addr = true
  · refine h.landed hz hpeer hcircuit hz' ?_ hsilent
    exact hunshared hcircuit z hz rfl e hwaits rfl
  · refine connected_answers ?_ hz' hpeer hsecond
    change z.id ∉ (DirectOnly.callback _ _).2.relayed
    rw [direct_not_relayed hcircuit]
    exact h.not_relayed hz e.owner

theorem refused (h : Tracks s) {peer : PeerId} {addr : Multiaddr}
    {z : PendingDial ι} (hz : z ∈ s.pending) :
    Tracks (((s.settle z.id).each asked
      (.establishedOutbound z.id peer addr true)).all
        (.swarmEvent (.dialFailure (some peer) .denied z.id))) := by
  refine h.of_sublist ?_ ?_ List.filter_sublist (List.Subset.refl _) ?_ ?_
  · intro i
    have hallows : s.connections.Allows
        (.establishedOutbound z.id peer addr true : Callback Unit) :=
      h.unused z hz
    refine agrees_refused (s := s.settle z.id)
      (x := ⟨z.id, peer, throughACircuit addr⟩) h.agrees h.announced
      hallows rfl (fun _ => rfl) ?_ i
    intro c hc y hy
    exact h.not_opened hz i (hc ▸ hy)
  · exact accepted_failed (x := ⟨z.id, peer, throughACircuit addr⟩)
      h.announced
  · intro x hx hused
    obtain ⟨hx, hne⟩ := List.mem_filter.1 hx
    rcases List.mem_cons.1 hused with heq | hused
    · simp [heq] at hne
    · exact h.unused x hx hused
  · intro x hx i hown
    have hne : x.id ≠ z.id := by simpa using (List.mem_filter.1 hx).2
    refine dialling_all (dialling_after hx hown) (by simp) ?_
    intro reported error heq
    simp only [Callback.swarmEvent.injEq, FromSwarm.dialFailure.injEq] at heq
    exact hne heq.2.2.symm

theorem covered_refused (h : Tracks s) (hcovered : Covered s) {peer : PeerId}
    {addr : Multiaddr} {z : PendingDial ι} (hz : z ∈ s.pending)
    (hpeer : ∀ known ∈ z.peer, known = peer)
    (hunshared : throughACircuit addr = true → s.OnlyMaker z.id asked) :
    Covered (((s.settle z.id).each asked
      (.establishedOutbound z.id peer addr true)).all
        (.swarmEvent (.dialFailure (some peer) .denied z.id))) := by
  refine hcovered.of_kept fun e he => ?_
  obtain ⟨hfirst, hsecond⟩ := mem_all.1 he
  obtain ⟨hwaits, hsilent⟩ := mem_each.1 hfirst
  refine ⟨hwaits, fun x hx hcovers => h.kept hx hz ?_ hcovers⟩
  intro hz'
  have hdenied : ∀ known ∈ z.peer, some peer = some known :=
    fun known hknown => congrArg some (hpeer known hknown).symm
  by_cases hlanded : asked e.owner = true ∧ throughACircuit addr = true
  · obtain ⟨hasked, hcircuit⟩ := hlanded
    refine h.landed hz hpeer hcircuit hz' ?_ (hsilent hasked)
    exact hunshared hcircuit z hz rfl e hwaits hasked
  · refine failed_answers ?_ hz' (by simp) hdenied hsecond
    change z.id ∉ DirectOnly.relayed (if asked e.owner then _ else _)
    split
    · next hasked =>
      rw [direct_not_relayed fun hcircuit => hlanded ⟨hasked, hcircuit⟩]
      exact h.not_relayed hz e.owner
    · exact h.not_relayed hz e.owner

theorem inbound (h : Tracks s) {peer : PeerId} {localAddr : Multiaddr}
    {others : ℕ} (hused : id ∉ s.connections.used)
    (hdials : id ∉ s.connections.dials) :
    Tracks ((s.all (.establishedInbound id peer localAddr false)).all
      (.swarmEvent (.connectionEstablished peer id others))) := by
  refine h.of_sublist ?_ ?_ (List.Sublist.refl _) (List.Subset.refl _) ?_ ?_
  · intro i
    have hallows : s.connections.Allows
        (.establishedInbound id peer localAddr false : Callback Unit) :=
      ⟨hused, hdials⟩
    exact agrees_connected (x := ⟨id, peer, throughACircuit localAddr⟩)
      h.agrees hallows rfl i
  · exact accepted_announced (x := ⟨id, peer, throughACircuit localAddr⟩)
      others h.announced
  · intro x hx hmem
    rcases List.mem_cons.1 hmem with rfl | hold
    · exact hdials (h.dialled x hx)
    · exact h.unused x hx hold
  · intro x hx i hown
    exact dialling_all (dialling_all hown (by simp) (by simp)) (by simp) (by simp)

theorem inboundRefused (h : Tracks s) {peer : PeerId} {localAddr : Multiaddr}
    (hused : id ∉ s.connections.used) (hdials : id ∉ s.connections.dials) :
    Tracks ((s.each asked (.establishedInbound id peer localAddr true)).all
      (.swarmEvent (.listenFailure id))) := by
  refine h.of_sublist ?_ ?_ (List.Sublist.refl _) (List.Subset.refl _) ?_ ?_
  · intro i
    have hallows : s.connections.Allows
        (.establishedInbound id peer localAddr true : Callback Unit) :=
      ⟨hused, hdials⟩
    refine agrees_refused (x := ⟨id, peer, throughACircuit localAddr⟩)
      h.agrees h.announced hallows rfl (fun _ => rfl) ?_ i
    rintro c hc y hy rfl
    exact hused ((h.agrees i).used y (List.mem_append_right _ (hc ▸ hy)))
  · exact accepted_failed (x := ⟨id, peer, throughACircuit localAddr⟩)
      h.announced
  · intro x hx hmem
    rcases List.mem_cons.1 hmem with rfl | hold
    · exact hdials (h.dialled x hx)
    · exact h.unused x hx hold
  · intro x hx i hown
    exact dialling_all (dialling_all hown (by simp) (by simp)) (by simp) (by simp)

theorem closed (h : Tracks s) {y : Connection} {remaining : ℕ}
    (hy : y ∈ s.connections.opened) : Tracks (s.all
      (.swarmEvent (.connectionClosed y.peer y.id remaining))) := by
  refine h.of_sublist ?_ h.announced (List.Sublist.refl _)
    (List.Subset.refl _) h.unused ?_
  · intro i
    have hallows : s.connections.Allows (.swarmEvent
        (.connectionClosed y.peer y.id remaining) : Callback Unit) :=
      ⟨y, hy, rfl, rfl⟩
    exact agrees_all h.agrees hallows i
  · intro x hx i hown
    exact dialling_all hown (by simp) (by simp)

end Tracks

/-- An event that begins and ends no dial only takes answers in. -/
theorem Covered.all (h : Covered s) : Covered (s.all callback) :=
  h.of_kept fun _ he => ⟨(mem_all.1 he).1, fun _ hx _ => hx⟩

theorem Covered.each (h : Covered s) : Covered (s.each asked callback) :=
  h.of_kept fun _ he => ⟨(mem_each.1 he).1, fun _ hx _ => hx⟩

/-! ## Asking for a dial -/

namespace Tracks

/-- The swarm declines a dial. -/
theorem declined (h : Tracks s) {peer : Option PeerId}
    (hused : id ∉ s.connections.used) (hpending : ∀ x ∈ s.pending, x.id ≠ id) :
    Tracks (s.all
      (.swarmEvent (.dialFailure peer .dialPeerConditionFalse id))) := by
  refine h.of_sublist ?_ ?_ (List.Sublist.refl _) (List.Subset.refl _)
    h.unused ?_
  · intro i
    have hallows : s.connections.Allows (.swarmEvent
        (.dialFailure peer .dialPeerConditionFalse id) : Callback Unit) := by
      rintro x hx rfl
      exact hused ((h.agrees i).used x (List.mem_append_right _ hx))
    exact agrees_all h.agrees hallows i
  · change List.filter _ s.connections.accepted = []
    rw [h.announced]
    rfl
  · intro x hx i hown
    refine dialling_all hown (by simp) ?_
    intro reported error heq
    simp only [Callback.swarmEvent.injEq, FromSwarm.dialFailure.injEq] at heq
    exact hpending x hx heq.2.2.symm

/-- The swarm takes a dial on. -/
theorem started (h : Tracks s) {maker : Option ι} {peer : Option PeerId}
    (hdials : id ∈ s.connections.dials) (hused : id ∉ s.connections.used)
    (hpending : ∀ x ∈ s.pending, x.id ≠ id)
    (hown : ∀ i, maker = some i → id ∈ (s.wrappers i).dialling) :
    Tracks { s with pending := ⟨id, maker, peer⟩ :: s.pending } where
  agrees := h.agrees
  announced := h.announced
  dialled x hx := by
    rcases List.mem_cons.1 hx with rfl | hold
    · exact hdials
    · exact h.dialled x hold
  unused x hx := by
    rcases List.mem_cons.1 hx with rfl | hold
    · exact hused
    · exact h.unused x hold
  nodup := by
    rw [List.map_cons, List.nodup_cons]
    refine ⟨?_, h.nodup⟩
    intro hmem
    obtain ⟨x, hx, hid⟩ := List.mem_map.1 hmem
    exact hpending x hx hid
  own x hx i hi := by
    rcases List.mem_cons.1 hx with rfl | hold
    · exact hown i hi
    · exact h.own x hold i hi

theorem swarmDial (h : Tracks s) {maker : Option ι} {peer : Option PeerId}
    (hdials : id ∈ s.connections.dials) (hused : id ∉ s.connections.used)
    (hpending : ∀ x ∈ s.pending, x.id ≠ id)
    (hown : ∀ i, maker = some i → id ∈ (s.wrappers i).dialling) :
    Tracks (s.swarmDial maker id peer) := by
  unfold DialSwarm.swarmDial
  split
  · exact h.declined hused hpending
  · exact h.started hdials hused hpending hown

/-- The id of a dial of any other behaviour. -/
theorem numbered (h : Tracks s) : Tracks (s.numbered id) := by
  refine h.of_sublist ?_ h.announced (List.Sublist.refl _)
    (List.subset_cons_self _ _) h.unused fun _ _ _ hown => hown
  intro i
  exact (h.agrees i).mono rfl rfl (List.Subset.refl _)
    (List.subset_cons_self _ _)

/-- What waits does not matter for what the wrappers know. -/
theorem of_unanswered (h : Tracks s) (waiting : List (Unanswered ι)) :
    Tracks { s with unanswered := waiting } :=
  ⟨h.agrees, h.announced, h.dialled, h.unused, h.nodup, h.own⟩

variable [DecidableEq ι]

theorem polled (h : Tracks s) (i : ι) (peer : Option PeerId)
    (hused : id ∉ s.connections.used) :
    Tracks (s.each (fun j => j = i) (.poll [.dial id peer])) := by
  refine h.of_sublist ?_ h.announced (List.Sublist.refl _)
    (List.subset_append_right _ _) h.unused ?_
  · intro j
    change Agrees (if decide (j = i) = true then _ else _) _
    split
    · refine (callback_agrees _ (h.agrees j) ?_).1
      intro other hother
      rw [List.mem_singleton.1 hother]
      exact hused
    · exact (h.agrees j).mono rfl rfl (List.Subset.refl _)
        (List.subset_append_right _ _)
  · intro x hx j hown
    exact dialling_all hown (by simp) (by simp)

end Tracks

theorem issue_eq (s : DialSwarm ι) (i : ι) (id : ConnectionId)
    (peer : Option PeerId) : ∃ waiting,
      s.issue i id peer = { s with unanswered := waiting } ∧
      ∀ e ∈ waiting, e ∈ s.unanswered ∨ e = ⟨i, id, peer⟩ ∧
        ¬ peer.any (fun peer => 0 < (s.wrappers i).permittedFor peer) := by
  unfold issue
  split
  · exact ⟨s.unanswered, rfl, fun _ => Or.inl⟩
  · next hnone =>
    refine ⟨_, rfl, fun e he => ?_⟩
    rcases List.mem_cons.1 he with rfl | hold
    · exact Or.inr ⟨rfl, hnone⟩
    · exact Or.inl hold

/-- A dial the wrapper does not answer itself is answered by the swarm's, or
by one to the same peer. -/
theorem covered_swarmDial {i : ι} {peer : Option PeerId}
    (h : ∀ e ∈ s.unanswered, (∃ x ∈ s.pending, x.Covers e) ∨
      e = ⟨i, id, peer⟩ ∧ ∀ known ∈ peer,
        ∀ y ∈ s.connections.opened, y.peer ≠ known) :
    Covered (s.swarmDial (some i) id peer) := by
  intro e he
  unfold swarmDial at he ⊢
  split at he
  · next hbusy =>
    rw [if_pos hbusy]
    obtain ⟨hwaits, -⟩ := mem_all.1 he
    rcases h e hwaits with hcovered | ⟨rfl, hopen⟩
    · exact hcovered
    · cases peer with
      | none => cases hbusy
      | some known =>
          have hknown : s.busy known = true := hbusy
          rw [busy, Bool.or_eq_true, List.any_eq_true, List.any_eq_true]
            at hknown
          rcases hknown with ⟨y, hy, hpeer⟩ | ⟨x, hx, hpeer⟩
          · exact absurd (of_decide_eq_true hpeer) (hopen known rfl y hy)
          · have hsame : x.peer = some known := of_decide_eq_true hpeer
            exact ⟨x, hx, Or.inr ⟨by rw [hsame]; rfl, hsame⟩⟩
  · next hfree =>
    rw [if_neg hfree]
    rcases h e he with ⟨x, hx, hcovers⟩ | ⟨rfl, -⟩
    · exact ⟨x, List.mem_cons_of_mem _ hx, hcovers⟩
    · exact ⟨_, List.mem_cons_self, Or.inl ⟨rfl, rfl⟩⟩

theorem poll_dial (d : DirectOnly) (id : ConnectionId) (peer : Option PeerId) :
    d.poll [(.dial id peer : ToSwarm Unit)] =
      if peer.any d.circuitOnly then
        (none, [.swarmEvent (.dialFailure peer .aborted id)], d)
      else (some (.dial id peer), [],
        { d with dialling := d.dialling.insert id }) := rfl

theorem callback_poll (d : DirectOnly) (inner : List (ToSwarm Unit)) :
    d.callback (.poll inner) =
      (⟨(d.poll inner).2.1, none, (d.poll inner).1⟩, (d.poll inner).2.2) := rfl

section

variable [DecidableEq ι]

/-- What one behaviour's dial comes to. -/
theorem step_dial (s : DialSwarm ι) (i : ι) (id : ConnectionId)
    (peer : Option PeerId) : s.step (.dial i id peer) =
      let polled := (s.issue i id peer).each (fun j => j = i)
        (.poll [.dial id peer])
      if peer.any (s.wrappers i).circuitOnly then polled
      else polled.swarmDial (some i) id peer := by
  simp only [step, poll_dial]
  by_cases hcircuit : peer.any (s.wrappers i).circuitOnly = true
  · simp only [if_pos hcircuit]
  · simp only [if_neg hcircuit]

theorem tracks_dial (h : Tracks s) {i : ι} {peer : Option PeerId}
    (hused : id ∉ s.connections.used) (hdials : id ∉ s.connections.dials) :
    Tracks (s.step (.dial i id peer)) := by
  obtain ⟨waiting, hissue, -⟩ := issue_eq s i id peer
  have hpolled := (h.of_unanswered waiting).polled i peer hused
  rw [step_dial, hissue]
  dsimp only
  split
  · exact hpolled
  · next hfree =>
    refine hpolled.swarmDial (List.mem_append_left _ ?_) hused ?_ ?_
    · exact List.mem_singleton_self _
    · rintro x hx rfl
      exact hdials (h.dialled x hx)
    · intro j hj
      cases hj
      change id ∈ DirectOnly.dialling (if decide (i = i) = true then _ else _)
      rw [if_pos (by simp)]
      rw [callback_poll, poll_dial, if_neg hfree]
      exact (BTreeSet.mem_insert_iff _ _ _).2 (Or.inl rfl)

theorem covered_dial (h : Tracks s) (hcovered : Covered s) {i : ι}
    {peer : Option PeerId} : Covered (s.step (.dial i id peer)) := by
  obtain ⟨waiting, hissue, hwaiting⟩ := issue_eq s i id peer
  rw [step_dial, hissue]
  dsimp only
  split
  · next hcircuit =>
    intro e he
    obtain ⟨hwaits, hsilent⟩ := mem_each.1 he
    rcases hwaiting e hwaits with hold | ⟨rfl, -⟩
    · exact hcovered e hold
    · have hcalls := hsilent (by simp)
        (.swarmEvent (.dialFailure peer .aborted id)) (by
          rw [callback_poll, poll_dial, if_pos hcircuit]
          exact List.mem_singleton_self _)
      simp [Unanswered.answeredBy] at hcalls
  · next hfree =>
    refine covered_swarmDial fun e he => ?_
    obtain ⟨hwaits, -⟩ := mem_each.1 he
    rcases hwaiting e hwaits with hold | ⟨rfl, hnone⟩
    · exact Or.inl (hcovered e hold)
    · refine Or.inr ⟨rfl, ?_⟩
      rintro known hknown y hy rfl
      cases hknown
      have hno : (s.wrappers i).permittedFor y.peer = 0 := by
        simpa using hnone
      exact hfree (circuitOnly_of_opened (h.agrees i) hy hno)

/-! ## Runs -/

/-- One event keeps the invariant. -/
theorem step_served (h : Tracks s ∧ Covered s) {event : DialEvent ι}
    (hallows : s.Allows event) (hunshared : s.Unshared event) :
    Tracks (s.step event) ∧ Covered (s.step event) := by
  obtain ⟨htracks, hcovered⟩ := h
  cases event with
  | dial i id peer =>
      obtain ⟨hused, hdials⟩ := hallows
      exact ⟨tracks_dial htracks hused hdials, covered_dial htracks hcovered⟩
  | dialUnwrapped id peer =>
      obtain ⟨hused, hdials⟩ := hallows
      refine ⟨htracks.numbered.swarmDial List.mem_cons_self hused ?_ ?_, ?_⟩
      · rintro x hx rfl
        exact hdials (htracks.dialled x hx)
      · intro i hi
        cases hi
      · change Covered (DialSwarm.swarmDial _ _ _ _)
        unfold DialSwarm.swarmDial
        split
        · exact Covered.all hcovered
        · intro e he
          obtain ⟨x, hx, hcovers⟩ := hcovered e he
          exact ⟨x, List.mem_cons_of_mem _ hx, hcovers⟩
  | connected id peer addr =>
      obtain ⟨z, hz, rfl, hpeer⟩ := hallows
      exact ⟨htracks.connected hz,
        htracks.covered_connected hcovered hz hpeer hunshared⟩
  | refused id peer addr asked =>
      obtain ⟨z, hz, rfl, hpeer⟩ := hallows
      exact ⟨htracks.refused hz,
        htracks.covered_refused hcovered hz hpeer hunshared⟩
  | failed id peer error =>
      obtain ⟨herror, z, hz, rfl, hpeer⟩ := hallows
      exact ⟨htracks.failed hz,
        htracks.covered_failed hcovered hz herror hpeer⟩
  | inbound id peer localAddr =>
      obtain ⟨hused, hdials⟩ := hallows
      exact ⟨htracks.inbound hused hdials, hcovered.all.all⟩
  | inboundRefused id peer localAddr asked =>
      obtain ⟨hused, hdials⟩ := hallows
      exact ⟨htracks.inboundRefused hused hdials, hcovered.each.all⟩
  | closed id peer =>
      obtain ⟨y, hy, rfl, rfl⟩ := hallows
      exact ⟨htracks.closed hy, hcovered.all⟩

variable {events : List (DialEvent ι)}

/-- The swarm after some events. -/
def after (events : List (DialEvent ι)) : DialSwarm ι :=
  Machine.state (fun s event => ((), s.step event)) start events

/-- Every event of a run meets a condition on the state before it. -/
def Always (condition : DialSwarm ι → DialEvent ι → Prop)
    (events : List (DialEvent ι)) : Prop :=
  Machine.Along (fun s event => ((), s.step event)) condition start events

/-- Once no dial is in progress, no dial is left unanswered. -/
theorem dials_answered (hallowed : Always Allows events)
    (hunshared : Always Unshared events)
    (hpending : (after events).pending = []) :
    (after events).unanswered = [] := by
  have hserved : Tracks (after events) ∧ Covered (after events) := by
    refine Machine.guarded (G := fun s event => s.Allows event ∧
      s.Unshared event) (P := fun s => Tracks s ∧ Covered s) ?_ ?_ ?_
    · exact ⟨tracks_start, fun e he => by cases he⟩
    · intro s event h hgiven
      exact step_served h hgiven.1 hgiven.2
    · intro pre event hpre
      exact ⟨hallowed pre event hpre, hunshared pre event hpre⟩
  rw [List.eq_nil_iff_forall_not_mem]
  intro e he
  obtain ⟨x, hx, -⟩ := hserved.2 e he
  rw [hpending] at hx
  cases hx

end

/-- Two wrapped behaviours ask for one peer, and the dial that is made for the
first ends at an address. -/
def twoAsk (addr : Multiaddr) : List (DialEvent Bool) :=
  [.dial true ⟨1⟩ (some ⟨[7]⟩), .dial false ⟨2⟩ (some ⟨[7]⟩),
    .connected ⟨1⟩ ⟨[7]⟩ addr]

theorem dials_answered_direct : (after (twoAsk [])).unanswered = [] :=
  dials_answered (Machine.along_of_decide (by decide +kernel))
    (Machine.along_of_decide (by decide +kernel)) (by decide +kernel)

/-- The second behaviour's dial is declined, in a way it ignores, and the first
one's lands on a circuit. -/
theorem shared_dial_unanswered : ¬ ∀ events : List (DialEvent Bool),
    Always Allows events → (after events).pending = [] →
      (after events).unanswered = [] := by
  intro hall
  have hnone := hall (twoAsk [.p2pCircuit]) (Machine.along_of_decide (by decide +kernel))
    (by decide +kernel)
  have hone : (after (twoAsk [.p2pCircuit])).unanswered.length = 1 := by
    decide +kernel
  rw [hnone] at hone
  cases hone

end DialSwarm

end Intranet
