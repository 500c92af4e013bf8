import Intranet.Lib.Machine
import Intranet.Ref.DirectOnly

/-!
# A swarm without circuits

What the wrapped behaviour sees of a well-formed sequence of callbacks. The
swarm's own view of its connections runs beside the wrapper (`Connections`),
and one invariant ties the two together (`Agrees`): `permitted` lists the open
direct connections of each peer, `relayed` the circuits that are open or have
been given a handler, and a dial that is waited for is no circuit.

A notification for one connection is passed on unless that connection is a
circuit. So it names an open direct connection if the inner behaviour named an
open one, and one that has closed is left to the swarm (`closed_notified`).
-/

namespace Intranet

/-- A connection as the swarm knows it. -/
structure Connection where
  id : ConnectionId
  peer : PeerId
  circuit : Bool
deriving DecidableEq

/-- The swarm's view: connections that have been given a handler and are
neither announced nor failed, those announced and not closed, oldest first,
every id a handler was asked for, and every id of a dial of the behaviour. -/
structure Connections where
  accepted : List Connection
  opened : List Connection
  used : List ConnectionId
  dials : List ConnectionId
deriving DecidableEq

namespace Connections

variable {ε : Type}

def start : Connections := ⟨[], [], [], []⟩

/-- The open direct connections of a peer, oldest first. -/
def direct (s : Connections) (peer : PeerId) : List ConnectionId :=
  (s.opened.filter fun x => x.peer = peer && !x.circuit).map Connection.id

/-- A connection is given a handler. -/
def admitted (s : Connections) (x : Connection) : Connections :=
  { s with accepted := x :: s.accepted, used := x.id :: s.used }

/-- A connection that was not announced is dropped. -/
def failed (s : Connections) (id : ConnectionId) : Connections :=
  { s with accepted := s.accepted.filter fun x => x.id ≠ id }

/-- The ids of the dials the inner behaviour asks for. -/
def dialIds (inner : List (ToSwarm ε)) : List ConnectionId :=
  inner.filterMap fun
    | .dial connection _ => some connection
    | _ => none

/-- What a callback says about the connections. -/
def next (s : Connections) : Callback ε → Connections
  | .establishedInbound id peer localAddr _ =>
      s.admitted ⟨id, peer, throughACircuit localAddr⟩
  | .establishedOutbound id peer addr _ =>
      s.admitted ⟨id, peer, throughACircuit addr⟩
  | .swarmEvent (.connectionEstablished _ id _) =>
      { s.failed id with
        opened := s.opened ++ s.accepted.filter fun x => x.id = id }
  | .swarmEvent (.connectionClosed _ id _) =>
      { s with opened := s.opened.filter fun x => x.id ≠ id }
  | .swarmEvent (.dialFailure _ _ id) => s.failed id
  | .swarmEvent (.listenFailure id) => s.failed id
  | .poll inner => { s with dials := dialIds inner ++ s.dials }
  | _ => s

/-- When a callback can come: ids are unique, a connection is announced after
it was given a handler, closes or changes its address while it is open, and
fails before it is announced. -/
def Allows (s : Connections) : Callback ε → Prop
  | .establishedInbound id _ _ _ => id ∉ s.used ∧ id ∉ s.dials
  | .establishedOutbound id _ _ _ => id ∉ s.used
  | .swarmEvent (.connectionEstablished peer id _) =>
      ∃ x ∈ s.accepted, x.id = id ∧ x.peer = peer
  | .swarmEvent (.connectionClosed peer id _) =>
      ∃ x ∈ s.opened, x.id = id ∧ x.peer = peer
  | .swarmEvent (.addressChange peer id) =>
      ∃ x ∈ s.opened, x.id = id ∧ x.peer = peer
  | .swarmEvent (.dialFailure _ _ id) => ∀ x ∈ s.opened, x.id ≠ id
  | .swarmEvent (.listenFailure id) => ∀ x ∈ s.opened, x.id ≠ id
  | .poll inner => ∀ id ∈ dialIds inner, id ∉ s.used
  | _ => True

instance (s : Connections) :
    (callback : Callback ε) → Decidable (s.Allows callback)
  | .establishedInbound id _ _ _ =>
      inferInstanceAs (Decidable (id ∉ s.used ∧ id ∉ s.dials))
  | .establishedOutbound id _ _ _ => inferInstanceAs (Decidable (id ∉ s.used))
  | .swarmEvent (.connectionEstablished peer id _) =>
      inferInstanceAs (Decidable (∃ x ∈ s.accepted, x.id = id ∧ x.peer = peer))
  | .swarmEvent (.connectionClosed peer id _)
  | .swarmEvent (.addressChange peer id) =>
      inferInstanceAs (Decidable (∃ x ∈ s.opened, x.id = id ∧ x.peer = peer))
  | .swarmEvent (.dialFailure _ _ id)
  | .swarmEvent (.listenFailure id) =>
      inferInstanceAs (Decidable (∀ x ∈ s.opened, x.id ≠ id))
  | .poll inner =>
      inferInstanceAs (Decidable (∀ id ∈ dialIds inner, id ∉ s.used))
  | .pendingInbound .. | .pendingOutbound .. | .handlerEvent ..
  | .swarmEvent .other => inferInstanceAs (Decidable True)

/-- What the inner behaviour is to be told of a callback: the events of the
direct connections, with counts of direct connections. -/
def told (s : Connections) : Callback ε → List FromSwarm
  | .swarmEvent (.connectionEstablished peer id _) =>
      if s.accepted.any fun x => x.id = id && x.circuit then []
      else [.connectionEstablished peer id (s.direct peer).length]
  | .swarmEvent (.connectionClosed peer id _) =>
      if s.opened.any fun x => x.id = id && x.circuit then []
      else [.connectionClosed peer id
        ((s.direct peer).filter (· ≠ id)).length]
  | .swarmEvent (.addressChange peer id) =>
      if s.opened.any fun x => x.id = id && x.circuit then []
      else [.addressChange peer id]
  | _ => []

/-- A connection on top of the open ones. -/
theorem direct_append {s s' : Connections} {x : Connection} {peer : PeerId}
    (h : s'.opened = s.opened ++ [x]) :
    s'.direct peer = s.direct peer ++
      if x.peer = peer ∧ x.circuit = false then [x.id] else [] := by
  rw [direct, direct, h, List.filter_append, List.map_append]
  refine congrArg _ ?_
  by_cases hnew : x.peer = peer ∧ x.circuit = false
  · rw [if_pos hnew, List.filter_cons_of_pos (by simp [hnew])]
    rfl
  · rw [if_neg hnew, List.filter_cons_of_neg (by
      simpa [not_and] using hnew)]
    rfl

theorem direct_remove {s s' : Connections} {id : ConnectionId} {peer : PeerId}
    (h : s'.opened = s.opened.filter fun x => x.id ≠ id) :
    s'.direct peer = (s.direct peer).filter (· ≠ id) := by
  rw [direct, direct, h, List.filter_map, List.filter_filter,
    List.filter_filter]
  refine congrArg _ (List.filter_congr fun x _ => ?_)
  exact Bool.and_comm _ _

theorem mem_direct {s : Connections} {id : ConnectionId} {peer : PeerId} :
    id ∈ s.direct peer ↔ ⟨id, peer, false⟩ ∈ s.opened := by
  simp only [direct, List.mem_map, List.mem_filter, Bool.and_eq_true,
    decide_eq_true_eq, Bool.not_eq_true']
  constructor
  · rintro ⟨⟨_, _, _⟩, ⟨hmem, rfl, rfl⟩, rfl⟩
    exact hmem
  · intro hmem
    exact ⟨_, ⟨hmem, rfl, rfl⟩, rfl⟩

end Connections

namespace DirectOnly

variable {ε : Type} {d : DirectOnly} {s : Connections}

/-- The events about connections among the calls of the inner behaviour. -/
def connectionEvents (calls : List InnerCall) : List FromSwarm :=
  calls.filterMap fun
    | .swarmEvent (.connectionEstablished peer id others) =>
        some (.connectionEstablished peer id others)
    | .swarmEvent (.connectionClosed peer id remaining) =>
        some (.connectionClosed peer id remaining)
    | .swarmEvent (.addressChange peer id) => some (.addressChange peer id)
    | _ => none

/-- The wrapper and the swarm's view, one beside the other. -/
def watched (state : DirectOnly × Connections) (callback : Callback ε) :
    Reaction ε × (DirectOnly × Connections) :=
  ((state.1.callback callback).1,
    ((state.1.callback callback).2, state.2.next callback))

/-- Where the wrapper and the swarm stand after the callbacks. -/
def after (callbacks : List (Callback ε)) : DirectOnly × Connections :=
  Machine.state watched (new, Connections.start) callbacks

/-- The invariant of well-formed sequences. -/
structure Agrees (d : DirectOnly) (s : Connections) : Prop where
  permitted : ∀ peer : PeerId, d.permitted[peer]? =
    if s.direct peer = [] then none else some (s.direct peer)
  relayed : ∀ (id : ConnectionId) peer, d.relayed[id]? = some peer ↔
    ⟨id, peer, true⟩ ∈ s.accepted ++ s.opened
  nodup : ((s.accepted ++ s.opened).map Connection.id).Nodup
  used : ∀ x ∈ s.accepted ++ s.opened, x.id ∈ s.used
  dialled : ∀ id ∈ d.dialling, id ∈ s.dials
  settled : ∀ id ∈ d.dialling, id ∉ d.relayed

theorem agrees_start : Agrees new Connections.start where
  permitted peer := by simp [new, Connections.start, Connections.direct]
  relayed id peer := by simp [new, Connections.start]
  nodup := List.nodup_nil
  used x hx := by cases hx
  dialled id hid := by simp [new] at hid
  settled id hid := by simp [new] at hid

namespace Agrees

/-- There is one connection to an id. -/
theorem unique (h : Agrees d s) {x y : Connection}
    (hx : x ∈ s.accepted ++ s.opened) (hy : y ∈ s.accepted ++ s.opened)
    (hid : x.id = y.id) : x = y :=
  List.inj_on_of_nodup_map h.nodup hx hy hid

/-- What is relayed is a circuit. -/
theorem contains (h : Agrees d s) {x : Connection}
    (hx : x ∈ s.accepted ++ s.opened) :
    d.relayed.contains x.id = x.circuit := by
  rw [Bool.eq_iff_iff, Std.ExtTreeMap.contains_iff_mem,
    BTreeMap.mem_iff_exists]
  constructor
  · rintro ⟨peer, hpeer⟩
    have heq := h.unique hx ((h.relayed x.id peer).1 hpeer) rfl
    rw [heq]
  · intro hcircuit
    refine ⟨x.peer, (h.relayed x.id x.peer).2 ?_⟩
    rwa [← hcircuit]

theorem any_circuit (h : Agrees d s) {l : List Connection} {x : Connection}
    (hl : l ⊆ s.accepted ++ s.opened) (hx : x ∈ l) :
    (l.any fun y => y.id = x.id && y.circuit) = x.circuit := by
  rw [Bool.eq_iff_iff, List.any_eq_true]
  constructor
  · rintro ⟨y, hy, hboth⟩
    rw [Bool.and_eq_true, decide_eq_true_iff] at hboth
    rw [← h.unique (hl hy) (hl hx) hboth.1]
    exact hboth.2
  · intro hcircuit
    exact ⟨x, hx, by simpa using hcircuit⟩

theorem permittedFor (h : Agrees d s) (peer : PeerId) :
    d.permittedFor peer = (s.direct peer).length := by
  rw [DirectOnly.permittedFor, h.permitted]
  split
  · next hnil => rw [hnil]; rfl
  · rfl

theorem permitted_getD (h : Agrees d s) (peer : PeerId) :
    d.permitted[peer]?.getD [] = s.direct peer := by
  rw [h.permitted]
  split
  · next hnil => rw [hnil]; rfl
  · rfl

/-- A connection is given a handler. -/
theorem admitted {d' : DirectOnly} {x : Connection} (h : Agrees d s)
    (hnew : x.id ∉ s.used) (hpermitted : d'.permitted = d.permitted)
    (hrelayed : d'.relayed =
      if x.circuit then d.relayed.insert x.id x.peer else d.relayed)
    (hdialling : ∀ id ∈ d'.dialling, id ∈ d.dialling ∧ id ≠ x.id) :
    Agrees d' (s.admitted x) where
  permitted peer := by
    rw [hpermitted]
    exact h.permitted peer
  relayed id peer := by
    have hold := h.relayed id peer
    rw [Connections.admitted, List.cons_append, List.mem_cons, ← hold, hrelayed]
    split
    · next hcircuit =>
      rw [BTreeMap.getElem?_insert_ite]
      by_cases hid : x.id = id
      · subst hid
        have hnone : d.relayed[x.id]? = none := by
          rw [BTreeMap.getElem?_eq_none_iff, BTreeMap.mem_iff_exists]
          rintro ⟨owner, howner⟩
          exact hnew (h.used ⟨x.id, owner, true⟩ ((h.relayed _ _).1 howner))
        rw [if_pos rfl, hnone]
        constructor
        · intro heq
          cases heq
          refine Or.inl ?_
          rw [← hcircuit]
        · rintro (heq | habs)
          · rw [← heq]
          · cases habs
      · rw [if_neg hid]
        refine ⟨Or.inr, ?_⟩
        rintro (heq | hrest)
        · exact absurd (congrArg Connection.id heq).symm hid
        · exact hrest
    · next hdirect =>
      refine ⟨Or.inr, ?_⟩
      rintro (heq | hrest)
      · exact absurd (congrArg Connection.circuit heq).symm hdirect
      · exact hrest
  nodup := by
    rw [Connections.admitted, List.cons_append, List.map_cons, List.nodup_cons]
    refine ⟨?_, h.nodup⟩
    intro hmem
    obtain ⟨y, hy, hid⟩ := List.mem_map.1 hmem
    exact hnew (hid ▸ h.used y hy)
  used y hy := by
    rw [Connections.admitted, List.cons_append, List.mem_cons] at hy
    rcases hy with rfl | hold
    · exact List.mem_cons_self
    · exact List.mem_cons_of_mem _ (h.used y hold)
  dialled id hid := h.dialled id (hdialling id hid).1
  settled id hid := by
    obtain ⟨hold, hne⟩ := hdialling id hid
    rw [hrelayed]
    split
    · rw [BTreeMap.mem_insert_iff]
      rintro (heq | hmem)
      · exact hne heq.symm
      · exact h.settled id hold hmem
    · exact h.settled id hold

/-- A connection that was not announced fails. -/
theorem fail {d' : DirectOnly} {id : ConnectionId} (h : Agrees d s)
    (hopen : ∀ x ∈ s.opened, x.id ≠ id)
    (hpermitted : d'.permitted = d.permitted)
    (hrelayed : d'.relayed = d.relayed.erase id)
    (hdialling : ∀ other ∈ d'.dialling, other ∈ d.dialling) :
    Agrees d' (s.failed id) where
  permitted peer := by
    rw [hpermitted]
    exact h.permitted peer
  relayed other peer := by
    have hold := h.relayed other peer
    rw [hrelayed, BTreeMap.getElem?_erase_ite, Connections.failed,
      List.mem_append, List.mem_filter]
    rw [List.mem_append] at hold
    by_cases hid : id = other
    · subst hid
      simp only [↓reduceIte, ne_eq, not_true_eq_false, decide_false,
        Bool.false_eq_true, and_false, false_or, false_iff, reduceCtorEq]
      intro hmem
      exact hopen _ hmem rfl
    · rw [if_neg hid, hold]
      simp [Ne.symm hid]
  nodup := by
    refine h.nodup.sublist (List.Sublist.map _ ?_)
    exact List.filter_sublist.append (.refl _)
  used x hx := by
    refine h.used x ?_
    rcases List.mem_append.1 hx with hacc | hop
    · exact List.mem_append_left _ (List.mem_filter.1 hacc).1
    · exact List.mem_append_right _ hop
  dialled other hother := h.dialled other (hdialling other hother)
  settled other hother := by
    rw [hrelayed]
    intro hmem
    exact h.settled other (hdialling other hother)
      (Std.ExtTreeMap.mem_of_mem_erase hmem)

/-- The one connection that is announced. -/
theorem filter_accepted (h : Agrees d s) {x : Connection}
    (hx : x ∈ s.accepted) :
    (s.accepted.filter fun y => y.id = x.id) = [x] := by
  have hnodup : s.accepted.Nodup :=
    (List.Nodup.of_map _ h.nodup).sublist (List.sublist_append_left _ _)
  have hsame : (s.accepted.filter fun y => decide (y.id = x.id)) =
      s.accepted.filter fun y => decide (y = x) := by
    refine List.filter_congr fun y hy => ?_
    rw [decide_eq_decide]
    refine ⟨fun hid => ?_, congrArg Connection.id⟩
    exact h.unique (List.mem_append_left _ hy) (List.mem_append_left _ hx) hid
  rw [hsame, List.filter_eq, List.count_eq_one_of_mem hnodup hx]
  rfl

/-- Announcing a connection only moves it. -/
theorem announced_perm (h : Agrees d s) {x : Connection}
    (hx : x ∈ s.accepted) :
    ((s.accepted.filter fun y => y.id ≠ x.id) ++ (s.opened ++ [x])).Perm
      (s.accepted ++ s.opened) := by
  have hsplit := List.filter_append_perm
    (fun y : Connection => decide (y.id ≠ x.id)) s.accepted
  have hrest : (s.accepted.filter fun y => !decide (y.id ≠ x.id)) = [x] := by
    rw [← h.filter_accepted hx]
    refine List.filter_congr fun y _ => ?_
    simp
  rw [hrest] at hsplit
  have hswap : (s.opened ++ [x]).Perm ([x] ++ s.opened) :=
    List.perm_append_comm
  refine (hswap.append_left _).trans ?_
  rw [← List.append_assoc]
  exact hsplit.append_right _

/-- A connection is announced: a circuit stays where it is, a direct one is
the newest of its peer. -/
theorem announce {d' : DirectOnly} {x : Connection} {others : ℕ}
    (h : Agrees d s) (hx : x ∈ s.accepted) (hrelayed : d'.relayed = d.relayed)
    (hdialling : d'.dialling = d.dialling)
    (hpermitted : d'.permitted = if x.circuit then d.permitted else
      d.permitted.insert x.peer (s.direct x.peer ++ [x.id])) :
    Agrees d' (s.next (ε := ε) (.swarmEvent
      (.connectionEstablished x.peer x.id others))) := by
  have hperm := h.announced_perm hx
  simp only [Connections.next, Connections.failed, h.filter_accepted hx]
  refine ⟨?_, ?_, ?_, ?_, ?_, ?_⟩
  · intro peer
    rw [Connections.direct_append rfl, hpermitted]
    by_cases hnew : x.peer = peer ∧ x.circuit = false
    · obtain ⟨rfl, hcircuit⟩ := hnew
      simp [hcircuit]
    · rw [if_neg hnew, List.append_nil, ← h.permitted]
      split
      · rfl
      · next hcircuit =>
        rw [BTreeMap.getElem?_insert_ite, if_neg fun hpeer => hnew
          ⟨hpeer, by simpa using hcircuit⟩]
  · intro id peer
    rw [hrelayed, h.relayed]
    exact hperm.mem_iff.symm
  · exact (hperm.map _).nodup_iff.2 h.nodup
  · exact fun y hy => h.used y (hperm.mem_iff.1 hy)
  · rw [hdialling]
    exact h.dialled
  · rw [hdialling, hrelayed]
    exact h.settled

/-- Only the peer of a direct connection has its id. -/
theorem filter_direct (h : Agrees d s) {x : Connection} (hx : x ∈ s.opened)
    {peer : PeerId} (hother : ¬ (x.peer = peer ∧ x.circuit = false)) :
    (s.direct peer).filter (· ≠ x.id) = s.direct peer := by
  refine List.filter_eq_self.2 fun id hid => ?_
  rw [decide_eq_true_iff]
  rintro rfl
  have heq := h.unique (List.mem_append_right _ hx)
    (List.mem_append_right _ (Connections.mem_direct.1 hid)) rfl
  exact hother ⟨congrArg Connection.peer heq, congrArg Connection.circuit heq⟩

theorem release_permitted {permitted : BTreeMap PeerId (List ConnectionId)}
    {peer other : PeerId} {id : ConnectionId} :
    (release permitted peer id)[other]? =
      if peer = other then
        permitted[other]?.bind fun ids =>
          if ids.filter (· ≠ id) = [] then none else some (ids.filter (· ≠ id))
      else permitted[other]? := by
  unfold release
  by_cases hpeer : peer = other
  · subst hpeer
    rw [if_pos rfl]
    cases hheld : permitted[peer]? with
    | none => exact hheld
    | some ids =>
        simp only [Option.bind_some, List.isEmpty_iff]
        split
        · rw [BTreeMap.getElem?_erase_ite, if_pos rfl]
        · rw [BTreeMap.getElem?_insert_ite, if_pos rfl]
  · rw [if_neg hpeer]
    cases permitted[peer]? with
    | none => rfl
    | some ids =>
        simp only
        split
        · rw [BTreeMap.getElem?_erase_ite, if_neg hpeer]
        · rw [BTreeMap.getElem?_insert_ite, if_neg hpeer]

/-- A connection is closed. -/
theorem close {d' : DirectOnly} {x : Connection} {remaining : ℕ}
    (h : Agrees d s) (hx : x ∈ s.opened)
    (hrelayed : d'.relayed = d.relayed.erase x.id)
    (hdialling : d'.dialling = d.dialling)
    (hpermitted : d'.permitted = if x.circuit then d.permitted else
      release d.permitted x.peer x.id) :
    Agrees d' (s.next (ε := ε) (.swarmEvent
      (.connectionClosed x.peer x.id remaining))) := by
  have hsub : (s.accepted ++ s.opened.filter fun y => y.id ≠ x.id).Sublist
      (s.accepted ++ s.opened) :=
    (List.Sublist.refl _).append List.filter_sublist
  refine ⟨?_, ?_, ?_, ?_, ?_, ?_⟩
  · intro peer
    rw [Connections.direct_remove rfl, hpermitted]
    by_cases hone : x.peer = peer ∧ x.circuit = false
    · obtain ⟨rfl, hcircuit⟩ := hone
      rw [hcircuit, if_neg Bool.false_ne_true, release_permitted, if_pos rfl,
        h.permitted]
      split
      · next hnil => simp [hnil]
      · rfl
    · rw [h.filter_direct hx hone, ← h.permitted]
      split
      · rfl
      · next hcircuit =>
        rw [release_permitted, if_neg fun hpeer => hone
          ⟨hpeer, by simpa using hcircuit⟩]
  · intro id peer
    rw [hrelayed, BTreeMap.getElem?_erase_ite]
    simp only [Connections.next, List.mem_append, List.mem_filter]
    have hold := h.relayed id peer
    rw [List.mem_append] at hold
    by_cases hid : x.id = id
    · subst hid
      simp only [↓reduceIte, ne_eq, not_true_eq_false, decide_false,
        Bool.false_eq_true, and_false, or_false, false_iff, reduceCtorEq]
      intro hacc
      have hids := h.nodup
      rw [List.map_append] at hids
      have hleft : x.id ∈ s.accepted.map Connection.id :=
        List.mem_map.2 ⟨_, hacc, rfl⟩
      exact List.disjoint_of_nodup_append hids hleft (List.mem_map_of_mem hx)
    · rw [if_neg hid, hold]
      simp [Ne.symm hid]
  · exact h.nodup.sublist (hsub.map _)
  · exact fun y hy => h.used y (hsub.subset hy)
  · rw [hdialling]
    exact h.dialled
  · intro id hid hmem
    rw [hdialling] at hid
    rw [hrelayed] at hmem
    exact h.settled id hid (Std.ExtTreeMap.mem_of_mem_erase hmem)

/-- A poll only adds dials to those that are waited for. -/
theorem ask {d' : DirectOnly} {ids : List ConnectionId} (h : Agrees d s)
    (hrelayed : d'.relayed = d.relayed) (hpermitted : d'.permitted = d.permitted)
    (hdialling : ∀ id ∈ d'.dialling, id ∈ d.dialling ∨ id ∈ ids)
    (hfresh : ∀ id ∈ ids, id ∉ s.used) :
    Agrees d' { s with dials := ids ++ s.dials } where
  permitted peer := by
    rw [hpermitted]
    exact h.permitted peer
  relayed id peer := by
    rw [hrelayed]
    exact h.relayed id peer
  nodup := h.nodup
  used := h.used
  dialled id hid := by
    rcases hdialling id hid with hold | hnew
    · exact List.mem_append_right _ (h.dialled id hold)
    · exact List.mem_append_left _ hnew
  settled id hid := by
    rw [hrelayed]
    rcases hdialling id hid with hold | hnew
    · exact h.settled id hold
    · intro hmem
      obtain ⟨peer, hpeer⟩ := (BTreeMap.mem_iff_exists _ _).1 hmem
      exact hfresh id hnew (h.used ⟨id, peer, true⟩ ((h.relayed id peer).1 hpeer))

end Agrees

/-! ## One callback -/

/-- What a poll can change: dials it asks for are waited for. -/
theorem poll_frame (inner : List (ToSwarm ε)) :
    (d.poll inner).2.2.relayed = d.relayed ∧
    (d.poll inner).2.2.permitted = d.permitted ∧
    (∀ id ∈ (d.poll inner).2.2.dialling,
      id ∈ d.dialling ∨ id ∈ Connections.dialIds inner) ∧
    connectionEvents (d.poll inner).2.1 = [] := by
  induction inner with
  | nil => exact ⟨rfl, rfl, fun _ => Or.inl, rfl⟩
  | cons asked inner ih =>
      cases asked with
      | other => exact ⟨rfl, rfl, fun _ => Or.inl, rfl⟩
      | notifyHandler peer handler event =>
          simp only [poll]
          split
          · exact ⟨rfl, rfl, fun _ => Or.inl, rfl⟩
          · exact ih
      | dial id peer =>
          simp only [poll]
          obtain ⟨hrelayed, hpermitted, hdialling, hevents⟩ := ih
          split
          · refine ⟨hrelayed, hpermitted, fun other hother => ?_, hevents⟩
            exact (hdialling other hother).imp_right (List.mem_cons_of_mem id)
          · refine ⟨rfl, rfl, fun other hother => ?_, rfl⟩
            rcases (BTreeSet.mem_insert_iff _ _ _).1 hother with heq | hold
            · exact Or.inr (heq ▸ List.mem_cons_self)
            · exact Or.inl hold

/-- What one callback is to do: the invariant is kept, and the inner behaviour
is told what it is to be told. -/
def Follows (d : DirectOnly) (s : Connections) (callback : Callback ε) :
    Prop :=
  Agrees (d.callback callback).2 (s.next callback) ∧
    connectionEvents (d.callback callback).1.calls = s.told callback

section Follows

variable {callback : Callback ε} {id : ConnectionId} {peer : PeerId}

theorem establishedInbound_follows {localAddr : Multiaddr} {denied : Bool}
    (hcallback : callback = .establishedInbound id peer localAddr denied)
    (h : Agrees d s) (hallows : s.Allows callback) : Follows d s callback := by
  subst hcallback
  obtain ⟨hnew, hundialled⟩ := hallows
  have hdialling : ∀ other ∈ d.dialling, other ∈ d.dialling ∧ other ≠ id :=
    fun other hother => ⟨hother, fun heq =>
      hundialled (heq ▸ h.dialled other hother)⟩
  simp only [Follows, DirectOnly.callback, establishedInbound]
  split
  · next hcircuit =>
    exact ⟨h.admitted hnew rfl (by simp [hcircuit]) hdialling, rfl⟩
  · next hdirect =>
    exact ⟨h.admitted hnew rfl (by simp [hdirect]) hdialling, rfl⟩

theorem establishedOutbound_follows {addr : Multiaddr} {denied : Bool}
    (hcallback : callback = .establishedOutbound id peer addr denied)
    (h : Agrees d s) (hallows : s.Allows callback) : Follows d s callback := by
  subst hcallback
  have herase : ∀ other ∈ d.dialling.erase id,
      other ∈ d.dialling ∧ other ≠ id := by
    intro other hother
    obtain ⟨hne, hold⟩ := Std.ExtTreeSet.mem_erase.1 hother
    refine ⟨hold, ?_⟩
    rintro rfl
    exact hne (compare_eq_iff_eq.2 rfl)
  simp only [Follows, DirectOnly.callback, establishedOutbound]
  split
  · next hcircuit =>
    split
    · exact ⟨h.admitted hallows rfl (by simp [hcircuit]) herase, rfl⟩
    · next hnot =>
      refine ⟨h.admitted hallows rfl (by simp [hcircuit]) ?_, rfl⟩
      intro other hother
      refine ⟨hother, ?_⟩
      rintro rfl
      exact hnot (Std.ExtTreeSet.contains_iff_mem.2 hother)
  · next hdirect =>
    exact ⟨h.admitted hallows rfl (by simp [hdirect]) herase, rfl⟩

theorem connectionEstablished_follows {others : ℕ}
    (hcallback : callback = .swarmEvent (.connectionEstablished peer id others))
    (h : Agrees d s) (hallows : s.Allows callback) : Follows d s callback := by
  subst hcallback
  obtain ⟨x, hx, rfl, rfl⟩ := hallows
  have hcontains := h.contains (List.mem_append_left _ hx)
  have hany := h.any_circuit (List.subset_append_left _ _) hx
  simp only [Follows, DirectOnly.callback, onSwarmEvent, Connections.told,
    hcontains, hany]
  split
  · next hcircuit =>
    exact ⟨h.announce hx rfl rfl (by simp [hcircuit]), rfl⟩
  · next hdirect =>
    refine ⟨h.announce hx rfl rfl ?_, ?_⟩
    · simp [hdirect, h.permitted_getD]
    · rw [h.permittedFor]
      rfl

theorem connectionClosed_follows {remaining : ℕ}
    (hcallback : callback = .swarmEvent (.connectionClosed peer id remaining))
    (h : Agrees d s) (hallows : s.Allows callback) : Follows d s callback := by
  subst hcallback
  obtain ⟨x, hx, rfl, rfl⟩ := hallows
  have hcontains := h.contains (List.mem_append_right _ hx)
  have hany := h.any_circuit (List.subset_append_right _ _) hx
  simp only [Follows, DirectOnly.callback, onSwarmEvent, Connections.told,
    hcontains, hany]
  split
  · next hcircuit =>
    exact ⟨h.close hx rfl rfl (by simp [hcircuit]), rfl⟩
  · next hdirect =>
    have hnot : x.id ∉ d.relayed := fun hmem => hdirect
      (hcontains ▸ Std.ExtTreeMap.contains_iff_mem.2 hmem)
    let left := release d.permitted x.peer x.id
    have hagrees : Agrees { d with permitted := left }
        (s.next (ε := ε)
          (.swarmEvent (.connectionClosed x.peer x.id remaining))) :=
      h.close hx (BTreeMap.erase_of_not_mem hnot).symm rfl
        (by simp [hdirect, left])
    refine ⟨hagrees, ?_⟩
    rw [hagrees.permittedFor, Connections.direct_remove rfl]
    rfl

theorem addressChange_follows
    (hcallback : callback = .swarmEvent (.addressChange peer id))
    (h : Agrees d s) (hallows : s.Allows callback) : Follows d s callback := by
  subst hcallback
  obtain ⟨x, hx, rfl, rfl⟩ := hallows
  have hcontains := h.contains (List.mem_append_right _ hx)
  have hany := h.any_circuit (List.subset_append_right _ _) hx
  simp only [Follows, DirectOnly.callback, onSwarmEvent, Connections.told,
    hcontains, hany]
  split <;> exact ⟨h, rfl⟩

/-- A dial that was waited for has no circuit of its id open. -/
theorem dialFailure_follows {other : Option PeerId} {error : DialError}
    (hcallback : callback = .swarmEvent (.dialFailure other error id))
    (h : Agrees d s) (hallows : s.Allows callback) : Follows d s callback := by
  subst hcallback
  simp only [Follows, DirectOnly.callback, onSwarmEvent]
  split
  · next hdialling =>
    have hmem := Std.ExtTreeSet.contains_iff_mem.1 hdialling
    refine ⟨h.fail hallows rfl
      (BTreeMap.erase_of_not_mem (h.settled id hmem)).symm ?_, rfl⟩
    exact fun other hother => Std.ExtTreeSet.mem_of_mem_erase hother
  · split
    · exact ⟨h.fail hallows rfl rfl fun _ hother => hother, rfl⟩
    · next hnot =>
      rw [Std.ExtTreeMap.contains_iff_mem] at hnot
      exact ⟨h.fail hallows rfl (BTreeMap.erase_of_not_mem hnot).symm
        fun _ hother => hother, rfl⟩

theorem listenFailure_follows
    (hcallback : callback = .swarmEvent (.listenFailure id))
    (h : Agrees d s) (hallows : s.Allows callback) : Follows d s callback := by
  subst hcallback
  simp only [Follows, DirectOnly.callback, onSwarmEvent]
  split
  · exact ⟨h.fail hallows rfl rfl fun _ hother => hother, rfl⟩
  · next hnot =>
    rw [Std.ExtTreeMap.contains_iff_mem] at hnot
    exact ⟨h.fail hallows rfl (BTreeMap.erase_of_not_mem hnot).symm
      fun _ hother => hother, rfl⟩

end Follows

/-- The inner behaviour is told of a callback what it is to be told, and the
invariant is kept. -/
theorem callback_agrees (callback : Callback ε) (h : Agrees d s)
    (hallows : s.Allows callback) :
    Agrees (d.callback callback).2 (s.next callback) ∧
      connectionEvents (d.callback callback).1.calls = s.told callback := by
  cases callback with
  | pendingInbound id localAddr =>
      simp only [callback, pendingInbound]
      split <;> exact ⟨h, rfl⟩
  | pendingOutbound id peer => exact ⟨h, rfl⟩
  | handlerEvent peer id => exact ⟨h, rfl⟩
  | poll inner =>
      obtain ⟨hrelayed, hpermitted, hdialling, hevents⟩ :=
        poll_frame (d := d) inner
      exact ⟨h.ask hrelayed hpermitted hdialling hallows, hevents⟩
  | establishedInbound id peer localAddr denied =>
      exact establishedInbound_follows rfl h hallows
  | establishedOutbound id peer addr denied =>
      exact establishedOutbound_follows rfl h hallows
  | swarmEvent event =>
      cases event with
      | other => exact ⟨h, rfl⟩
      | connectionEstablished peer id others =>
          exact connectionEstablished_follows rfl h hallows
      | connectionClosed peer id remaining =>
          exact connectionClosed_follows rfl h hallows
      | addressChange peer id => exact addressChange_follows rfl h hallows
      | dialFailure peer error id => exact dialFailure_follows rfl h hallows
      | listenFailure id => exact listenFailure_follows rfl h hallows

/-! ## Sequences of callbacks -/

end DirectOnly

namespace Connections

variable {ε : Type}

end Connections

namespace DirectOnly

variable {ε : Type} {callbacks : List (Callback ε)}

end DirectOnly

end Intranet
