import Intranet.Lib.Register
import Intranet.Ref.Call
import Intranet.Ref.Sample

/-!
# Which proposal a participant converges on

A session keeps one proposal in flight, and replaces it only by one that was
received earlier by its own clock, or at the same instant from a lower
proposer. That is a register of least key, so the order in which the proposals
arrive does not matter: what is pending in the end is the topology of the
proposal received first. The receipt times are each participant's own, and
participants that disagree about them may converge on different topologies.

Proposals that name the topology the call is already in are left out here:
whether one of those competes at all depends on what arrived before it.
-/

namespace Intranet

/-- A proposal and when it was received locally. -/
abbrev Receipt := TopologyProposal × Timestamp

/-- Receipts are ordered by time, then by proposer. -/
def Receipt.key (r : Receipt) : ℤ ×ₗ PerNetworkIdentityId :=
  toLex (r.2.millis.toInt, r.1.proposer)

namespace CallSession

variable {session : CallSession} {active : Topology} {r : Receipt}

theorem incomingWins_iff (r existing : Receipt) :
    incomingWins r.1 r.2 existing.1 existing.2 = true ↔
      ¬ existing.key ≤ r.key := by
  rw [Receipt.key, Receipt.key, Prod.Lex.toLex_le_toLex, incomingWins]
  simp only [Int64.lt_iff_toInt_lt]
  split
  · next hlt =>
      refine iff_of_true rfl fun hle => ?_
      rcases hle with hgt | ⟨heq, -⟩
      · omega
      · omega
  · next hlt =>
      split
      · next hgt =>
          exact iff_of_false Bool.false_ne_true fun hn => hn (Or.inl hgt)
      · next hgt =>
          have heq : existing.2.millis.toInt = r.2.millis.toInt := by omega
          rw [decide_eq_true_iff]
          constructor
          · intro hlower hle
            rcases hle with hgt' | ⟨-, hle⟩
            · exact hgt hgt'
            · exact absurd hle (not_le.2 hlower)
          · intro hn
            exact not_le.1 fun hle => hn (Or.inr ⟨heq, hle⟩)

/-- A session that has received the proposals in `s`, none of which names its
active topology. -/
structure Converging (active : Topology) (s : Set Receipt)
    (session : CallSession) : Prop where
  active_eq : session.active = active
  first : Register.Keeps Receipt.key s session.inFlight
  pending_eq : session.pending = session.inFlight.map fun r => r.1.topology

theorem Converging.receive {s : Set Receipt} (h : Converging active s session)
    (hother : r.1.topology ≠ active) :
    Converging active (insert r s) (session.receiveProposal r.1 r.2).2 := by
  have hunsettled :
      ¬ (session.active = r.1.topology ∧ session.pending = none) := by
    intro hsettled
    exact hother (hsettled.1.symm.trans h.active_eq)
  rw [receiveProposal, if_neg hunsettled]
  cases hflight : session.inFlight with
  | none =>
      refine ⟨h.active_eq, ?_, rfl⟩
      have hfirst := h.first
      rw [hflight] at hfirst
      exact hfirst.first
  | some existing =>
      have hpick := h.first
      rw [hflight] at hpick
      have hpick := hpick.pick (a := r)
      rw [Register.pick] at hpick
      dsimp only
      split
      · next hwins =>
          rw [if_neg ((incomingWins_iff r existing).1 hwins)] at hpick
          exact ⟨h.active_eq, hpick, rfl⟩
      · next hloses =>
          have hle : Receipt.key existing ≤ r.key :=
            not_not.1 fun hn => hloses ((incomingWins_iff r existing).2 hn)
          rw [if_pos hle] at hpick
          refine ⟨h.active_eq, ?_, h.pending_eq⟩
          rw [hflight]
          exact hpick

/-- Receives proposals one after the other. -/
def receiveAll (session : CallSession) (receipts : List Receipt) :
    CallSession :=
  receipts.foldl (fun s r => (s.receiveProposal r.1 r.2).2) session

theorem Converging.receiveAll {s : Set Receipt}
    (h : Converging active s session) {receipts : List Receipt}
    (hother : ∀ r ∈ receipts, r.1.topology ≠ active) :
    Converging active (s ∪ {r | r ∈ receipts})
      (session.receiveAll receipts) := by
  refine Register.foldl_collect (P := Converging active) ?_ h
  intro s session r hr hconverging
  exact hconverging.receive (hother r hr)

/-- The receipt that came first: none is earlier, and none of the same instant
is from a lower proposer. -/
def IsFirst (receipts : List Receipt) (first : Receipt) : Prop :=
  first ∈ receipts ∧ ∀ r ∈ receipts, first.key ≤ r.key

/-- A fresh session in the given topology, with nothing pending. -/
def Fresh (active : Topology) (session : CallSession) : Prop :=
  session.active = active ∧ session.pending = none ∧ session.inFlight = none

theorem Fresh.receiveAll (h : Fresh active session) {receipts : List Receipt}
    (hother : ∀ r ∈ receipts, r.1.topology ≠ active) :
    Converging active {r | r ∈ receipts} (session.receiveAll receipts) := by
  have hstart : Converging active ∅ session := by
    refine ⟨h.1, ?_, ?_⟩
    · rw [h.2.2]
      rfl
    · rw [h.2.1, h.2.2]
      rfl
  have hend := hstart.receiveAll hother
  rwa [Set.empty_union] at hend

/-- One receipt per key, where no proposer proposes twice. -/
theorem distinct_key {receipts : List Receipt}
    (hdistinct : ∀ p ∈ receipts.map Prod.fst, ∀ q ∈ receipts.map Prod.fst,
      p.proposer = q.proposer → p = q) :
    Register.Distinct Receipt.key {r | r ∈ receipts} := by
  intro a ha b hb hkey
  have hpair := toLex_inj.1 hkey
  rw [Prod.mk.injEq] at hpair
  refine Prod.ext (hdistinct _ (List.mem_map_of_mem ha) _
    (List.mem_map_of_mem hb) hpair.2) ?_
  obtain ⟨_, ⟨s⟩⟩ := a
  obtain ⟨_, ⟨t⟩⟩ := b
  exact congrArg Timestamp.mk (Int64.toInt_inj.1 hpair.1)

theorem Converging.pending_of_isFirst {receipts : List Receipt}
    (h : Converging active {r | r ∈ receipts} session)
    (hdistinct : Register.Distinct Receipt.key {r | r ∈ receipts})
    (hfirst : IsFirst receipts r) : session.pending = some r.1.topology := by
  have hkept : Register.Keeps Receipt.key {r | r ∈ receipts} (some r) := hfirst
  rw [h.pending_eq, h.first.unique hdistinct hkept]
  rfl

/-- A set of concurrent proposals, as every participant of a call receives
it: one proposal to a proposer, and none for the topology the call is in. -/
structure Concurrent {ι : Type} (active : Topology)
    (proposals : Set TopologyProposal) (sessions : ι → CallSession)
    (receipts : ι → List Receipt) : Prop where
  fresh : ∀ i, Fresh active (sessions i)
  complete : ∀ i p, p ∈ (receipts i).map Prod.fst ↔ p ∈ proposals
  distinct : ∀ p ∈ proposals, ∀ q ∈ proposals,
    p.proposer = q.proposer → p = q
  other : ∀ p ∈ proposals, p.topology ≠ active

/-- Every participant ends up with the topology of the proposal it received
first. Two participants agree exactly when those name the same topology, and
always when their receipt times agree. -/
theorem pending_of_first {ι : Type} {active : Topology}
    {proposals : Set TopologyProposal} {sessions : ι → CallSession}
    {receipts : ι → List Receipt}
    (h : Concurrent active proposals sessions receipts) :
    (∀ i, (receipts i = [] ∧
        ((sessions i).receiveAll (receipts i)).pending = none) ∨
      ∃ first, IsFirst (receipts i) first ∧
        ((sessions i).receiveAll (receipts i)).pending =
          some first.1.topology) ∧
    (∀ i j a b, IsFirst (receipts i) a → IsFirst (receipts j) b →
      (((sessions i).receiveAll (receipts i)).pending =
          ((sessions j).receiveAll (receipts j)).pending ↔
        a.1.topology = b.1.topology)) ∧
    ∀ i j, (∀ r, r ∈ receipts i ↔ r ∈ receipts j) →
      ((sessions i).receiveAll (receipts i)).pending =
        ((sessions j).receiveAll (receipts j)).pending := by
  have hdistinct : ∀ i,
      Register.Distinct Receipt.key {r | r ∈ receipts i} := by
    intro i
    refine distinct_key fun p hp q hq => ?_
    exact h.distinct p ((h.complete i p).1 hp) q ((h.complete i q).1 hq)
  have hrun : ∀ i, Converging active {r | r ∈ receipts i}
      ((sessions i).receiveAll (receipts i)) := by
    intro i
    refine (h.fresh i).receiveAll fun r hr => ?_
    exact h.other _ ((h.complete i _).1 (List.mem_map_of_mem hr))
  refine ⟨?_, ?_, ?_⟩
  · intro i
    have hfirst := (hrun i).first
    cases hflight : ((sessions i).receiveAll (receipts i)).inFlight with
    | none =>
        left
        rw [hflight] at hfirst
        refine ⟨List.eq_nil_iff_forall_not_mem.2 fun r hr => ?_, ?_⟩
        · exact Set.eq_empty_iff_forall_notMem.1 hfirst r hr
        · rw [(hrun i).pending_eq, hflight]
          rfl
    | some first =>
        right
        rw [hflight] at hfirst
        refine ⟨first, hfirst, ?_⟩
        rw [(hrun i).pending_eq, hflight]
        rfl
  · intro i j a b ha hb
    rw [(hrun i).pending_of_isFirst (hdistinct i) ha,
      (hrun j).pending_of_isFirst (hdistinct j) hb, Option.some.injEq]
  · intro i j hsame
    have hset : {r | r ∈ receipts i} = {r | r ∈ receipts j} :=
      Set.ext fun r => hsame r
    have hi := (hrun i).first
    rw [hset] at hi
    rw [(hrun i).pending_eq, (hrun j).pending_eq,
      hi.unique (hdistinct j) (hrun j).first]

/-- A proposal of participant `n` to move to relay `relay`. -/
def sampleProposal (n relay : ℕ) : TopologyProposal :=
  ⟨Sample.identity n, .relayed (Sample.identity relay), .thresholdReached, ⟨0⟩⟩

/-- Two proposals of one instant, in either order. -/
theorem pending_of_first_tie :
    let session := CallSession.open [Sample.identity 1, Sample.identity 2] 2
    let receipts := [(sampleProposal 1 5, ⟨10⟩), (sampleProposal 2 6, ⟨10⟩)]
    (session.receiveAll receipts).pending =
      (session.receiveAll receipts.reverse).pending := by
  intro session receipts
  have h : Concurrent .mesh {sampleProposal 1 5, sampleProposal 2 6}
      (fun _ : Bool => session)
      (fun b => if b then receipts else receipts.reverse) := by
    refine ⟨fun _ => ⟨rfl, rfl, rfl⟩, ?_, ?_, ?_⟩
    · intro b p
      cases b <;> simp [receipts, or_comm]
    · rintro p (rfl | rfl) q (rfl | rfl) hpq
      · rfl
      · exact absurd hpq (by decide)
      · exact absurd hpq (by decide)
      · rfl
    · rintro p (rfl | rfl) hmesh
      · cases hmesh
      · cases hmesh
  refine (pending_of_first h).2.2 true false fun r => ?_
  exact List.mem_reverse.symm

/-- Two participants, each of which hears its own proposal first. -/
theorem pending_diverges :
    ¬ ∀ (active : Topology) (proposals : Set TopologyProposal)
        (sessions : Bool → CallSession) (receipts : Bool → List Receipt),
      (∀ i, Fresh active (sessions i)) →
      (∀ i p, p ∈ (receipts i).map Prod.fst ↔ p ∈ proposals) →
      (∀ p ∈ proposals, ∀ q ∈ proposals, p.proposer = q.proposer → p = q) →
      ∀ i j, ((sessions i).receiveAll (receipts i)).pending =
        ((sessions j).receiveAll (receipts j)).pending := by
  intro h
  have heq := h .mesh {sampleProposal 1 5, sampleProposal 2 6}
    (fun _ => CallSession.open [Sample.identity 1, Sample.identity 2] 2)
    (fun b => if b then [(sampleProposal 1 5, ⟨10⟩), (sampleProposal 2 6, ⟨20⟩)]
      else [(sampleProposal 2 6, ⟨10⟩), (sampleProposal 1 5, ⟨20⟩)])
    (fun _ => ⟨rfl, rfl, rfl⟩) ?_ ?_ true false
  · exact absurd heq (by decide)
  · intro b p
    cases b <;> simp [or_comm]
  · rintro p (rfl | rfl) q (rfl | rfl) hpq
    · rfl
    · exact absurd hpq (by decide)
    · exact absurd hpq (by decide)
    · rfl

end CallSession

end Intranet
