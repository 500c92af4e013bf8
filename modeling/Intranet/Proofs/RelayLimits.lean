import Intranet.Lib.Machine
import Intranet.Lib.SubMap
import Intranet.Ref.RelayLimits

/-!
# Relay ceilings hold in every reachable state

A guard is a machine: a call comes in, an outcome goes out, and the guard that
is left takes the next one. `Move` lists what a call can do to a guard, and
everything below is read off that list. Two facts make the ceilings hold. The
counts are taken before every grant, over reservations that were each granted
under the same ceilings, so the casts to 32 bits never cut anything off; and a
release takes the circuits of its reservation with it, so no circuit is ever
left without one.

What a circuit has carried is followed through the trace of the run, since
the guard only keeps a count that saturates.
-/

namespace Intranet

namespace RelayGuard

/-! ## Calls and outcomes -/

/-- A call with its arguments. -/
inductive Call where
  | tryReserve (requester : Requester) (handle : TransportHandle)
      (now : Timestamp)
  | release (reservation : ReservationId)
  | openCircuit (reservation : ReservationId) (now : Timestamp)
  | recordBytes (circuit : CircuitId) (bytes : UInt64)
  | expire (now : Timestamp)
  | closeCircuit (circuit : CircuitId)
deriving DecidableEq

/-- What the caller gets back. -/
inductive Outcome where
  | reserved (answer : Except RelayDenied ReservationId)
  | released
  | opened (answer : Except RelayDenied CircuitId)
  | recorded (answer : Except RelayDenied (Option CircuitClosure))
  | expired (closures : List (CircuitId × CircuitClosure))
  | closed

def step (guard : RelayGuard) : Call → Outcome × RelayGuard
  | .tryReserve requester handle now =>
      (guard.tryReserve requester handle now).map .reserved id
  | .release reservation => (.released, guard.release reservation)
  | .openCircuit reservation now =>
      (guard.openCircuit reservation now).map .opened id
  | .recordBytes circuit bytes =>
      (guard.recordBytes circuit bytes).map .recorded id
  | .expire now => (guard.expire now).map .expired id
  | .closeCircuit circuit => (.closed, guard.closeCircuit circuit)

namespace Outcome

/-- The call was refused. -/
def denied : Outcome → Bool
  | reserved (.error _) => true
  | opened (.error _) => true
  | recorded (.error _) => true
  | _ => false

/-- The id a call gave out. -/
def grantedId : Outcome → Option UInt64
  | reserved (.ok id) => some id.value
  | opened (.ok id) => some id.value
  | _ => none

end Outcome

/-- The ids given out along a trace, in order. -/
def granted (es : List (Call × Outcome)) : List UInt64 :=
  es.filterMap fun e => e.2.grantedId

/-- What an event adds to a circuit's account; opening it starts anew. -/
def tally (id : CircuitId) (n : ℕ) : Call × Outcome → ℕ
  | (.openCircuit _ _, .opened (.ok opened)) => if opened = id then 0 else n
  | (.recordBytes circuit bytes, .recorded (.ok _)) =>
      if circuit = id then n + bytes.toNat else n
  | _ => n

/-- The bytes a circuit has carried along a trace since it was last opened. -/
def carried (es : List (Call × Outcome)) (id : CircuitId) : ℕ :=
  es.foldl (tally id) 0

/-! ## What a call can do -/

/-- A refused call does nothing. The others grant an id, count bytes within
the ceiling, or only take entries away. -/
inductive Move (guard : RelayGuard) : Call → Outcome → RelayGuard → Prop
  | denied (call : Call) (outcome : Outcome) (h : outcome.denied = true) :
      Move guard call outcome guard
  | reserved (requester : Requester) (handle : TransportHandle)
      (now : Timestamp) (h : guard.reservationDenied requester = none) :
      Move guard (.tryReserve requester handle now)
        (.reserved (.ok ⟨guard.nextId⟩))
        { guard with
          nextId := guard.nextId + 1
          reservations := guard.reservations.insert ⟨guard.nextId⟩
            ⟨requester, handle, now⟩ }
  | released (reservation : ReservationId) :
      Move guard (.release reservation) .released (guard.release reservation)
  | opened (reservation : ReservationId) (now : Timestamp)
      (hlive : reservation ∈ guard.reservations)
      (hroom : ¬ guard.limits.maxCircuits ≤ UInt32.ofNat guard.circuits.size) :
      Move guard (.openCircuit reservation now) (.opened (.ok ⟨guard.nextId⟩))
        { guard with
          nextId := guard.nextId + 1
          circuits := guard.circuits.insert ⟨guard.nextId⟩
            ⟨reservation, now, 0⟩ }
  | counted (circuit : CircuitId) (bytes : UInt64) (entry : Circuit)
      (h : guard.circuits[circuit]? = some entry)
      (hle : saturatingAdd entry.bytes bytes ≤ guard.limits.maxCircuitBytes) :
      Move guard (.recordBytes circuit bytes) (.recorded (.ok none))
        { guard with
          circuits := guard.circuits.insert circuit
            { entry with bytes := saturatingAdd entry.bytes bytes } }
  | exceeded (circuit : CircuitId) (bytes : UInt64) :
      Move guard (.recordBytes circuit bytes)
        (.recorded (.ok (some .byteCeilingExceeded)))
        (guard.closeCircuit circuit)
  | expired (now : Timestamp) (closures : List (CircuitId × CircuitClosure)) :
      Move guard (.expire now) (.expired closures)
        { guard with
          circuits := (guard.expired now).foldl
            (fun circuits id => circuits.erase id) guard.circuits }
  | closed (circuit : CircuitId) :
      Move guard (.closeCircuit circuit) .closed (guard.closeCircuit circuit)

theorem move (guard : RelayGuard) (call : Call) :
    Move guard call (guard.step call).1 (guard.step call).2 := by
  cases call with
  | tryReserve requester handle now =>
      show Move guard _ (.reserved (guard.tryReserve requester handle now).1)
        (guard.tryReserve requester handle now).2
      unfold tryReserve
      split
      · exact .denied _ _ rfl
      · next h => exact .reserved requester handle now h
  | release reservation => exact .released reservation
  | openCircuit reservation now =>
      show Move guard _ (.opened (guard.openCircuit reservation now).1)
        (guard.openCircuit reservation now).2
      unfold openCircuit
      split
      · exact .denied _ _ rfl
      · next hlive =>
          split
          · exact .denied _ _ rfl
          · next hroom =>
              refine .opened reservation now ?_ hroom
              rw [Bool.not_eq_true, Bool.not_eq_false'] at hlive
              exact Std.ExtTreeMap.contains_iff_mem.1 hlive
  | recordBytes circuit bytes =>
      show Move guard _ (.recorded (guard.recordBytes circuit bytes).1)
        (guard.recordBytes circuit bytes).2
      unfold recordBytes
      split
      · exact .denied _ _ rfl
      · next entry h =>
          dsimp only
          split
          · exact .exceeded circuit bytes
          · next hle => exact .counted circuit bytes entry h (UInt64.not_lt.1 hle)
  | expire now => exact .expired now _
  | closeCircuit circuit => exact .closed circuit

/-! ## The ceilings -/

theorem reservationsFor_eq_total (guard : RelayGuard)
    (identity : PerNetworkIdentityId) :
    guard.reservationsFor identity = BTreeMap.total
      (fun r => if r.requester.identity = identity then 1 else 0)
      guard.reservations :=
  guard.reservations.length_filter_eq_total
    fun r => r.requester.identity = identity

theorem reservationsForInvite_eq_total (guard : RelayGuard) (invite : Hash) :
    guard.reservationsForInvite invite = BTreeMap.total
      (fun r => if r.requester.invite = some invite then 1 else 0)
      guard.reservations :=
  guard.reservations.length_filter_eq_total
    fun r => r.requester.invite = some invite

/-- What a guard promises of itself. -/
structure Ceilings (guard : RelayGuard) : Prop where
  reservations :
    guard.reservations.size ≤ guard.limits.maxReservations.toNat
  perIdentity : ∀ identity, guard.reservationsFor identity ≤
    guard.limits.maxReservationsPerIdentity.toNat
  perInvite : ∀ invite, guard.reservationsForInvite invite ≤
    guard.limits.maxReservationsPerInvite.toNat
  circuits : guard.circuits.size ≤ guard.limits.maxCircuits.toNat
  live : ∀ (id : CircuitId) (circuit : Circuit),
    guard.circuits[id]? = some circuit → circuit.reservation ∈ guard.reservations
  bytes : ∀ (id : CircuitId) (circuit : Circuit),
    guard.circuits[id]? = some circuit → circuit.bytes ≤ guard.limits.maxCircuitBytes

theorem ceilings_new (limits : RelayLimits) : (new limits).Ceilings where
  reservations := Nat.zero_le _
  perIdentity := fun _ => Nat.zero_le _
  perInvite := fun _ => Nat.zero_le _
  circuits := Nat.zero_le _
  live := fun id circuit h => by simp [new] at h
  bytes := fun id circuit h => by simp [new] at h

/-- A count that has not gone over its ceiling is not cut by the cast. -/
theorem lt_of_not_le_ofNat {n : ℕ} {limit : UInt32} (hle : n ≤ limit.toNat)
    (h : ¬ limit ≤ UInt32.ofNat n) : n < limit.toNat := by
  rw [UInt32.le_iff_toNat_le, UInt32.toNat_ofNat', Nat.mod_eq_of_lt] at h
  · omega
  · exact hle.trans_lt limit.toNat_lt

/-- Room for a reservation is room under all three ceilings. -/
theorem Ceilings.room {guard : RelayGuard} (h : guard.Ceilings)
    {requester : Requester} (hroom : guard.reservationDenied requester = none) :
    guard.reservations.size < guard.limits.maxReservations.toNat ∧
      guard.reservationsFor requester.identity <
        guard.limits.maxReservationsPerIdentity.toNat ∧
      ∀ invite, requester.invite = some invite →
        guard.reservationsForInvite invite <
          guard.limits.maxReservationsPerInvite.toNat := by
  unfold reservationDenied at hroom
  split at hroom
  · cases hroom
  · next hsize =>
      split at hroom
      · cases hroom
      · next hidentity =>
          refine ⟨lt_of_not_le_ofNat h.reservations hsize,
            lt_of_not_le_ofNat (h.perIdentity _) hidentity, ?_⟩
          intro invite hinvite
          rw [hinvite] at hroom
          dsimp only at hroom
          split at hroom
          · cases hroom
          · next hcount => exact lt_of_not_le_ofNat (h.perInvite _) hcount

/-- A weight of one or nothing, added to a count with room for it. -/
theorem count_insert_le {p : Reservation → Prop} [DecidablePred p]
    {reservations : BTreeMap ReservationId Reservation} {id : ReservationId}
    {r : Reservation} {limit : ℕ}
    (hle : BTreeMap.total (fun r => if p r then 1 else 0) reservations ≤ limit)
    (hroom : p r →
      BTreeMap.total (fun r => if p r then 1 else 0) reservations < limit) :
    BTreeMap.total (fun r => if p r then 1 else 0)
      (reservations.insert id r) ≤ limit := by
  have hgrown := BTreeMap.total_insert_le (f := fun r => if p r then 1 else 0)
    reservations id r
  by_cases hp : p r
  · rw [if_pos hp] at hgrown
    exact hgrown.trans (hroom hp)
  · rw [if_neg hp] at hgrown
    exact hgrown.trans hle

theorem Ceilings.reserve {guard : RelayGuard} (h : guard.Ceilings)
    {requester : Requester} (hroom : guard.reservationDenied requester = none)
    (id : ReservationId) (handle : TransportHandle) (now : Timestamp)
    (nextId : UInt64) :
    Ceilings { guard with
      nextId := nextId
      reservations := guard.reservations.insert id
        ⟨requester, handle, now⟩ } := by
  obtain ⟨hsize, hidentity, hinvite⟩ := h.room hroom
  refine ⟨?_, ?_, ?_, h.circuits, ?_, h.bytes⟩
  · exact Std.ExtTreeMap.size_insert_le.trans hsize
  · intro identity
    rw [reservationsFor_eq_total]
    refine count_insert_le ?_ ?_
    · rw [← reservationsFor_eq_total]
      exact h.perIdentity identity
    · rintro rfl
      rw [← reservationsFor_eq_total]
      exact hidentity
  · intro invite
    rw [reservationsForInvite_eq_total]
    refine count_insert_le ?_ ?_
    · rw [← reservationsForInvite_eq_total]
      exact h.perInvite invite
    · intro heq
      rw [← reservationsForInvite_eq_total]
      exact hinvite invite heq
  · intro i circuit hcircuit
    rw [BTreeMap.mem_insert_iff]
    exact Or.inr (h.live i circuit hcircuit)

/-- Losing circuits breaks nothing. -/
theorem Ceilings.prune {guard : RelayGuard} (h : guard.Ceilings)
    {circuits : BTreeMap CircuitId Circuit}
    (hsub : circuits.Sub guard.circuits) :
    Ceilings { guard with circuits := circuits } :=
  ⟨h.reservations, h.perIdentity, h.perInvite, hsub.size_le.trans h.circuits,
    fun id circuit hc => h.live id circuit (hsub id circuit hc),
    fun id circuit hc => h.bytes id circuit (hsub id circuit hc)⟩

/-- Nor does a release, since the circuits that go are those of the
reservation. -/
theorem Ceilings.release {guard : RelayGuard} (h : guard.Ceilings)
    (reservation : ReservationId) : (guard.release reservation).Ceilings := by
  have hreservations := guard.reservations.sub_erase reservation
  have hcircuits := guard.circuits.sub_filter fun _ c =>
    decide (c.reservation ≠ reservation)
  refine ⟨hreservations.size_le.trans h.reservations, ?_, ?_,
    hcircuits.size_le.trans h.circuits, ?_,
    fun id circuit hc => h.bytes id circuit (hcircuits id circuit hc)⟩
  · intro identity
    rw [reservationsFor_eq_total]
    refine hreservations.total_le.trans ?_
    rw [← reservationsFor_eq_total]
    exact h.perIdentity identity
  · intro invite
    rw [reservationsForInvite_eq_total]
    refine hreservations.total_le.trans ?_
    rw [← reservationsForInvite_eq_total]
    exact h.perInvite invite
  · intro id circuit hc
    have hlive := h.live id circuit (hcircuits id circuit hc)
    have hother : circuit.reservation ≠ reservation := by
      rw [RelayGuard.release, Std.ExtTreeMap.getElem?_filter',
        Option.filter_eq_some_iff] at hc
      exact of_decide_eq_true hc.2
    rw [RelayGuard.release, Std.ExtTreeMap.mem_erase]
    refine ⟨?_, hlive⟩
    rw [Ne, compare_eq_iff_eq]
    exact hother.symm

/-- A circuit of a live reservation, within the byte ceiling, where there is
room for it. -/
theorem Ceilings.putCircuit {guard : RelayGuard} (h : guard.Ceilings)
    (circuit : Circuit) (hlive : circuit.reservation ∈ guard.reservations)
    (hbytes : circuit.bytes ≤ guard.limits.maxCircuitBytes) (id : CircuitId)
    (hsize : (guard.circuits.insert id circuit).size ≤
      guard.limits.maxCircuits.toNat) (nextId : UInt64) :
    Ceilings { guard with
      nextId := nextId
      circuits := guard.circuits.insert id circuit } := by
  refine ⟨h.reservations, h.perIdentity, h.perInvite, hsize, ?_, ?_⟩
  · intro i c hc
    rw [BTreeMap.getElem?_insert_ite] at hc
    split at hc
    · cases hc
      exact hlive
    · exact h.live i c hc
  · intro i c hc
    rw [BTreeMap.getElem?_insert_ite] at hc
    split at hc
    · cases hc
      exact hbytes
    · exact h.bytes i c hc

theorem Move.ceilings {guard next : RelayGuard} {call : Call}
    {outcome : Outcome} (hmove : Move guard call outcome next)
    (h : guard.Ceilings) : next.Ceilings := by
  cases hmove with
  | denied => exact h
  | reserved requester handle now hroom => exact h.reserve hroom _ _ _ _
  | released reservation => exact h.release reservation
  | opened reservation now hlive hroom =>
      refine h.putCircuit _ hlive UInt64.zero_le _ ?_ _
      exact Std.ExtTreeMap.size_insert_le.trans
        (lt_of_not_le_ofNat h.circuits hroom)
  | counted circuit bytes entry hentry hle =>
      refine h.putCircuit
        { entry with bytes := saturatingAdd entry.bytes bytes }
        (h.live circuit entry hentry) hle circuit ?_ _
      have hmem : circuit ∈ guard.circuits :=
        (BTreeMap.mem_iff_exists _ _).2 ⟨entry, hentry⟩
      rw [Std.ExtTreeMap.size_insert,
        if_pos (Std.ExtTreeMap.contains_iff_mem.2 hmem)]
      exact h.circuits
  | exceeded circuit bytes => exact h.prune (guard.circuits.sub_erase circuit)
  | expired now closures => exact h.prune (BTreeMap.sub_foldl_erase _ _)
  | closed circuit => exact h.prune (guard.circuits.sub_erase circuit)

/-- A refused call leaves the guard as it was. -/
theorem Move.unchanged {guard next : RelayGuard} {call : Call}
    {outcome : Outcome} (hmove : Move guard call outcome next)
    (h : outcome.denied = true) : next = guard := by
  cases hmove with
  | denied => rfl
  | _ => cases h

theorem Move.limits {guard next : RelayGuard} {call : Call}
    {outcome : Outcome} (hmove : Move guard call outcome next) :
    next.limits = guard.limits := by
  cases hmove <;> rfl

/-! ## What the trace tells -/

theorem saturatingAdd_toNat (a b : UInt64) :
    (saturatingAdd a b).toNat = min (UInt64.size - 1) (a.toNat + b.toNat) := by
  rw [saturatingAdd, UInt64.toNat_ofNat', Nat.mod_eq_of_lt]
  simp only [UInt64.size]
  omega

/-- The guard's count of a circuit is what the circuit carried, as far as a
`u64` counts. -/
def Metered (es : List (Call × Outcome)) (guard : RelayGuard) : Prop :=
  ∀ (id : CircuitId) (circuit : Circuit),
    guard.circuits[id]? = some circuit →
      circuit.bytes.toNat = min (UInt64.size - 1) (carried es id)

theorem carried_snoc (es : List (Call × Outcome)) (e : Call × Outcome)
    (id : CircuitId) : carried (es ++ [e]) id = tally id (carried es id) e := by
  rw [carried, List.foldl_append]
  rfl

/-- An event that concerns other circuits only, as far as those left open can
tell. -/
theorem Metered.shrink {es : List (Call × Outcome)} {guard : RelayGuard}
    (h : Metered es guard) {circuits : BTreeMap CircuitId Circuit}
    (hsub : circuits.Sub guard.circuits) {e : Call × Outcome}
    (hsame : ∀ id ∈ circuits, tally id (carried es id) e = carried es id)
    (reservations : BTreeMap ReservationId Reservation) (nextId : UInt64) :
    Metered (es ++ [e]) ⟨guard.limits, reservations, circuits, nextId⟩ := by
  intro id circuit hc
  rw [carried_snoc, hsame id ((BTreeMap.mem_iff_exists _ _).2 ⟨circuit, hc⟩)]
  exact h id circuit (hsub id circuit hc)

theorem tally_denied (id : CircuitId) (n : ℕ) (call : Call) {outcome : Outcome}
    (h : outcome.denied = true) : tally id n (call, outcome) = n := by
  unfold tally
  split
  · next heq =>
      cases heq
      cases h
  · next heq =>
      cases heq
      cases h
  · rfl

theorem Move.metered {guard next : RelayGuard} {call : Call}
    {outcome : Outcome} (hmove : Move guard call outcome next)
    {es : List (Call × Outcome)} (h : Metered es guard) :
    Metered (es ++ [(call, outcome)]) next := by
  cases hmove with
  | denied _ _ hdenied =>
      exact h.shrink (BTreeMap.Sub.refl _)
        (fun id _ => tally_denied id _ _ hdenied) _ _
  | reserved =>
      exact h.shrink (BTreeMap.Sub.refl _) (fun _ _ => rfl) _ _
  | released reservation =>
      exact h.shrink (BTreeMap.sub_filter _ _) (fun _ _ => rfl) _ _
  | opened reservation now =>
      intro id circuit hc
      rw [BTreeMap.getElem?_insert_ite] at hc
      rw [carried_snoc, tally]
      split at hc
      · next hid =>
          cases hc
          rw [if_pos hid]
          rfl
      · next hid =>
          rw [if_neg hid]
          exact h id circuit hc
  | counted circuit bytes entry hentry =>
      intro id c hc
      rw [BTreeMap.getElem?_insert_ite] at hc
      rw [carried_snoc, tally]
      split at hc
      · next hid =>
          cases hc
          rw [if_pos hid, saturatingAdd_toNat, h circuit entry hentry, hid]
          omega
      · next hid =>
          rw [if_neg hid]
          exact h id c hc
  | exceeded circuit bytes =>
      refine h.shrink (BTreeMap.sub_erase _ circuit) ?_ _ _
      intro id hid
      rw [Std.ExtTreeMap.mem_erase, Ne, compare_eq_iff_eq] at hid
      rw [tally, if_neg hid.1]
  | expired now =>
      exact h.shrink (BTreeMap.sub_foldl_erase _ _) (fun _ _ => rfl) _ _
  | closed circuit =>
      exact h.shrink (BTreeMap.sub_erase _ circuit) (fun _ _ => rfl) _ _

/-- The ids are given out in order. -/
def Numbered (es : List (Call × Outcome)) (guard : RelayGuard) : Prop :=
  granted es = (List.range (granted es).length).map UInt64.ofNat ∧
    guard.nextId = UInt64.ofNat (granted es).length

theorem Numbered.keep {es : List (Call × Outcome)} {guard next : RelayGuard}
    (h : Numbered es guard) (hnext : next.nextId = guard.nextId)
    {e : Call × Outcome} (he : e.2.grantedId = none) :
    Numbered (es ++ [e]) next := by
  have hgranted : granted (es ++ [e]) = granted es := by
    simp [granted, he]
  rw [Numbered, hgranted, hnext]
  exact h

theorem Numbered.grant {es : List (Call × Outcome)} {guard next : RelayGuard}
    (h : Numbered es guard) (hnext : next.nextId = guard.nextId + 1)
    {e : Call × Outcome} (he : e.2.grantedId = some guard.nextId) :
    Numbered (es ++ [e]) next := by
  have hgranted : granted (es ++ [e]) = granted es ++ [guard.nextId] := by
    simp [granted, he]
  rw [Numbered, hgranted, List.length_append, List.length_singleton,
    List.range_succ, List.map_append, ← h.1, hnext, h.2]
  refine ⟨rfl, ?_⟩
  rw [UInt64.ofNat_add]
  rfl

theorem Outcome.grantedId_of_denied {outcome : Outcome}
    (h : outcome.denied = true) : outcome.grantedId = none := by
  unfold denied at h
  split at h
  · rfl
  · rfl
  · rfl
  · cases h

theorem Move.numbered {guard next : RelayGuard} {call : Call}
    {outcome : Outcome} (hmove : Move guard call outcome next)
    {es : List (Call × Outcome)} (h : Numbered es guard) :
    Numbered (es ++ [(call, outcome)]) next := by
  cases hmove with
  | denied _ _ hdenied => exact h.keep rfl (outcome.grantedId_of_denied hdenied)
  | reserved => exact h.grant rfl rfl
  | opened => exact h.grant rfl rfl
  | released => exact h.keep rfl rfl
  | counted => exact h.keep rfl rfl
  | exceeded => exact h.keep rfl rfl
  | expired => exact h.keep rfl rfl
  | closed => exact h.keep rfl rfl

theorem Numbered.nodup {es : List (Call × Outcome)} {guard : RelayGuard}
    (h : Numbered es guard) (hfew : (granted es).length ≤ 2 ^ 64) :
    (granted es).Nodup := by
  rw [h.1]
  refine List.nodup_range.map_on ?_
  intro a ha b hb hab
  rw [List.mem_range] at ha hb
  have hnat := congrArg UInt64.toNat hab
  rwa [UInt64.toNat_ofNat', UInt64.toNat_ofNat',
    Nat.mod_eq_of_lt (ha.trans_le hfew),
    Nat.mod_eq_of_lt (hb.trans_le hfew)] at hnat

/-! ## Handles -/

/-- The call with its handle blotted out. -/
def Call.unhandled : Call → Call
  | .tryReserve requester _ now => .tryReserve requester ⟨0⟩ now
  | call => call

/-- Who holds which reservation. -/
def requesters (guard : RelayGuard) : BTreeMap ReservationId Requester :=
  guard.reservations.map fun _ r => r.requester

/-- Guards that differ in what they noted beside the requesters. -/
structure Alike (s t : RelayGuard) : Prop where
  limits : s.limits = t.limits
  requesters : s.requesters = t.requesters
  circuits : s.circuits = t.circuits
  nextId : s.nextId = t.nextId

theorem length_filter_requesters (guard : RelayGuard) (p : Requester → Bool) :
    (guard.reservations.toList.filter fun r => p r.2.requester).length =
      (guard.requesters.toList.filter fun r => p r.2).length := by
  rw [requesters, Std.ExtTreeMap.toList_map, List.filter_map, List.length_map]
  rfl

theorem Alike.reservationDenied {s t : RelayGuard} (h : Alike s t)
    (requester : Requester) :
    s.reservationDenied requester = t.reservationDenied requester := by
  have hsize : s.reservations.size = t.reservations.size := by
    have hmap := congrArg Std.ExtTreeMap.size h.requesters
    rwa [RelayGuard.requesters, RelayGuard.requesters,
      Std.ExtTreeMap.size_map, Std.ExtTreeMap.size_map] at hmap
  have hcount : ∀ p : Requester → Bool,
      (s.reservations.toList.filter fun r => p r.2.requester).length =
        (t.reservations.toList.filter fun r => p r.2.requester).length := by
    intro p
    rw [length_filter_requesters, length_filter_requesters, h.requesters]
  have hidentity : s.reservationsFor requester.identity =
      t.reservationsFor requester.identity :=
    hcount fun r => decide (r.identity = requester.identity)
  have hinvite : ∀ invite,
      s.reservationsForInvite invite = t.reservationsForInvite invite :=
    fun invite => hcount fun r => decide (r.invite = some invite)
  rw [RelayGuard.reservationDenied, RelayGuard.reservationDenied, hsize,
    hidentity, h.limits]
  simp only [hinvite]

theorem Alike.contains {s t : RelayGuard} (h : Alike s t)
    (id : ReservationId) :
    s.reservations.contains id = t.reservations.contains id := by
  have hmap := congrArg (fun m => Std.ExtTreeMap.contains m id) h.requesters
  simpa only [RelayGuard.requesters, Std.ExtTreeMap.contains_map] using hmap

theorem requesters_insert
    (reservations : BTreeMap ReservationId Reservation) (id : ReservationId)
    (r : Reservation) :
    (reservations.insert id r).map (fun _ r => r.requester) =
      (reservations.map fun _ r => r.requester).insert id r.requester := by
  refine Std.ExtTreeMap.ext_getElem? fun a => ?_
  rw [Std.ExtTreeMap.getElem?_map, BTreeMap.getElem?_insert_ite,
    BTreeMap.getElem?_insert_ite, Std.ExtTreeMap.getElem?_map]
  split <;> rfl

theorem requesters_erase
    (reservations : BTreeMap ReservationId Reservation) (id : ReservationId) :
    (reservations.erase id).map (fun _ r => r.requester) =
      (reservations.map fun _ r => r.requester).erase id := by
  refine Std.ExtTreeMap.ext_getElem? fun a => ?_
  rw [Std.ExtTreeMap.getElem?_map, BTreeMap.getElem?_erase_ite,
    BTreeMap.getElem?_erase_ite, Std.ExtTreeMap.getElem?_map]
  split <;> rfl

theorem Alike.tryReserve {s t : RelayGuard} (h : Alike s t)
    (requester : Requester) (handle handle' : TransportHandle)
    (now : Timestamp) :
    (s.step (.tryReserve requester handle now)).1 =
        (t.step (.tryReserve requester handle' now)).1 ∧
      Alike (s.step (.tryReserve requester handle now)).2
        (t.step (.tryReserve requester handle' now)).2 := by
  simp only [RelayGuard.step, RelayGuard.tryReserve,
    h.reservationDenied requester]
  split
  · exact ⟨rfl, h⟩
  · refine ⟨?_, h.limits, ?_, h.circuits, ?_⟩
    · simp only [Prod.map, h.nextId]
    · show (s.reservations.insert _ _).map _ =
        (t.reservations.insert _ _).map _
      rw [requesters_insert, requesters_insert, h.nextId]
      exact congrArg (fun m => Std.ExtTreeMap.insert m _ _) h.requesters
    · simp only [Prod.map, id, h.nextId]

theorem Alike.openCircuit {s t : RelayGuard} (h : Alike s t)
    (reservation : ReservationId) (now : Timestamp) :
    (s.step (.openCircuit reservation now)).1 =
        (t.step (.openCircuit reservation now)).1 ∧
      Alike (s.step (.openCircuit reservation now)).2
        (t.step (.openCircuit reservation now)).2 := by
  simp only [RelayGuard.step, RelayGuard.openCircuit, h.contains, h.circuits,
    h.limits, h.nextId]
  split
  · exact ⟨rfl, h⟩
  · split
    · exact ⟨rfl, h⟩
    · exact ⟨rfl, rfl, h.requesters, rfl, rfl⟩

theorem Alike.recordBytes {s t : RelayGuard} (h : Alike s t)
    (circuit : CircuitId) (bytes : UInt64) :
    (s.step (.recordBytes circuit bytes)).1 =
        (t.step (.recordBytes circuit bytes)).1 ∧
      Alike (s.step (.recordBytes circuit bytes)).2
        (t.step (.recordBytes circuit bytes)).2 := by
  simp only [RelayGuard.step, RelayGuard.recordBytes, h.circuits, h.limits]
  split
  · exact ⟨rfl, h⟩
  · split
    · exact ⟨rfl, rfl, h.requesters, rfl, h.nextId⟩
    · exact ⟨rfl, rfl, h.requesters, rfl, h.nextId⟩

/-- Only a reservation names a handle. -/
theorem eq_of_unhandled {call call' : Call}
    (h : ∀ requester handle now, call ≠ .tryReserve requester handle now)
    (hcalls : call.unhandled = call'.unhandled) : call = call' := by
  cases call with
  | tryReserve requester handle now => exact absurd rfl (h requester handle now)
  | _ =>
      cases call' with
      | tryReserve => cases hcalls
      | _ => exact hcalls

/-- Calls alike but for their handles get the same answer and leave guards
alike. -/
theorem Alike.step {s t : RelayGuard} (h : Alike s t) {call call' : Call}
    (hcalls : call.unhandled = call'.unhandled) :
    (s.step call).1 = (t.step call').1 ∧
      Alike (s.step call).2 (t.step call').2 := by
  cases call with
  | tryReserve requester handle now =>
      obtain ⟨handle', rfl⟩ : ∃ handle',
          call' = .tryReserve requester handle' now := by
        cases call' with
        | tryReserve requester' handle' now' =>
            cases hcalls
            exact ⟨handle', rfl⟩
        | _ => cases hcalls
      exact h.tryReserve requester handle handle' now
  | release reservation =>
      obtain rfl := eq_of_unhandled (fun _ _ _ => Call.noConfusion) hcalls
      refine ⟨rfl, h.limits, ?_, ?_, h.nextId⟩
      · show (s.reservations.erase reservation).map _ =
          (t.reservations.erase reservation).map _
        rw [requesters_erase, requesters_erase]
        exact congrArg (fun m => Std.ExtTreeMap.erase m reservation)
          h.requesters
      · show s.circuits.filter _ = t.circuits.filter _
        rw [h.circuits]
  | openCircuit reservation now =>
      obtain rfl := eq_of_unhandled (fun _ _ _ => Call.noConfusion) hcalls
      exact h.openCircuit reservation now
  | recordBytes circuit bytes =>
      obtain rfl := eq_of_unhandled (fun _ _ _ => Call.noConfusion) hcalls
      exact h.recordBytes circuit bytes
  | expire now =>
      obtain rfl := eq_of_unhandled (fun _ _ _ => Call.noConfusion) hcalls
      have hexpired : s.expired now = t.expired now := by
        rw [expired, expired, h.circuits, h.limits]
      refine ⟨?_, h.limits, h.requesters, ?_, h.nextId⟩
      · show Outcome.expired ((s.expired now).map _) =
          Outcome.expired ((t.expired now).map _)
        rw [hexpired]
      · show (s.expired now).foldl _ s.circuits =
          (t.expired now).foldl _ t.circuits
        rw [hexpired, h.circuits]
  | closeCircuit circuit =>
      obtain rfl := eq_of_unhandled (fun _ _ _ => Call.noConfusion) hcalls
      refine ⟨rfl, h.limits, h.requesters, ?_, h.nextId⟩
      show s.circuits.erase circuit = t.circuits.erase circuit
      rw [h.circuits]

/-! ## Every run -/

theorem ceilings_hold (limits : RelayLimits) (calls : List Call) :
    let guard := Machine.state step (new limits) calls
    let es := Machine.trace step (new limits) calls
    guard.reservations.size ≤ limits.maxReservations.toNat ∧
      (∀ identity, guard.reservationsFor identity ≤
        limits.maxReservationsPerIdentity.toNat) ∧
      (∀ invite, guard.reservationsForInvite invite ≤
        limits.maxReservationsPerInvite.toNat) ∧
      guard.circuits.size ≤ limits.maxCircuits.toNat ∧
      (∀ (id : CircuitId) (circuit : Circuit),
        guard.circuits[id]? = some circuit →
          circuit.reservation ∈ guard.reservations ∧
          circuit.bytes ≤ limits.maxCircuitBytes ∧
          circuit.bytes.toNat = min (UInt64.size - 1) (carried es id)) ∧
      ((granted es).length ≤ 2 ^ 64 → (granted es).Nodup) ∧
      (∀ call, (guard.step call).1.denied = true →
        (guard.step call).2 = guard) ∧
      ∀ calls', calls.map Call.unhandled = calls'.map Call.unhandled →
        Machine.answers step (new limits) calls =
          Machine.answers step (new limits) calls' := by
  have hrun := @Machine.history _ _ _ step (new limits)
    (fun es guard => guard.limits = limits ∧ guard.Ceilings ∧
      Metered es guard ∧ Numbered es guard)
    ⟨rfl, ceilings_new limits, fun id circuit hc => by simp [new] at hc,
      rfl, rfl⟩ ?_ calls
  · intro guard es
    obtain ⟨hlimits, hceilings, hmetered, hnumbered⟩ := hrun
    rw [← hlimits]
    refine ⟨hceilings.reservations, hceilings.perIdentity,
      hceilings.perInvite, hceilings.circuits, ?_, hnumbered.nodup, ?_, ?_⟩
    · intro id circuit hc
      exact ⟨hceilings.live id circuit hc, hceilings.bytes id circuit hc,
        hmetered id circuit hc⟩
    · intro call hdenied
      exact (guard.move call).unchanged hdenied
    · intro calls' hcalls
      refine Machine.answers_congr (R := Alike)
        (Q := fun call call' => call.unhandled = call'.unhandled)
        (fun s t call call' h hsame => h.step hsame) ⟨rfl, rfl, rfl, rfl⟩ ?_
      have hall : List.Forall₂ (· = ·) (calls.map Call.unhandled)
          (calls'.map Call.unhandled) := by
        rw [hcalls]
        exact List.forall₂_same.2 fun _ _ => rfl
      rwa [List.forall₂_map_left_iff, List.forall₂_map_right_iff] at hall
  · intro es guard call h
    obtain ⟨hlimits, hceilings, hmetered, hnumbered⟩ := h
    have hmove := guard.move call
    exact ⟨hmove.limits.trans hlimits, hmove.ceilings hceilings,
      hmove.metered hmetered, hmove.numbered hnumbered⟩

end RelayGuard

end Intranet
