import Intranet.Lib.BTree
import Intranet.Ref.Bytes

/-!
# Relay resource limits

`relay_limits.rs`. A guard hands out reservations and, against a live
reservation, circuits. Reservations are counted by identity, and before
admission by invite as well; the transport's own handle is kept beside them
and read by nothing.

Every method is a function from the guard to its answer and the guard it
leaves behind. Counts are cut to 32 bits where the source casts them, and the
counter of ids wraps as a `u64` does.
-/

namespace Intranet

/-- The transport-level connection a request arrived on. -/
structure TransportHandle where
  value : UInt64
deriving DecidableEq

/-- Who is asking for relay resources. -/
inductive Requester where
  | admitted (identity : PerNetworkIdentityId)
  | preAdmission (identity : PerNetworkIdentityId) (invite : Hash)
deriving DecidableEq

namespace Requester

/-- The per-network identity making the request. -/
def identity : Requester → PerNetworkIdentityId
  | admitted identity => identity
  | preAdmission identity _ => identity

/-- The invite being metered against, before admission. -/
def invite : Requester → Option Hash
  | admitted _ => none
  | preAdmission _ invite => some invite

end Requester

/-- Configured relay resource ceilings. -/
structure RelayLimits where
  maxReservations : UInt32
  maxReservationsPerIdentity : UInt32
  maxReservationsPerInvite : UInt32
  maxCircuits : UInt32
  maxCircuitDurationMillis : Int64
  maxCircuitBytes : UInt64
deriving DecidableEq

def RelayLimits.default : RelayLimits := ⟨128, 4, 8, 32, 60000, 256 * 1024⟩

/-- Why a relay request was refused. -/
inductive RelayDenied where
  | reservationCeiling (limit : UInt32)
  | identityCeiling (identity : String) (limit : UInt32)
  | inviteCeiling (invite : String) (limit : UInt32)
  | circuitCeiling (limit : UInt32)
  | noReservation
  | noCircuit
deriving DecidableEq

@[ext]
structure ReservationId where
  value : UInt64
deriving DecidableEq

instance : LinearOrder ReservationId :=
  LinearOrder.lift' (fun id : ReservationId => id.value.toNat)
    fun _ _ h => ReservationId.ext (UInt64.toNat_inj.1 h)

@[ext]
structure CircuitId where
  value : UInt64
deriving DecidableEq

instance : LinearOrder CircuitId :=
  LinearOrder.lift' (fun id : CircuitId => id.value.toNat)
    fun _ _ h => CircuitId.ext (UInt64.toNat_inj.1 h)

/-- Why a circuit was closed by the relay. -/
inductive CircuitClosure where
  | durationExceeded
  | byteCeilingExceeded
deriving DecidableEq

structure Reservation where
  requester : Requester
  handle : TransportHandle
  grantedAt : Timestamp
deriving DecidableEq

structure Circuit where
  reservation : ReservationId
  openedAt : Timestamp
  bytes : UInt64
deriving DecidableEq

/-- Enforces a relay's resource ceilings. -/
structure RelayGuard where
  limits : RelayLimits
  reservations : BTreeMap ReservationId Reservation
  circuits : BTreeMap CircuitId Circuit
  nextId : UInt64
deriving DecidableEq

namespace RelayGuard

/-- A guard with the given limits. -/
def new (limits : RelayLimits) : RelayGuard := ⟨limits, ∅, ∅, 0⟩

/-- Live reservations held by one identity. -/
def reservationsFor (guard : RelayGuard) (identity : PerNetworkIdentityId) :
    Nat :=
  (guard.reservations.toList.filter fun r =>
    decide (r.2.requester.identity = identity)).length

/-- Live reservations metered against one invite. -/
def reservationsForInvite (guard : RelayGuard) (invite : Hash) : Nat :=
  (guard.reservations.toList.filter fun r =>
    decide (r.2.requester.invite = some invite)).length

/-- The ceiling a new reservation would run into, if any. -/
def reservationDenied (guard : RelayGuard) (requester : Requester) :
    Option RelayDenied :=
  if guard.limits.maxReservations ≤ UInt32.ofNat guard.reservations.size then
    some (.reservationCeiling guard.limits.maxReservations)
  else if guard.limits.maxReservationsPerIdentity ≤
      UInt32.ofNat (guard.reservationsFor requester.identity) then
    some (.identityCeiling requester.identity.short
      guard.limits.maxReservationsPerIdentity)
  else
    match requester.invite with
    | none => none
    | some invite =>
        if guard.limits.maxReservationsPerInvite ≤
            UInt32.ofNat (guard.reservationsForInvite invite) then
          some (.inviteCeiling invite.bytes.short
            guard.limits.maxReservationsPerInvite)
        else none

/-- Requests a reservation, enforcing every applicable ceiling. -/
def tryReserve (guard : RelayGuard) (requester : Requester)
    (handle : TransportHandle) (now : Timestamp) :
    Except RelayDenied ReservationId × RelayGuard :=
  match guard.reservationDenied requester with
  | some reason => (.error reason, guard)
  | none =>
      let id : ReservationId := ⟨guard.nextId⟩
      (.ok id, { guard with
        nextId := guard.nextId + 1
        reservations := guard.reservations.insert id
          ⟨requester, handle, now⟩ })

/-- Releases a reservation and closes any circuits opened under it. -/
def release (guard : RelayGuard) (reservation : ReservationId) : RelayGuard :=
  { guard with
    reservations := guard.reservations.erase reservation
    circuits := guard.circuits.filter fun _ c =>
      decide (c.reservation ≠ reservation) }

/-- Opens a circuit against a live reservation. -/
def openCircuit (guard : RelayGuard) (reservation : ReservationId)
    (now : Timestamp) : Except RelayDenied CircuitId × RelayGuard :=
  if !guard.reservations.contains reservation then (.error .noReservation, guard)
  else if guard.limits.maxCircuits ≤ UInt32.ofNat guard.circuits.size then
    (.error (.circuitCeiling guard.limits.maxCircuits), guard)
  else
    let id : CircuitId := ⟨guard.nextId⟩
    (.ok id, { guard with
      nextId := guard.nextId + 1
      circuits := guard.circuits.insert id ⟨reservation, now, 0⟩ })

/-- `u64::saturating_add`. -/
def saturatingAdd (a b : UInt64) : UInt64 :=
  UInt64.ofNat (min (UInt64.size - 1) (a.toNat + b.toNat))

/-- Records bytes carried by a circuit, closing it if it exceeds its
ceiling. -/
def recordBytes (guard : RelayGuard) (circuit : CircuitId) (bytes : UInt64) :
    Except RelayDenied (Option CircuitClosure) × RelayGuard :=
  match guard.circuits[circuit]? with
  | none => (.error .noCircuit, guard)
  | some entry =>
      let entry := { entry with bytes := saturatingAdd entry.bytes bytes }
      if guard.limits.maxCircuitBytes < entry.bytes then
        (.ok (some .byteCeilingExceeded),
          { guard with circuits := guard.circuits.erase circuit })
      else
        (.ok none, { guard with circuits := guard.circuits.insert circuit entry })

/-- The circuits that have outlived their maximum duration. -/
def expired (guard : RelayGuard) (now : Timestamp) : List CircuitId :=
  (guard.circuits.toList.filter fun c =>
    decide (guard.limits.maxCircuitDurationMillis <
      now.millisSince c.2.openedAt)).map Prod.fst

/-- Closes every circuit that has outlived its maximum duration. -/
def expire (guard : RelayGuard) (now : Timestamp) :
    List (CircuitId × CircuitClosure) × RelayGuard :=
  let expired := guard.expired now
  (expired.map fun id => (id, .durationExceeded),
    { guard with
      circuits := expired.foldl (fun circuits id => circuits.erase id)
        guard.circuits })

/-- Closes a circuit that ended normally. -/
def closeCircuit (guard : RelayGuard) (circuit : CircuitId) : RelayGuard :=
  { guard with circuits := guard.circuits.erase circuit }

end RelayGuard

end Intranet
