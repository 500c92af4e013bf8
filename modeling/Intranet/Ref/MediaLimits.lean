import Intranet.Ref.Keying

/-!
# What a media relay agreed to spend

`media_limits.rs`, with the recipient field of a media envelope. A guard holds
the roster of every call it agreed to carry and an allowance of bytes. Asking
it where a frame goes is what charges the allowance, and only the passing of
time fills it again.

Every method is a function from the guard to its answer and the guard it
leaves behind. The counters that nothing checks (`forwarded_bytes`,
`refusals`) wrap as a `u64` does; the casts and saturating operations are the
source's.
-/

namespace Intranet

/-- Who a media envelope is for. -/
inductive Recipient where
  | one (identity : PerNetworkIdentityId)
  | participants
deriving DecidableEq

/-- Whether the envelope is addressed to `identity` personally. -/
def Recipient.is (recipient : Recipient) (identity : PerNetworkIdentityId) :
    Bool :=
  match recipient with
  | one id => decide (id = identity)
  | participants => false

/-- What a node is willing to spend on relaying media. -/
structure MediaRelayLimits where
  maxCalls : UInt32
  maxParticipantsPerCall : UInt32
  forwardBytesPerSec : UInt64
  burstBytes : UInt64
deriving DecidableEq

def MediaRelayLimits.default : MediaRelayLimits :=
  ⟨8, 50, 1024 * 1024, 2 * 1024 * 1024⟩

/-- Why a media relay refused. -/
inductive MediaRelayDenied where
  | callCeiling (limit : UInt32)
  | participantCeiling (limit : UInt32) (requested : Nat)
  | notCarried
  | senderNotParticipant
  | recipientNotParticipant
  | allowanceExhausted (needed available : UInt64)
deriving DecidableEq

/-- Who a frame should go to, and whether this node is one of them. -/
structure FanOut where
  recipients : List PerNetworkIdentityId
  deliverLocally : Bool
deriving DecidableEq

/-- `u64::saturating_mul`, the second factor being a length. -/
def saturatingMul (a : UInt64) (n : Nat) : UInt64 :=
  UInt64.ofNat (min (UInt64.size - 1) (a.toNat * n))

/-- Enforces what a node agreed to spend on relaying media. -/
structure MediaRelayGuard where
  limits : MediaRelayLimits
  calls : BTreeMap CallId (BTreeSet PerNetworkIdentityId)
  allowance : UInt64
  lastRefill : Option Timestamp
  forwardedBytes : UInt64
  refusals : UInt64
deriving DecidableEq

namespace MediaRelayGuard

/-- A guard with the given ceilings, starting with a full allowance. -/
def new (limits : MediaRelayLimits) : MediaRelayGuard :=
  ⟨limits, ∅, limits.burstBytes, none, 0, 0⟩

/-- Replaces the ceilings, keeping the calls already being carried. -/
def setLimits (guard : MediaRelayGuard) (limits : MediaRelayLimits) :
    MediaRelayGuard :=
  { guard with
    limits := limits
    allowance := min guard.allowance limits.burstBytes }

/-- A refusal is counted, and changes nothing else. -/
def refuse (guard : MediaRelayGuard) : MediaRelayGuard :=
  { guard with refusals := guard.refusals + 1 }

/-- Agrees to carry a call, if the ceilings allow it. -/
def tryCarry (guard : MediaRelayGuard) (call : CallId)
    (participants : List PerNetworkIdentityId) :
    Except MediaRelayDenied Unit × MediaRelayGuard :=
  let participants : BTreeSet PerNetworkIdentityId :=
    Std.ExtTreeSet.ofList participants compare
  if guard.limits.maxParticipantsPerCall.toNat < participants.size then
    (.error (.participantCeiling guard.limits.maxParticipantsPerCall
      participants.size), guard.refuse)
  else if !guard.calls.contains call &&
      decide (guard.limits.maxCalls.toNat ≤ guard.calls.size) then
    (.error (.callCeiling guard.limits.maxCalls), guard.refuse)
  else (.ok (), { guard with calls := guard.calls.insert call participants })

/-- Stops carrying a call. -/
def stopCarrying (guard : MediaRelayGuard) (call : CallId) : MediaRelayGuard :=
  { guard with calls := guard.calls.erase call }

/-- The recipients of a frame from a participant, or the reason there are
none. -/
def fanOut (participants : BTreeSet PerNetworkIdentityId)
    (sender : PerNetworkIdentityId) (recipient : Recipient)
    (selfId : PerNetworkIdentityId) : Except MediaRelayDenied FanOut :=
  match recipient with
  | .participants =>
      .ok ⟨participants.toList.filter fun id =>
        decide (id ≠ sender) && decide (id ≠ selfId),
        participants.contains selfId⟩
  | .one target =>
      if participants.contains target then .ok ⟨[target], false⟩
      else .error .recipientNotParticipant

/-- Decides where a frame goes, and charges what sending it will cost. -/
def authorize (guard : MediaRelayGuard) (call : CallId)
    (sender : PerNetworkIdentityId) (recipient : Recipient)
    (frameBytes : UInt64) (selfId : PerNetworkIdentityId) :
    Except MediaRelayDenied FanOut × MediaRelayGuard :=
  match guard.calls[call]? with
  | none => (.error .notCarried, guard.refuse)
  | some participants =>
      if !participants.contains sender then
        (.error .senderNotParticipant, guard.refuse)
      else
        match fanOut participants sender recipient selfId with
        | .error reason => (.error reason, guard.refuse)
        | .ok fan =>
            let cost := saturatingMul frameBytes fan.recipients.length
            if guard.allowance < cost then
              (.error (.allowanceExhausted cost guard.allowance), guard.refuse)
            else
              (.ok fan, { guard with
                allowance := guard.allowance - cost
                forwardedBytes := guard.forwardedBytes + cost })

/-- What an elapsed time earns: the product is taken in 128 bits, where it
fits, and the quotient is cut to what a `u64` holds. -/
def earned (guard : MediaRelayGuard) (elapsed : Int64) : Nat :=
  min (UInt64.size - 1)
    (guard.limits.forwardBytesPerSec.toNat * elapsed.toInt.toNat / 1000)

/-- Refills the byte allowance for the time elapsed since the last refill. -/
def refill (guard : MediaRelayGuard) (now : Timestamp) : MediaRelayGuard :=
  match guard.lastRefill with
  | none => { guard with lastRefill := some now }
  | some last =>
      let elapsed := now.millisSince last
      if elapsed ≤ 0 then { guard with lastRefill := some now }
      else
        { guard with
          allowance := UInt64.ofNat (min guard.limits.burstBytes.toNat
            (min (UInt64.size - 1)
              (guard.allowance.toNat + guard.earned elapsed)))
          lastRefill := some now }

end MediaRelayGuard

end Intranet
