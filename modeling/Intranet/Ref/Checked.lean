import Intranet.Ref.Log

/-!
# The same arithmetic in a build that checks

The source negates a cascade's window and subtracts timestamps with the
machine's operators. A release build wraps, and the definitions of
`State.lean` and `Log.lean` wrap with it. A debug build, in which the tests
run, aborts. The functions on the way to one of the two operators are written
here once more as a debug build runs them: `none` is the panic.
-/

namespace Intranet

/-- The unary minus. -/
def negChecked (x : Int64) : Option Int64 :=
  if x = Int64.minValue then none else some (-x)

/-- The binary minus. -/
def subChecked (a b : Int64) : Option Int64 :=
  if -2 ^ 63 ≤ a.toInt - b.toInt ∧ a.toInt - b.toInt < 2 ^ 63 then
    some (a - b)
  else none

def Timestamp.millisSinceChecked (t earlier : Timestamp) : Option Int64 :=
  subChecked t.millis earlier.millis

namespace GovernanceState

/-- Removes a membership, optionally cascading. -/
def removeMembershipChecked (s : GovernanceState) (groupId : GroupId)
    (identity : PerNetworkIdentityId) (cascade : Option Cascade)
    (removedAt : Timestamp) : Option (Except GovernanceError GovernanceState) :=
  match s.groups[groupId]? with
  | none => some (.error (.unknownGroup groupId))
  | some group =>
      if !group.members.contains identity then
        some (.error (.notInGroup identity.short groupId))
      else
        let members := group.members.erase identity
        let left (members : BTreeMap PerNetworkIdentityId MembershipRecord) :=
          { s with groups := s.groups.insert groupId { group with members } }
        match cascade with
        | none => some (.ok (left members))
        | some cascade =>
            let cascaded (cutoff : Option Timestamp) :=
              left (cascadeLoop cutoff (members.size + 1) [identity] members)
            match cascade.windowMillis with
            | none => some (.ok (cascaded none))
            | some window =>
                (negChecked window).map fun back =>
                  .ok (cascaded (some (removedAt.plusMillis back)))

/-- Applies an already-authorized entry's effects. -/
def mutateChecked (C : Crypto) (s : GovernanceState) (entry : LogEntry) :
    Option (Except GovernanceError GovernanceState) :=
  match entry.body with
  | .membershipChange group identity (.remove cascade) =>
      s.removeMembershipChecked group identity cascade entry.timestamp
  | _ => some (s.mutate C entry)

/-- What `apply` checks ahead of the effects. -/
def permit (C : Crypto) (s : GovernanceState) (entry : LogEntry) :
    Except GovernanceError Unit := do
  entry.verifySignature C
  if entry.body.isGenesis then
    throw .unexpectedGenesis
  if entry.parent.isNone then
    throw .missingParent
  s.authorize C entry

/-- What `apply` checks of the resulting state. -/
def settle (next : GovernanceState) :
    Except GovernanceError GovernanceState := do
  next.checkEveryoneInvariant
  next.checkPolicyCoherence
  return next

/-- Validates `entry` against this state and returns the resulting state. -/
def applyChecked (C : Crypto) (s : GovernanceState) (entry : LogEntry) :
    Option (Except GovernanceError GovernanceState) :=
  match s.permit C entry with
  | .error err => some (.error err)
  | .ok () => (s.mutateChecked C entry).map fun next => next.bind settle

/-- The loop of `replay`. -/
def applyAllChecked (C : Crypto) :
    GovernanceState → List LogEntry →
      Option (Except GovernanceError GovernanceState)
  | s, [] => some (.ok s)
  | s, entry :: rest =>
      match s.applyChecked C entry with
      | none => none
      | some (.error err) => some (.error err)
      | some (.ok next) => applyAllChecked C next rest

/-- Replays an ordered chain of entries into a state. -/
def replayChecked (C : Crypto) (entries : List LogEntry) :
    Option (Except GovernanceError GovernanceState) :=
  match entries with
  | [] => some (.error .expectedGenesis)
  | first :: rest =>
      match genesis C first with
      | .error err => some (.error err)
      | .ok state => applyAllChecked C state rest

end GovernanceState

namespace GovernanceLog

/-- Replays the canonical chain into authorization state. -/
def replayCanonicalChecked (C : Crypto) (log : GovernanceLog) :
    Option (Except GovernanceError GovernanceState) :=
  GovernanceState.replayChecked C
    (log.canonicalChain.filterMap fun hash => log.entries[hash]?)

/-- One round of the loop of `advance_finality`. -/
def meetsFinalityChecked (log : GovernanceLog) (params : FinalityParams)
    (now : Timestamp) (hash : Hash) (later : List Hash) : Option Bool :=
  match log.entries[hash]? with
  | none => some false
  | some entry =>
      (now.millisSinceChecked entry.timestamp).map fun age =>
        params.isFinal (UInt32.ofNat (later.filter log.gatedAt).length) age

/-- The loop of `advance_finality`. -/
def newlyFinalChecked (log : GovernanceLog) (params : FinalityParams)
    (now : Timestamp) : Nat → List Hash → Option Nat → Option (Option Nat)
  | _, [], found => some found
  | index, hash :: later, found =>
      match log.meetsFinalityChecked params now hash later with
      | none => none
      | some met =>
          log.newlyFinalChecked params now (index + 1) later
            (if met then some index else found)

/-- Moves the finalized point forward along the canonical chain. -/
def advanceFinalityChecked (C : Crypto) (log : GovernanceLog)
    (canonical : List Hash) (now : Timestamp) : Option GovernanceLog :=
  match log.replayCanonicalChecked C with
  | none => none
  | some (.error _) => some log
  | some (.ok state) =>
      let already := log.finalized.bind fun hash =>
        canonical.findIdx? fun entry => entry = hash
      (log.newlyFinalChecked state.policy.finality now 0 canonical none).map
        fun candidate =>
          match already, candidate with
          | _, none => log
          | some current, some candidate =>
              if candidate ≤ current then log
              else { log with finalized := canonical[candidate]? }
          | none, some candidate => { log with finalized := canonical[candidate]? }

/-- Reconciles the log, advancing finality, and reports what was voided. -/
def reconcileChecked (C : Crypto) (log : GovernanceLog) (now : Timestamp) :
    Option (Reconciliation × GovernanceLog) :=
  match log.root with
  | none => some (⟨[], [], none⟩, log)
  | some root =>
      let canonical := log.chainThrough (log.finalized.getD root)
      (log.advanceFinalityChecked C canonical now).map fun advanced =>
        (⟨canonical, advanced.voidedBy canonical, advanced.finalized⟩, advanced)

end GovernanceLog

end Intranet
