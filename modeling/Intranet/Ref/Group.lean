import Intranet.Ref.Keyring

/-!
# MLS groups

`group.rs` of the epoch crate. OpenMLS is a third-party library, so a group is
modelled by what the source relies on: a tree whose leaves carry credential
labels, advanced by commits. A commit or a Welcome is opaque bytes that mean
something to the members who can process them, and `MlsTraffic` is what all
members have produced so far. A commit applies to the group state it was made
from and to no other; a Welcome opens for the key package it was sealed to.

The bytes the library draws for a commit and a Welcome are arguments here.
Texts that end in an error of the library take that part from `OpenMls`.
-/

namespace Intranet

/-- The label of a credential. -/
abbrev Label := List UInt8

/-- The credential label an identity presents inside MLS. -/
def identityLabel (id : PerNetworkIdentityId) : Label := id.key.bytes.toList

/-- The state of a group: the id it was created with, the commits merged
since, latest first, and the leaves of its tree, blank ones included. -/
structure MlsGroup where
  groupId : List UInt8
  commits : List (List UInt8)
  leaves : List (Option Label)
deriving DecidableEq

namespace MlsGroup

/-- The epoch ordinal. -/
def epoch (group : MlsGroup) : UInt64 := UInt64.ofNat group.commits.length

/-- The credentials of the members, in tree order. -/
def labels (group : MlsGroup) : List Label := group.leaves.filterMap id

/-- A new leaf takes the first blank, or extends the tree. -/
def addLeaf : List (Option Label) → Label → List (Option Label)
  | [], label => [some label]
  | none :: rest, label => some label :: rest
  | some held :: rest, label => some held :: addLeaf rest label

/-- The group after a commit. -/
def merge (group : MlsGroup) (commit : List UInt8)
    (leaves : List (Option Label)) : MlsGroup :=
  { group with commits := commit :: group.commits, leaves }

end MlsGroup

/-- What a commit can change. -/
inductive MlsChange where
  | add (keyPackage : List UInt8)
  | remove (index : ℕ)
  | replace (index : ℕ) (keyPackage : List UInt8)
  | selfUpdate
deriving DecidableEq

/-- The library: the credential of a key package that decodes and validates,
the exported secret of a group, and whether a change goes through. -/
structure OpenMls where
  packageLabel : List UInt8 → Except String Label
  exportSecret : MlsGroup → Except String EpochKey
  permits : MlsGroup → MlsChange → Except String Unit

/-- A commit some member produced: its bytes, the group state it was made
from, and the one it leads to. -/
structure MadeCommit where
  bytes : List UInt8
  base : MlsGroup
  result : MlsGroup
deriving DecidableEq

/-- A Welcome some member produced: its bytes, the key package it is sealed
to, and the group it opens. -/
structure MadeWelcome where
  bytes : List UInt8
  keyPackage : List UInt8
  group : MlsGroup
deriving DecidableEq

/-- Everything produced so far. -/
structure MlsTraffic where
  commits : List MadeCommit
  welcomes : List MadeWelcome
deriving DecidableEq

/-- The bytes the library draws for one commit. -/
structure Sealed where
  commit : List UInt8
  welcome : List UInt8
deriving DecidableEq

/-- A member's view of the network's group. -/
structure GroupSession where
  label : Label
  group : MlsGroup
deriving DecidableEq

/-- The result of an operation that advances the epoch. -/
structure Rotation where
  commit : List UInt8
  welcome : Option (List UInt8)
  key : EpochKey
  epoch : UInt64
deriving DecidableEq

/-- A member that has generated a key package and not joined yet. -/
structure PendingMember where
  label : Label
  keyPackage : List UInt8
deriving DecidableEq

/-- Reads the identity a key package's credential claims. -/
def keyPackageIdentity (M : OpenMls) (keyPackage : List UInt8) :
    Except EpochError Label :=
  (M.packageLabel keyPackage).mapError .mls

namespace GroupSession

/-- Creates a group with this member as its only occupant. -/
def create (label : Label) (groupId : List UInt8) : GroupSession :=
  ⟨label, ⟨groupId, [], [some label]⟩⟩

/-- The current epoch key. -/
def epochKey (M : OpenMls) (session : GroupSession) :
    Except EpochError EpochKey :=
  (M.exportSecret session.group).mapError fun e => .mls ("export: " ++ e)

def epoch (session : GroupSession) : UInt64 := session.group.epoch

/-- Finds the tree position holding a given identity, the first one. -/
def leafIndexFor (session : GroupSession) (identity : PerNetworkIdentityId) :
    Option ℕ :=
  session.group.leaves.findIdx? fun leaf => leaf = some (identityLabel identity)

/-- What a call that advances the epoch comes to: a result, the session it
leaves and what has been produced. The session moves with the merge, which
comes before the last things that can fail. -/
abbrev Advanced := Except EpochError Rotation × GroupSession × MlsTraffic

/-- A commit: made, merged, and its epoch key exported. `what` is the text the
source puts in front of the library's error, `invited` the key package a
Welcome goes to. -/
def commitChange (M : OpenMls) (session : GroupSession) (traffic : MlsTraffic)
    (what : String) (change : MlsChange) (leaves : List (Option Label))
    (invited : Option (List UInt8)) (drawn : Sealed) : Advanced :=
  match M.permits session.group change with
  | .error e => (.error (.mls (what ++ e)), session, traffic)
  | .ok () =>
      let group := session.group.merge drawn.commit leaves
      let next : GroupSession := { session with group }
      let traffic : MlsTraffic :=
        { commits := ⟨drawn.commit, session.group, group⟩ :: traffic.commits
          welcomes := match invited with
            | some keyPackage =>
                ⟨drawn.welcome, keyPackage, group⟩ :: traffic.welcomes
            | none => traffic.welcomes }
      (next.epochKey M |>.map fun key =>
        ⟨drawn.commit, invited.map fun _ => drawn.welcome, key, next.epoch⟩,
        next, traffic)

/-- Adds a member, producing a commit and a Welcome. -/
def addMember (M : OpenMls) (session : GroupSession) (traffic : MlsTraffic)
    (keyPackage : List UInt8) (drawn : Sealed) : Advanced :=
  match M.packageLabel keyPackage with
  | .error e => (.error (.mls e), session, traffic)
  | .ok label =>
      session.commitChange M traffic "add member: " (.add keyPackage)
        (MlsGroup.addLeaf session.group.leaves label) (some keyPackage) drawn

/-- Removes a member, advancing the epoch. -/
def removeMember (M : OpenMls) (session : GroupSession) (traffic : MlsTraffic)
    (index : ℕ) (drawn : Sealed) : Advanced :=
  session.commitChange M traffic "remove member: " (.remove index)
    (session.group.leaves.set index none) none drawn

/-- Replaces the leaf an identity occupies, in a single commit: the stale leaf
is removed and the new package added. A failure leaves no proposal behind. -/
def replaceMember (M : OpenMls) (session : GroupSession)
    (traffic : MlsTraffic) (index : ℕ) (keyPackage : List UInt8)
    (drawn : Sealed) : Advanced :=
  match M.packageLabel keyPackage with
  | .error e => (.error (.mls e), session, traffic)
  | .ok label =>
      session.commitChange M traffic "replace member: "
        (.replace index keyPackage)
        (MlsGroup.addLeaf (session.group.leaves.set index none) label)
        (some keyPackage) drawn

/-- Rotates the epoch without changing membership. -/
def rotate (M : OpenMls) (session : GroupSession) (traffic : MlsTraffic)
    (drawn : Sealed) : Advanced :=
  session.commitChange M traffic "self update: " .selfUpdate
    session.group.leaves none drawn

/-- Applies a commit produced by another member. -/
def applyCommit (M : OpenMls) (session : GroupSession) (traffic : MlsTraffic)
    (commit : List UInt8) : Except EpochError EpochKey × GroupSession :=
  match traffic.commits.find? fun made =>
      made.bytes = commit && made.base = session.group with
  | none => (.error (.mls "process"), session)
  | some made =>
      let next : GroupSession := { session with group := made.result }
      (next.epochKey M, next)

end GroupSession

/-- Joins the group a Welcome opens. -/
def PendingMember.join (pending : PendingMember) (traffic : MlsTraffic)
    (welcome : List UInt8) : Except EpochError GroupSession :=
  match traffic.welcomes.find? fun made =>
      made.bytes = welcome && made.keyPackage = pending.keyPackage with
  | none => .error (.mls "stage welcome")
  | some made => .ok ⟨pending.label, made.group⟩

end Intranet
