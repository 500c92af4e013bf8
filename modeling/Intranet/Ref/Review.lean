import Intranet.Ref.Pointer
import Mathlib.Data.Prod.Lex

/-!
# Reviewed publishing

`ReviewQueue` of the app crate's `manifest.rs`. Under the `Reviewed` policy a
version of an app is servable once a holder of `approve-app-publish` has let it
through. What is let through is a pair of numbers, the app's pointer and the
version counter of its record; what the record leads to is not part of it.
-/

namespace Intranet

def approveAppPublish : String := "approve-app-publish"

/-- The content type every app bundle is published under. -/
def appBundleContentType : ContentType := ⟨"app-bundle"⟩

/-- The error of `approve`. -/
inductive AppError where
  | notAuthorizedToApprove (identity : String)
deriving DecidableEq

/-- Whether app publishes go live immediately or need review. -/
inductive PublishingPolicy where
  | «open»
  | reviewed
deriving DecidableEq

/-- The pair the queue's collections are keyed by. -/
@[ext]
structure AppVersion where
  appId : PointerId
  version : UInt64
deriving DecidableEq

/-- The order of the pair. -/
def AppVersion.toPair (k : AppVersion) : PointerId ×ₗ ℕ :=
  toLex (k.appId, k.version.toNat)

theorem AppVersion.toPair_injective : Function.Injective AppVersion.toPair := by
  intro a b h
  rw [toPair, toPair, toLex.injective.eq_iff, Prod.mk.injEq] at h
  exact AppVersion.ext h.1 (UInt64.toNat_inj.1 h.2)

instance : LinearOrder AppVersion :=
  LinearOrder.lift' AppVersion.toPair AppVersion.toPair_injective

/-- A published version awaiting review. -/
structure PendingPublish where
  appId : PointerId
  version : UInt64
  publisher : PerNetworkIdentityId
deriving DecidableEq

/-- Which app versions have been approved, and which await it. -/
structure ReviewQueue where
  approved : BTreeSet AppVersion
  waiting : BTreeMap AppVersion PendingPublish

namespace ReviewQueue

def new : ReviewQueue := ⟨∅, ∅⟩

/-- Records a newly published version as awaiting review. -/
def submit (queue : ReviewQueue) (publish : PendingPublish) : ReviewQueue :=
  { queue with
    waiting := queue.waiting.insert ⟨publish.appId, publish.version⟩ publish }

/-- Approves a pending version. That it is pending is not asked. -/
def approve (queue : ReviewQueue) (appId : PointerId) (version : UInt64)
    (approver : PerNetworkIdentityId) (state : GovernanceState) :
    Except AppError ReviewQueue :=
  if !state.identityHolds approver (.extension approveAppPublish) then
    .error (.notAuthorizedToApprove approver.short)
  else
    .ok { queue with
      approved := queue.approved.insert ⟨appId, version⟩
      waiting := queue.waiting.erase ⟨appId, version⟩ }

/-- Versions still awaiting review. -/
def pending (queue : ReviewQueue) : List PendingPublish :=
  queue.waiting.toList.map Prod.snd

/-- Whether a version may be served to an ordinary visitor. -/
def isServable (queue : ReviewQueue) (appId : PointerId) (version : UInt64)
    (policy : PublishingPolicy) : Bool :=
  match policy with
  | .open => true
  | .reviewed => queue.approved.contains ⟨appId, version⟩

end ReviewQueue

/-- What is submitted of a record. -/
def MutablePointer.pendingPublish (p : MutablePointer) : PendingPublish :=
  ⟨p.pointerId, p.version, p.ownerIdentity⟩

end Intranet
