import Intranet.Lib.Walk
import Intranet.Ref.State

/-!
# The governance log, fork choice and bounded finality

`log.rs`. The log stores entries by hash, with a child index beside them;
`insert` validates structure only, and which entries count is decided later,
by fork choice over the tree and replay of the branch it selects.

The three walks over the tree (`ancestry`, the loop of `is_final`, the
recursion of `best_branch_below`) follow stored links and carry no counter of
their own. They run on fuel here, one unit an entry of the log and one to
spare, which a walk along distinct stored entries cannot spend. That the
links never close a cycle is proved in `Proofs/LogTree.lean`.
-/

namespace Intranet

/-- An entry that exists only on a branch reconciliation discarded. -/
structure VoidedEntry where
  hash : Hash
  author : PerNetworkIdentityId
  timestamp : Timestamp
  kind : String
  securityRelevant : Bool
deriving DecidableEq

/-- The outcome of reconciling the log. -/
structure Reconciliation where
  canonical : List Hash
  voided : List VoidedEntry
  finalized : Option Hash
deriving DecidableEq

/-- A hash-chained store of governance entries, which may contain forks. -/
@[ext]
structure GovernanceLog where
  entries : BTreeMap Hash LogEntry
  children : BTreeMap Hash (BTreeSet Hash)
  root : Option Hash
  finalized : Option Hash
deriving DecidableEq

namespace GovernanceLog

/-- An empty log. -/
def new : GovernanceLog := ⟨∅, ∅, none, none⟩

/-- Adds an entry, returning its hash. The source mutates the log only after
its last check, so a refusal leaves the caller's log as it was. -/
def insert (C : Crypto) (log : GovernanceLog) (entry : LogEntry) :
    Except GovernanceError (Hash × GovernanceLog) := do
  entry.verifySignature C
  let hash := entry.hash C
  match entry.parent with
  | none =>
      if !entry.body.isGenesis then
        throw .missingParent
      if log.root.any (fun root => root ≠ hash) then
        throw .unexpectedGenesis
      return (hash, { log with
        root := some hash
        entries := log.entries.insert hash entry })
  | some parent =>
      if !log.entries.contains parent then
        throw (.unknownParent parent.toString)
      let siblings := log.children[parent]?.getD ∅
      return (hash, { log with
        children := log.children.insert parent (siblings.insert hash)
        entries := log.entries.insert hash entry })

/-- A call of `insert` whose result is dropped. -/
def tryInsert (C : Crypto) (log : GovernanceLog) (entry : LogEntry) :
    GovernanceLog :=
  match log.insert C entry with
  | .ok (_, next) => next
  | .error _ => log

/-- A sequence of `insert` calls, accepted or not. -/
def insertAll (C : Crypto) (log : GovernanceLog) (entries : List LogEntry) :
    GovernanceLog :=
  entries.foldl (tryInsert C) log

def get (log : GovernanceLog) (hash : Hash) : Option LogEntry :=
  log.entries[hash]?

/-- The number of entries held, across all branches. -/
def len (log : GovernanceLog) : Nat := log.entries.size

/-- The parent link every walk follows: `None` at the root and at a hash the
log does not hold. -/
def parentOf (log : GovernanceLog) (hash : Hash) : Option Hash :=
  log.entries[hash]?.bind LogEntry.parent

/-- Whether the entry stored under `hash` counts towards branch length. -/
def gatedAt (log : GovernanceLog) (hash : Hash) : Bool :=
  log.entries[hash]?.any LogEntry.isCapabilityGated

/-- The path from the root down to `hash`, inclusive. Consing along the walk
is the source's `push` and final `reverse` in one. -/
def ancestry (log : GovernanceLog) (hash : Hash) : List Hash :=
  Walk.collect log.parentOf (log.len + 1) (some hash) []

/-- Whether `hash` has reached bounded finality: the finalized entry itself
and every ancestor of it. -/
def isFinal (log : GovernanceLog) (hash : Hash) : Bool :=
  match log.finalized with
  | none => false
  | some finalized =>
      Walk.meets log.parentOf hash (log.len + 1) (some finalized)

/-! ## Fork choice -/

/-- The best branch found so far: its gated count, its tip and its path. -/
abbrev Candidate := UInt32 × Hash × List Hash

/-- The comparison of two siblings' branches: the higher count wins, the
lower tip hash on equal count. -/
def betterBranch (best : Option Candidate) (candidate : Candidate) :
    Option Candidate :=
  match best with
  | none => some candidate
  | some b =>
      if b.1 < candidate.1 ∨ (b.1 = candidate.1 ∧ candidate.2.1 < b.2.1) then
        some candidate
      else some b

/-- What one child offers, given the best branch below it. The counters are
`u32`: the count of the sub-path is truncated and the sum wraps. -/
def childBranch (log : GovernanceLog) (subPath : List Hash) (child : Hash) :
    Candidate :=
  let gated : UInt32 := if log.gatedAt child then 1 else 0
  let count := gated + UInt32.ofNat (subPath.filter log.gatedAt).length
  (count, subPath.getLast?.getD child, child :: subPath)

/-- Chooses the winning branch below `node`, excluding `node` itself. -/
def bestBranchBelow (log : GovernanceLog) : Nat → Hash → List Hash
  | 0, _ => []
  | fuel + 1, node =>
      match log.children[node]? with
      | none => []
      | some children =>
          match children.toList.foldl (fun best child =>
              betterBranch best
                (log.childBranch (log.bestBranchBelow fuel child) child))
              none with
          | none => []
          | some best => best.2.2

/-- The branch through `start`: its ancestry, then the best branch below. -/
def chainThrough (log : GovernanceLog) (start : Hash) : List Hash :=
  log.ancestry start ++ log.bestBranchBelow (log.len + 1) start

/-- The canonical chain without advancing finality. -/
def canonicalChain (log : GovernanceLog) : List Hash :=
  match log.root with
  | none => []
  | some root => log.chainThrough (log.finalized.getD root)

/-- Replays the canonical chain into authorization state. -/
def replayCanonical (C : Crypto) (log : GovernanceLog) :
    Except GovernanceError GovernanceState :=
  GovernanceState.replay C
    (log.canonicalChain.filterMap fun hash => log.entries[hash]?)

/-! ## Finality -/

/-- One round of the loop of `advance_finality`: `later` is the rest of the
canonical chain after `hash`. -/
def meetsFinality (log : GovernanceLog) (params : FinalityParams)
    (now : Timestamp) (hash : Hash) (later : List Hash) : Bool :=
  match log.entries[hash]? with
  | none => false
  | some entry =>
      params.isFinal (UInt32.ofNat (later.filter log.gatedAt).length)
        (now.millisSince entry.timestamp)

/-- The loop of `advance_finality`: the last index that meets both
thresholds. -/
def newlyFinal (log : GovernanceLog) (params : FinalityParams)
    (now : Timestamp) : Nat → List Hash → Option Nat → Option Nat
  | _, [], found => found
  | index, hash :: later, found =>
      log.newlyFinal params now (index + 1) later
        (if log.meetsFinality params now hash later then some index else found)

/-- Moves the finalized point forward along the canonical chain. -/
def advanceFinality (C : Crypto) (log : GovernanceLog) (canonical : List Hash)
    (now : Timestamp) : GovernanceLog :=
  match log.replayCanonical C with
  | .error _ => log
  | .ok state =>
      let already := log.finalized.bind fun hash =>
        canonical.findIdx? fun entry => entry = hash
      match already,
          log.newlyFinal state.policy.finality now 0 canonical none with
      | _, none => log
      | some current, some candidate =>
          if candidate ≤ current then log
          else { log with finalized := canonical[candidate]? }
      | none, some candidate => { log with finalized := canonical[candidate]? }

/-- Whether losing this action re-opens a security-relevant gap. -/
def securityRelevant : EntryBody → Bool
  | .membershipChange _ _ (.remove _) => true
  | .moderation _ => true
  | .epochRotation .. => true
  | _ => false

/-- Everything stored that is not on `canonical`, in hash order. -/
def voidedBy (log : GovernanceLog) (canonical : List Hash) : List VoidedEntry :=
  (log.entries.toList.filter fun e => !canonical.contains e.1).map fun e =>
    { hash := e.1
      author := e.2.author
      timestamp := e.2.timestamp
      kind := e.2.body.kind
      securityRelevant := securityRelevant e.2.body }

/-- Reconciles the log, advancing finality, and reports what was voided. -/
def reconcile (C : Crypto) (log : GovernanceLog) (now : Timestamp) :
    Reconciliation × GovernanceLog :=
  match log.root with
  | none => (⟨[], [], none⟩, log)
  | some root =>
      let canonical := log.chainThrough (log.finalized.getD root)
      let advanced := log.advanceFinality C canonical now
      (⟨canonical, advanced.voidedBy canonical, advanced.finalized⟩, advanced)

/-! ## Sync -/

/-- The tip of every branch this log holds. -/
def heads (log : GovernanceLog) : List Hash :=
  (log.entries.keys.filter fun hash =>
    log.children[hash]?.all Std.ExtTreeSet.isEmpty).insertionSort (· ≤ ·)

/-- The order of a response: by depth from the root, ties by hash. -/
def depthOrder (a b : Nat × Hash) : Prop :=
  a.1 < b.1 ∨ (a.1 = b.1 ∧ a.2 ≤ b.2)

instance : DecidableRel depthOrder := fun a b =>
  inferInstanceAs (Decidable (a.1 < b.1 ∨ (a.1 = b.1 ∧ a.2 ≤ b.2)))

/-- The ancestry of every `have` tip, which a response leaves out. -/
def excludedBy (log : GovernanceLog) (held : List Hash) : BTreeSet Hash :=
  held.foldl (fun set hash =>
    (log.ancestry hash).foldl (fun set ancestor => set.insert ancestor) set) ∅

/-- What a response has to carry: the ancestry of every stored wanted tip,
less what is excluded. -/
def neededFor (log : GovernanceLog) (wanted : List Hash)
    (excluded : BTreeSet Hash) : BTreeSet Hash :=
  wanted.foldl (fun set hash =>
    if !log.entries.contains hash then set
    else (log.ancestry hash).foldl (fun set ancestor =>
      if excluded.contains ancestor then set else set.insert ancestor) set) ∅

/-- The needed entries in response order, before truncation. -/
def orderedFor (log : GovernanceLog) (wanted held : List Hash) :
    List (Nat × Hash) :=
  ((log.neededFor wanted (log.excludedBy held)).toList.map fun hash =>
    ((log.ancestry hash).length, hash)).insertionSort depthOrder

/-- Entries leading to `wanted`, ordered so a receiver can insert them, and
whether the list was cut at `max`. -/
def ancestorsFirst (log : GovernanceLog) (wanted held : List Hash)
    (max : Nat) : List LogEntry × Bool :=
  let ordered := log.orderedFor wanted held
  ((ordered.take max).filterMap (fun o => log.entries[o.2]?),
    decide (max < ordered.length))

end GovernanceLog

end Intranet
