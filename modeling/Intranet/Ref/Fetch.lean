import Intranet.Ref.Ledger
import Intranet.Ref.Object

/-!
# Multi-source chunk fetch

`fetch.rs`, with the two routines of `serving.rs` it orders by. A `FetchPlan`
decides which chunks to ask for, whom to ask and what to do when a source
fails; the node reports what the lookups said and what each request produced.
A chunk may be wanted under any number of byte budgets, and without one.

The methods the source declares `&mut self` return the plan they leave behind.
-/

namespace Intranet

/-! ## Source selection -/

/-- A candidate source for a chunk, with the signals selection weighs. -/
structure SourceCandidate where
  peer : PerNetworkIdentityId
  latencyMillis : Option UInt32
  currentLoad : UInt32
deriving DecidableEq

namespace Serving

/-- A candidate that passed the filter, with its throughput and band. -/
structure RankedSource where
  candidate : SourceCandidate
  throughput : UInt64
  reliabilityBand : Nat

/-- Proven good, then unknown, then proven bad. -/
def reliabilityBand (observations : ReliabilityObservations)
    (failureThreshold : Float) (peer : PerNetworkIdentityId) : Nat :=
  match (observations.forPeer peer).failureRate with
  | some rate => if failureThreshold ≤ rate then 2 else 0
  | none => 1

/-- Reliability band first, then load, latency, throughput and the peer. -/
def sourceOrdering (a b : RankedSource) : Ordering :=
  (compare a.reliabilityBand b.reliabilityBand)
    |>.then (compare a.candidate.currentLoad.toNat b.candidate.currentLoad.toNat)
    |>.then (compare
      ((a.candidate.latencyMillis.map UInt32.toNat).getD (UInt32.size - 1))
      ((b.candidate.latencyMillis.map UInt32.toNat).getD (UInt32.size - 1)))
    |>.then (compare b.throughput.toNat a.throughput.toNat)
    |>.then (compare a.candidate.peer b.candidate.peer)

def sourceOrder (a b : RankedSource) : Prop := sourceOrdering a b ≠ .gt

instance : DecidableRel sourceOrder := fun a b =>
  inferInstanceAs (Decidable (sourceOrdering a b ≠ .gt))

/-- Selects sources for a chunk. A peer that advertises no upload capacity has
not volunteered to serve and is dropped. -/
def selectSources (candidates : List SourceCandidate)
    (ledger : CapabilityLedger) (observations : ReliabilityObservations)
    (failureThreshold : Float) (want : Nat) : List PerNetworkIdentityId :=
  let ranked := candidates.filterMap fun candidate =>
    let throughput := ((ledger.get candidate.peer).map fun a =>
      a.bandwidthCap.upBytesPerSec).getD 0
    if throughput = 0 then none
    else some ⟨candidate, throughput,
      reliabilityBand observations failureThreshold candidate.peer⟩
  ((ranked.insertionSort sourceOrder).take want).map fun r => r.candidate.peer

/-- Fewest holders first, ties by the identifier. -/
def rarityOrder (a b : Cid × UInt32) : Prop :=
  a.2.toNat < b.2.toNat ∨ (a.2 = b.2 ∧ a.1 ≤ b.1)

instance : DecidableRel rarityOrder := fun a b =>
  inferInstanceAs (Decidable (a.2.toNat < b.2.toNat ∨ (a.2 = b.2 ∧ a.1 ≤ b.1)))

/-- Orders chunks rarest first. -/
def rarestFirst (chunks : List (Cid × UInt32)) : List Cid :=
  (chunks.insertionSort rarityOrder).map Prod.fst

end Serving

/-- Orders holders, whose latency and load are unknown here. -/
def orderSources (providers : List PerNetworkIdentityId)
    (ledger : CapabilityLedger) (observations : ReliabilityObservations)
    (failureThreshold : Float) : List PerNetworkIdentityId :=
  let candidates := providers.map fun peer => (⟨peer, none, 0⟩ : SourceCandidate)
  Serving.selectSources candidates ledger observations failureThreshold
    candidates.length

/-! ## The plan -/

/-- Where one chunk has got to. -/
inductive ChunkState where
  | awaitingProviders
  | ready (candidates : List PerNetworkIdentityId) (holderCount : UInt32)
  | inFlight (candidates : List PerNetworkIdentityId) (holderCount : UInt32)
  | exhausted
  | done
  | overBudget
deriving DecidableEq

namespace ChunkState

def isAwaiting : ChunkState → Bool
  | awaitingProviders => true
  | _ => false

def isInFlight : ChunkState → Bool
  | inFlight .. => true
  | _ => false

/-- Arrived or given up on. -/
def isSettled : ChunkState → Bool
  | done => true
  | exhausted => true
  | overBudget => true
  | _ => false

/-- The sources left to ask. -/
def candidates : ChunkState → List PerNetworkIdentityId
  | ready candidates _ => candidates
  | inFlight candidates _ => candidates
  | _ => []

end ChunkState

/-- A byte allowance over a set of chunks. -/
structure Budget where
  object : Cid
  chunks : BTreeSet Cid
  remaining : Nat
  exceeded : Bool
deriving DecidableEq

namespace Budget

/-- Whether the charging loop passes over this budget. -/
def takesPart (b : Budget) (cid : Cid) : Bool :=
  !b.exceeded && b.chunks.contains cid

/-- One round of the charging loop. -/
def charge (b : Budget) (cid : Cid) (bytes : Nat) : Budget :=
  if !b.takesPart cid then b
  else if bytes ≤ b.remaining then { b with remaining := b.remaining - bytes }
  else { b with exceeded := true }

def hasRoom (b : Budget) (cid : Cid) (bytes : Nat) : Bool :=
  b.takesPart cid && decide (bytes ≤ b.remaining)

def runsOut (b : Budget) (cid : Cid) (bytes : Nat) : Bool :=
  b.takesPart cid && decide (b.remaining < bytes)

end Budget

/-- A multi-source fetch in progress. -/
structure FetchPlan where
  chunks : BTreeMap Cid ChunkState
  concurrency : Nat
  inflight : Nat
  budgets : List Budget
  unbudgeted : BTreeSet Cid
deriving DecidableEq

namespace FetchPlan

/-- Puts a chunk into the plan, and one that was abandoned back into it. -/
def want (plan : FetchPlan) (cid : Cid) : FetchPlan :=
  match plan.chunks[cid]? with
  | none | some .overBudget =>
      { plan with chunks := plan.chunks.insert cid .awaitingProviders }
  | some _ => plan

/-- Adds more chunks to a plan, under no budget. -/
def extend (plan : FetchPlan) (cids : List Cid) : FetchPlan :=
  cids.foldl (fun plan cid =>
    { plan with unbudgeted := plan.unbudgeted.insert cid }.want cid) plan

/-- Starts a plan. A concurrency of zero is corrected to one. -/
def new (cids : List Cid) (concurrency : Nat) : FetchPlan :=
  ({ chunks := ∅, concurrency := max concurrency 1, inflight := 0, budgets := []
     unbudgeted := ∅ } : FetchPlan).extend cids

/-- Adds an object's chunks, which together may take no more than `bytes`. -/
def extendWithin (plan : FetchPlan) (object : Cid) (cids : List Cid)
    (bytes : Nat) : FetchPlan :=
  let chunks : BTreeSet Cid := Std.ExtTreeSet.ofList cids compare
  let wanted := chunks.toList.foldl want plan
  { wanted with budgets := wanted.budgets ++ [⟨object, chunks, bytes, false⟩] }

/-! ### Budgets -/

/-- Whether only budgets that have run out still want `cid`. -/
def doomed (plan : FetchPlan) (cid : Cid) : Bool :=
  !plan.unbudgeted.contains cid &&
    plan.budgets.any (fun b => b.chunks.contains cid) &&
    (plan.budgets.filter fun b => b.chunks.contains cid).all Budget.exceeded

/-- One round of the abandoning loop. A chunk in flight is left alone. -/
def abandon (chunks : BTreeMap Cid ChunkState) (cid : Cid) :
    BTreeMap Cid ChunkState :=
  match chunks[cid]? with
  | some .awaitingProviders | some (.ready ..) => chunks.insert cid .overBudget
  | _ => chunks

/-- Marks over budget every pending chunk that only exhausted budgets want. -/
def abandonExhaustedBudgets (plan : FetchPlan) : FetchPlan :=
  let doomed : BTreeSet Cid := Std.ExtTreeSet.ofList
    (((plan.budgets.filter Budget.exceeded).flatMap fun b =>
      b.chunks.toList).filter plan.doomed) compare
  { plan with chunks := doomed.toList.foldl abandon plan.chunks }

/-- Charges bytes that verified as `cid` against its budgets, and says whether
to keep them. -/
def admitChunk (plan : FetchPlan) (cid : Cid) (bytes : Nat) : Bool × FetchPlan :=
  match plan.chunks[cid]? with
  | some (.inFlight ..) =>
      let room := plan.unbudgeted.contains cid ||
        plan.budgets.any fun b => b.hasRoom cid bytes
      let ranOut := plan.budgets.any fun b => b.runsOut cid bytes
      let charged := { plan with
        budgets := plan.budgets.map fun b => b.charge cid bytes }
      let left := if ranOut then charged.abandonExhaustedBudgets else charged
      if room then (true, left)
      else
        match left.chunks[cid]? with
        | some state =>
            (false, { left with
              inflight := if state.isInFlight then left.inflight - 1
                else left.inflight
              chunks := left.chunks.insert cid .overBudget })
        | none => (false, left)
  | _ => (true, plan)

/-! ### Providers and requests -/

/-- Chunks the lookup has not been made for yet. -/
def providersNeeded (plan : FetchPlan) : List Cid :=
  (plan.chunks.toList.filter fun c => c.2.isAwaiting).map Prod.fst

/-- The candidates an answer yields: the providers in selection order, or the
fallback when none of them is usable. -/
def orderedAnswer (providers fallback : List PerNetworkIdentityId)
    (ledger : CapabilityLedger) (observations : ReliabilityObservations)
    (failureThreshold : Float) : List PerNetworkIdentityId :=
  let ordered := orderSources providers ledger observations failureThreshold
  if ordered.isEmpty then
    orderSources fallback ledger observations failureThreshold
  else ordered

/-- Records what the lookup said about `cid`. -/
def recordProviders (plan : FetchPlan) (cid : Cid)
    (providers fallback : List PerNetworkIdentityId) (ledger : CapabilityLedger)
    (observations : ReliabilityObservations) (failureThreshold : Float) :
    FetchPlan :=
  match plan.chunks[cid]? with
  | some .awaitingProviders =>
      let ordered :=
        orderedAnswer providers fallback ledger observations failureThreshold
      let state :=
        if ordered.isEmpty then ChunkState.exhausted
        else .ready ordered (UInt32.ofNat providers.length)
      { plan with chunks := plan.chunks.insert cid state }
  | _ => plan

/-- The issuing loop of `next_requests`, over the chunks in scarcity order. -/
def issue : List Cid → FetchPlan →
    List (Cid × PerNetworkIdentityId) × FetchPlan
  | [], plan => ([], plan)
  | cid :: rest, plan =>
      if plan.concurrency ≤ plan.inflight then ([], plan)
      else
        match plan.chunks[cid]? with
        | some (.ready (source :: remaining) holders) =>
            let next := issue rest { plan with
              chunks := plan.chunks.insert cid (.inFlight remaining holders)
              inflight := plan.inflight + 1 }
            ((cid, source) :: next.1, next.2)
        | _ => issue rest plan

/-- The chunks that can be asked for, with their holder counts. -/
def readyChunks (plan : FetchPlan) : List (Cid × UInt32) :=
  plan.chunks.toList.filterMap fun c =>
    match c.2 with
    | .ready _ holderCount => some (c.1, holderCount)
    | _ => none

/-- The order of asking. The source sorts by the count before it calls the
routine that sorts by count and identifier. -/
def requestOrder (plan : FetchPlan) : List Cid :=
  Serving.rarestFirst
    (plan.readyChunks.insertionSort fun a b => a.2.toNat ≤ b.2.toNat)

/-- The next requests to issue, rarest first and within the limit. -/
def nextRequests (plan : FetchPlan) :
    List (Cid × PerNetworkIdentityId) × FetchPlan :=
  issue plan.requestOrder plan

/-! ### Outcomes -/

/-- Records that a chunk arrived and verified. -/
def recordReceived (plan : FetchPlan) (cid : Cid) : FetchPlan :=
  match plan.chunks[cid]? with
  | some (.inFlight ..) =>
      { plan with
        chunks := plan.chunks.insert cid .done
        inflight := plan.inflight - 1 }
  | _ => plan

/-- Records that a source did not produce the bytes. -/
def recordFailed (plan : FetchPlan) (cid : Cid) : FetchPlan :=
  match plan.chunks[cid]? with
  | some (.inFlight candidates holderCount) =>
      let state :=
        if plan.doomed cid then ChunkState.overBudget
        else if candidates.isEmpty then .exhausted
        else .ready candidates holderCount
      { plan with
        chunks := plan.chunks.insert cid state
        inflight := plan.inflight - 1 }
  | _ => plan

/-- Whether every chunk has either arrived or been given up on. -/
def isComplete (plan : FetchPlan) : Bool :=
  plan.chunks.toList.all fun c => c.2.isSettled

/-! ### Runs -/

/-- One call on a plan. -/
inductive Call where
  | extend (cids : List Cid)
  | extendWithin (object : Cid) (cids : List Cid) (bytes : Nat)
  | recordProviders (cid : Cid) (providers fallback : List PerNetworkIdentityId)
      (ledger : CapabilityLedger) (observations : ReliabilityObservations)
      (failureThreshold : Float)
  | nextRequests
  | admitChunk (cid : Cid) (bytes : Nat)
  | recordReceived (cid : Cid)
  | recordFailed (cid : Cid)

/-- What a call returns as requests to send, and the plan it leaves behind. -/
def call (plan : FetchPlan) :
    Call → List (Cid × PerNetworkIdentityId) × FetchPlan
  | .extend cids => ([], plan.extend cids)
  | .extendWithin object cids bytes => ([], plan.extendWithin object cids bytes)
  | .recordProviders cid providers fallback ledger observations threshold =>
      ([], plan.recordProviders cid providers fallback ledger observations
        threshold)
  | .nextRequests => plan.nextRequests
  | .admitChunk cid bytes => ([], (plan.admitChunk cid bytes).2)
  | .recordReceived cid => ([], plan.recordReceived cid)
  | .recordFailed cid => ([], plan.recordFailed cid)

/-- The plan after a sequence of calls. -/
def run (plan : FetchPlan) (calls : List Call) : FetchPlan :=
  calls.foldl (fun plan c => (plan.call c).2) plan

/-- Every request a sequence of calls issued, in order. -/
def issued (plan : FetchPlan) :
    List Call → List (Cid × PerNetworkIdentityId)
  | [] => []
  | c :: rest => (plan.call c).1 ++ (plan.call c).2.issued rest

end FetchPlan

end Intranet
