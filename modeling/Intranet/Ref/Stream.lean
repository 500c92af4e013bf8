import Intranet.Ref.Ledger
import Intranet.Ref.Object

/-!
# Live streams and their recordings

The realtime crate's `stream.rs`. A broadcaster hands each chunk to a first
tier of redistributors, and every viewer that holds a chunk serves it while it
is in the live window. The chunks of a finished broadcast become an ordinary
manifest.

The successor of a sequence number is an unchecked `+`. A release build wraps;
a debug build aborts instead, and `none` is the panic.
-/

namespace Intranet

/-- A live broadcast's identifier. -/
structure StreamId where
  hash : Hash
deriving DecidableEq

/-- The number of a chunk of a broadcast, a `u64`. -/
structure ChunkSequence where
  number : UInt64
deriving DecidableEq

namespace ChunkSequence

theorem toNat_injective :
    Function.Injective fun s : ChunkSequence => s.number.toNat := by
  intro a b h
  cases a
  cases b
  exact congrArg ChunkSequence.mk (UInt64.toNat_inj.1 h)

instance : LinearOrder ChunkSequence :=
  LinearOrder.lift' (fun s => s.number.toNat) toNat_injective

/-- The number after this one, in a build that wraps. -/
def next (s : ChunkSequence) : ChunkSequence := ⟨s.number + 1⟩

/-- The number after this one, in a build that checks. -/
def nextChecked (s : ChunkSequence) : Option ChunkSequence :=
  if s.number.toNat + 1 < UInt64.size then some s.next else none

end ChunkSequence

/-- Whether a finished broadcast is retained. -/
inductive VodRetention where
  | enabled
  | disabled
deriving DecidableEq

/-- Why a finished broadcast is not converted. -/
inductive StreamError where
  | emptyBroadcast
  | chunkSequenceGap (after found : ChunkSequence)
deriving DecidableEq

/-- Assigns a stream's first redistribution tier. -/
def assignTier (C : Crypto) (stream : StreamId) (ledger : CapabilityLedger)
    (tierSize : ℕ) : List PerNetworkIdentityId :=
  Placement.select C stream.hash.bytes.toList ledger.mediaRelayCandidates
    .bandwidthUp tierSize

/-- A live broadcast in progress. -/
structure LiveStream where
  stream : StreamId
  tier : List PerNetworkIdentityId
  tierSize : ℕ
  holders : BTreeMap ChunkSequence (BTreeSet PerNetworkIdentityId)
  chunks : BTreeMap ChunkSequence Cid
  window : ℕ

namespace LiveStream

/-- Starts a broadcast, computing its first tier. -/
def start (C : Crypto) (stream : StreamId) (ledger : CapabilityLedger)
    (tierSize window : ℕ) : LiveStream where
  stream := stream
  tier := assignTier C stream ledger tierSize
  tierSize := tierSize
  holders := ∅
  chunks := ∅
  window := window

/-- Takes a chunk out of the live window. -/
def forget (live : LiveStream) (sequence : ChunkSequence) : LiveStream :=
  { live with
    chunks := live.chunks.erase sequence
    holders := live.holders.erase sequence }

/-- The loop of `produceChunk`. A turn takes a chunk out, so there are no more
turns than chunks. -/
def evict : ℕ → LiveStream → LiveStream
  | 0, live => live
  | turns + 1, live =>
      if live.window < live.chunks.size then
        match live.chunks.keys.head? with
        | none => live
        | some oldest => evict turns (live.forget oldest)
      else live

/-- Records a freshly produced chunk. -/
def produceChunk (live : LiveStream) (sequence : ChunkSequence) (cid : Cid) :
    LiveStream :=
  let chunks := live.chunks.insert sequence cid
  let holders := live.holders.insert sequence
    (live.holders[sequence]?.getD ∅)
  evict chunks.size { live with chunks := chunks, holders := holders }

/-- Records that a viewer now holds a chunk. -/
def recordHolder (live : LiveStream) (sequence : ChunkSequence)
    (viewer : PerNetworkIdentityId) : LiveStream :=
  if live.chunks.contains sequence then
    { live with
      holders := live.holders.insert sequence
        ((live.holders[sequence]?.getD ∅).insert viewer) }
  else live

/-- Who can currently serve a chunk. -/
def sourcesFor (live : LiveStream) (sequence : ChunkSequence) :
    List PerNetworkIdentityId :=
  (live.holders[sequence]?.map fun set => set.toList).getD []

/-- Chunks still inside the live window, oldest first. -/
def liveWindow (live : LiveStream) : List (ChunkSequence × Cid) :=
  live.chunks.toList

/-- Whether the tier needs recomputing. -/
def tierNeedsRecompute (live : LiveStream) (ledger : CapabilityLedger) :
    Bool :=
  live.tier.any fun node =>
    match ledger.get node with
    | none => true
    | some advertisement => !advertisement.relayMediaWilling

/-- Recomputes the tier after a member dropped out. -/
def recomputeTier (C : Crypto) (live : LiveStream)
    (ledger : CapabilityLedger) : LiveStream :=
  { live with tier := assignTier C live.stream ledger live.tierSize }

/-! ## Recordings -/

/-- The chunks by their sequence numbers, those of one number in the order
they came. -/
def inOrder (allChunks : List (ChunkSequence × Cid)) :
    List (ChunkSequence × Cid) :=
  allChunks.insertionSort fun a b => a.1 ≤ b.1

/-- The loop over neighbouring chunks. -/
def checkGaps : List (ChunkSequence × Cid) → Except StreamError Unit
  | a :: b :: rest =>
      if b.1 ≠ a.1.next then .error (.chunkSequenceGap a.1 b.1)
      else checkGaps (b :: rest)
  | _ => .ok ()

/-- The same loop in a build that checks. -/
def checkGapsChecked :
    List (ChunkSequence × Cid) → Option (Except StreamError Unit)
  | a :: b :: rest =>
      match a.1.nextChecked with
      | none => none
      | some next =>
          if b.1 ≠ next then some (.error (.chunkSequenceGap a.1 b.1))
          else checkGapsChecked (b :: rest)
  | _ => some (.ok ())

/-- Converts a finished broadcast into ordinary immutable content. -/
def intoVod (_live : LiveStream) (allChunks : List (ChunkSequence × Cid))
    (plaintextLen : UInt64) (retention : VodRetention) :
    Except StreamError (Option Manifest) :=
  if retention = .disabled then .ok none
  else if allChunks.isEmpty then .error .emptyBroadcast
  else (checkGaps (inOrder allChunks)).map fun _ =>
    some ⟨(inOrder allChunks).map Prod.snd, plaintextLen.toNat⟩

/-- The conversion in a build that checks. -/
def intoVodChecked (_live : LiveStream)
    (allChunks : List (ChunkSequence × Cid)) (plaintextLen : UInt64)
    (retention : VodRetention) :
    Option (Except StreamError (Option Manifest)) :=
  if retention = .disabled then some (.ok none)
  else if allChunks.isEmpty then some (.error .emptyBroadcast)
  else (checkGapsChecked (inOrder allChunks)).map fun checked =>
    checked.map fun _ =>
      some ⟨(inOrder allChunks).map Prod.snd, plaintextLen.toNat⟩

end LiveStream

end Intranet
