import Intranet.Ref.Object
import Intranet.Ref.Serve

/-!
# Manifests and chunks as bytes

The canonical bytes of a `Manifest` and their parser, both of `object.rs`,
and the chunk response of the storage crate's `wire.rs`. The manifest has a
parser of its own, over the whole slice and a cursor into it. A `usize` has 64
bits.

A buffer asked for up front is part of the model where its size comes from the
input: `vecWithCapacity` answers `none` where the source panics.
-/

namespace Intranet

/-- `isize::MAX`, the most bytes an allocation can have. -/
def maxAllocation : ℕ := 2 ^ 63 - 1

/-- `Vec::<u8>::with_capacity`: an empty buffer, or the panic on a capacity
that no allocation can have. -/
def vecWithCapacity (capacity : ℕ) : Option (List UInt8) :=
  if capacity ≤ maxAllocation then some [] else none

/-! ## Manifests -/

namespace Manifest

def tag : String := "intranet.manifest.v1"

/-- The canonical encoding this manifest hashes as. -/
def canonicalBytes (m : Manifest) : List UInt8 :=
  Enc.domain tag ++ Enc.seq m.chunks (fun cid => Enc.fixed cid.hash.bytes) ++
    Enc.u64 (UInt64.ofNat m.plaintextLen)

/-- The closure `take`: `n` bytes from the cursor on, and the cursor behind
them. -/
def takeAt (bytes : List UInt8) (cursor n : ℕ) :
    Except StorageError (List UInt8 × ℕ) :=
  if UInt64.size ≤ cursor + n then .error .malformedManifest
  else if bytes.length < cursor + n then .error .malformedManifest
  else .ok ((bytes.drop cursor).take n, cursor + n)

/-- Eight bytes, as a number. -/
def takeU64 (bytes : List UInt8) (cursor : ℕ) :
    Except StorageError (UInt64 × ℕ) := do
  let (slice, cursor) ← takeAt bytes cursor 8
  return (UInt64.ofNat (Dec.ofBigEndian slice), cursor)

/-- One round of the digest loop. -/
def takeCid (bytes : List UInt8) (cursor : ℕ) :
    Except StorageError (Cid × ℕ) := do
  let (slice, cursor) ← takeAt bytes cursor 32
  if h : slice.length = 32 then return (⟨⟨⟨slice, h⟩⟩⟩, cursor)
  else throw .malformedManifest

/-- The digest loop. -/
def takeCids (bytes : List UInt8) :
    ℕ → ℕ → Except StorageError (List Cid × ℕ)
  | 0, cursor => .ok ([], cursor)
  | count + 1, cursor => do
      let (cid, cursor) ← takeCid bytes cursor
      let (rest, cursor) ← takeCids bytes count cursor
      return (cid :: rest, cursor)

/-- Parses a manifest from its canonical bytes. -/
def fromBytes (bytes : List UInt8) : Except StorageError Manifest := do
  let (tagLen, cursor) ← takeU64 bytes 0
  if tagLen.toNat ≠ (utf8 tag).length then .error .malformedManifest
  else
    let (found, cursor) ← takeAt bytes cursor (utf8 tag).length
    if found ≠ utf8 tag then .error .malformedManifest
    else
      let (count, cursor) ← takeU64 bytes cursor
      -- a declared count is checked before a buffer of its size is asked for
      if bytes.length / 32 + 1 < count.toNat then .error .malformedManifest
      else
        let (chunks, cursor) ← takeCids bytes count.toNat cursor
        let (plaintextLen, cursor) ← takeU64 bytes cursor
        if cursor ≠ bytes.length then .error .malformedManifest
        else .ok ⟨chunks, plaintextLen.toNat⟩

end Manifest

namespace Object

/-- `decode` from its first line on, where it reserves a buffer of the length
the manifest declares. `none` is a panic. -/
def decodeReserving (C : Crypto) (A : Aead) (manifest : Manifest)
    (blobs : BTreeMap Cid (List UInt8)) (dek : Dek) :
    Option (Except StorageError (List UInt8)) :=
  match vecWithCapacity manifest.plaintextLen with
  | none => none
  | some _ => some (decode C A manifest blobs dek)

end Object

/-! ## Chunks -/

/-- Derives bounds from a network's configured target size. -/
def ChunkSpec.fromPolicy (policy : NetworkPolicy) : ChunkSpec :=
  fromTarget policy.targetChunkSize

/-- `MAX_CHUNK_BYTES`. -/
def maxChunkBytes : ℕ := 16 * 1024 * 1024

/-- `MAX_CHUNK_MESSAGE_BYTES`. -/
def maxChunkMessageBytes : ℕ := maxChunkBytes + 1024

/-- A response to a chunk request. -/
inductive ChunkResponse where
  | chunk (bytes : List UInt8)
  | notHeld
  | refused (reason : ChunkRefusal)
deriving DecidableEq

namespace ChunkResponse

def wireDomain : String := "intranet.wire.chunk-response.v1"

def put : ChunkResponse → List UInt8
  | chunk bytes => Enc.variant 0 ++ Enc.bytes bytes
  | notHeld => Enc.variant 1
  | refused reason => Enc.variant 2 ++ Enc.u8 reason.code

def encode (r : ChunkResponse) : List UInt8 := Enc.domain wireDomain ++ r.put

def get : Reader StorageWireError ChunkResponse := do
  match ← Dec.variant with
  | 0 => do
      let payload ← Dec.bytes
      Reader.check (payload.length ≤ maxChunkBytes)
        (.chunkTooLarge payload.length)
      return .chunk payload
  | 1 => return .notHeld
  | 2 => do
      let reason ← CollectionResponse.getRefusal
      return .refused reason
  | other => StorageWire.unknown "ChunkResponse" other

/-- Decodes a response. -/
def decode (bytes : List UInt8) : Except StorageWireError ChunkResponse :=
  Dec.decode (do
    Dec.domain wireDomain
    let response ← get
    Dec.finish
    return response) bytes

end ChunkResponse

end Intranet
