import Intranet.Ref.Pointer

/-!
# Chunking, sealing and objects

`crypto.rs`, `chunk.rs` and `object.rs` of the storage crate, and the
unwrapping half of `DekWrapping`. An object is cut into pieces, every piece is
sealed under the object's key, and the sealed piece is addressed by its hash.

Three things come from third-party crates and enter as parameters: keyed
BLAKE3 and the XChaCha20-Poly1305 cipher, in `Aead`, and the FastCDC iterator,
in `FastCdc`. What is documented of them is stated beside them as a property a
result has to name.

Lengths are natural numbers. The source holds them in `usize` and `u64`, which
no length of something held in memory outgrows.
-/

namespace Intranet

instance : LinearOrder Cid := LinearOrder.lift' Cid.hash fun _ _ => Cid.ext

namespace Cid

/-- The identifier of a stored blob. -/
def of (C : Crypto) (bytes : List UInt8) : Cid := ⟨C.hashBytes bytes⟩

/-- Whether `bytes` are the content this identifier names. -/
def verifies (C : Crypto) (cid : Cid) (bytes : List UInt8) : Bool :=
  decide (of C bytes = cid)

def short (cid : Cid) : String := cid.hash.bytes.short

end Cid

/-! ## Sealing -/

/-- The primitives of the storage crate's encryption: keyed BLAKE3, and
XChaCha20-Poly1305 in both directions. -/
structure Aead where
  keyedHash : Bytes 32 → List UInt8 → Hash
  encrypt : Bytes 32 → Bytes 24 → List UInt8 → List UInt8
  decrypt : Bytes 32 → Bytes 24 → List UInt8 → Option (List UInt8)

/-- What is documented of the cipher: decryption inverts encryption, and
encryption appends a tag of sixteen bytes. -/
structure Aead.Lawful (A : Aead) : Prop where
  decrypt_encrypt : ∀ key nonce plaintext,
    A.decrypt key nonce (A.encrypt key nonce plaintext) = some plaintext
  length_encrypt : ∀ key nonce plaintext,
    (A.encrypt key nonce plaintext).length = plaintext.length + 16

/-- The nonce a sealed blob starts with, and the tag it ends with. -/
def nonceLen : Nat := 24

def tagLen : Nat := 16

/-- How many bytes sealing adds to a chunk. -/
def chunkOverheadBytes : Nat := nonceLen + tagLen

/-- The first bytes of a byte string that has enough of them. -/
def Bytes.ofTake (n : Nat) (bytes : List UInt8) (h : n ≤ bytes.length) :
    Bytes n :=
  ⟨bytes.take n, by rw [List.length_take]; omega⟩

namespace Aead

/-- The synthetic nonce: a keyed hash over the context and the plaintext. -/
def syntheticNonce (A : Aead) (key : Bytes 32) (context plaintext : List UInt8) :
    Bytes 24 :=
  let mac := A.keyedHash key
    (Enc.u64 (UInt64.ofNat context.length) ++ context ++ plaintext)
  Bytes.ofTake 24 mac.bytes.toList (by rw [mac.bytes.length_eq]; decide)

/-- `seal_deterministic`: the nonce in front of the ciphertext. -/
def sealDeterministic (A : Aead) (key : Bytes 32)
    (context plaintext : List UInt8) : List UInt8 :=
  let nonce := A.syntheticNonce key context plaintext
  nonce.toList ++ A.encrypt key nonce plaintext

/-- `open_deterministic`. -/
def openDeterministic (A : Aead) (key : Bytes 32) (blob : List UInt8) :
    Except StorageError (List UInt8) :=
  if h : 24 ≤ blob.length then
    match A.decrypt key (Bytes.ofTake 24 blob h) (blob.drop 24) with
    | some plaintext => .ok plaintext
    | none => .error .decryptionFailed
  else .error .malformedCiphertext

end Aead

/-- The bytes of a string literal. -/
def utf8 (s : String) : List UInt8 := s.toByteArray.data.toList

/-- An object's data encryption key. -/
structure Dek where
  bytes : Bytes 32
deriving DecidableEq

namespace Dek

/-- The public commitment to this key. -/
def commitment (C : Crypto) (dek : Dek) : Hash :=
  C.hashBytes (utf8 "intranet.dek-commitment.v1" ++ dek.bytes.toList)

def sealChunk (A : Aead) (dek : Dek) (plaintext : List UInt8) : List UInt8 :=
  A.sealDeterministic dek.bytes (utf8 "intranet.chunk.v1") plaintext

def openChunk (A : Aead) (dek : Dek) (ciphertext : List UInt8) :
    Except StorageError (List UInt8) :=
  A.openDeterministic dek.bytes ciphertext

end Dek

/-- A network epoch key, which wraps object keys. -/
structure EpochKey where
  bytes : Bytes 32
deriving DecidableEq

namespace EpochKey

/-- Wraps an object key for storage beside its pointer. -/
def wrap (A : Aead) (key : EpochKey) (pointerId : PointerId) (dek : Dek) :
    List UInt8 :=
  A.sealDeterministic key.bytes
    (utf8 "intranet.dek-wrap.v1" ++ pointerId.bytes.toList) dek.bytes.toList

/-- Unwraps an object key. The pointer is an argument of the source and not
looked at there. -/
def unwrapDek (A : Aead) (key : EpochKey) (_pointerId : PointerId)
    (wrapped : List UInt8) : Except StorageError Dek :=
  match A.openDeterministic key.bytes wrapped with
  | .error err => .error err
  | .ok bytes =>
      if h : bytes.length = 32 then .ok ⟨⟨bytes, h⟩⟩
      else .error .malformedCiphertext

end EpochKey

/-- Recovers the key a wrapping holds, against the owner's commitment. -/
def DekWrapping.unwrap (C : Crypto) (A : Aead) (w : DekWrapping)
    (epochKey : EpochKey) (dekCommitment : Hash) : Except StorageError Dek := do
  w.verifySignature C
  let dek ← epochKey.unwrapDek A w.pointerId w.wrappedDek
  if dek.commitment C ≠ dekCommitment then
    throw .commitmentMismatch
  return dek

/-- Produces a wrapping of `dek` under an epoch. -/
def DekWrapping.create {C : Crypto} {validKey : Bytes 32 → Bool} (A : Aead)
    (wrapper : PerNetworkIdentity C validKey) (pointerId : PointerId)
    (dek : Dek) (epochKey : EpochKey) (rotationRef : Hash) : DekWrapping :=
  let unsigned : DekWrapping :=
    { pointerId
      wrappedDek := epochKey.wrap A pointerId dek
      rotationRef
      wrapperIdentity := wrapper.id
      signature := ⟨Bytes.replicate 64 0⟩ }
  { unsigned with signature := wrapper.sign unsigned.payload }

/-! ## Chunking -/

/-- Chunk size bounds derived from a network's target size. -/
structure ChunkSpec where
  min : UInt32
  target : UInt32
  max : UInt32
deriving DecidableEq

namespace ChunkSpec

def floor : Nat := 1024

def ceiling : Nat := 256 * 1024 * 1024

/-- Derives bounds from a target size. -/
def fromTarget (target : UInt32) : ChunkSpec :=
  let target := Nat.min (Nat.max target.toNat floor) ceiling
  { min := UInt32.ofNat (Nat.max (target / 4) (floor / 4))
    target := UInt32.ofNat target
    max := UInt32.ofNat
      (Nat.min (Nat.min (target * 4) (UInt32.size - 1)) ceiling) }

end ChunkSpec

/-- One item of the FastCDC iterator. -/
structure CdcChunk where
  offset : Nat
  length : Nat
deriving DecidableEq

/-- The chunks `fastcdc::v2020::FastCDC` yields for a region under the bounds
of a spec. -/
structure FastCdc where
  chunks : ChunkSpec → List UInt8 → List CdcChunk

namespace FastCdc

/-- Consecutive non-empty chunks from one offset up to another. -/
def Tiles : Nat → Nat → List CdcChunk → Prop
  | start, stop, [] => start = stop
  | start, stop, chunk :: rest =>
      chunk.offset = start ∧ 0 < chunk.length ∧
        Tiles (start + chunk.length) stop rest

/-- The chunks of a region are non-empty, consecutive and cover it. -/
def Tiling (cdc : FastCdc) : Prop :=
  ∀ spec region, Tiles 0 region.length (cdc.chunks spec region)

/-- FastCDC cuts greedily: the length of a cut depends on the bytes from its
start alone and lies within what remains, and a cut strictly before the end
stays where it is when bytes are appended. -/
structure Greedy (cdc : FastCdc) (next : ChunkSpec → List UInt8 → Nat) :
    Prop where
  nil : ∀ spec, cdc.chunks spec [] = []
  cons : ∀ spec region, region ≠ [] →
    cdc.chunks spec region = ⟨0, next spec region⟩ ::
      (cdc.chunks spec (region.drop (next spec region))).map fun chunk =>
        ⟨next spec region + chunk.offset, chunk.length⟩
  pos : ∀ spec region, region ≠ [] → 0 < next spec region
  le : ∀ spec region, next spec region ≤ region.length
  stable : ∀ spec region more, next spec region < region.length →
    next spec (region ++ more) = next spec region

end FastCdc

namespace Chunk

/-- Splits a region that is past the small-content exemption. -/
def cut (cdc : FastCdc) (region : List UInt8) (spec : ChunkSpec) :
    List (List UInt8) :=
  (cdc.chunks spec region).map fun chunk =>
    (region.drop chunk.offset).take chunk.length

/-- Splits plaintext into content-defined chunks. -/
def split (cdc : FastCdc) (plaintext : List UInt8) (spec : ChunkSpec) :
    List (List UInt8) :=
  if plaintext.isEmpty then []
  else if plaintext.length ≤ spec.target.toNat then [plaintext]
  else cut cdc plaintext spec

end Chunk

/-! ## Objects -/

/-- The ordered chunk list an object resolves to. -/
structure Manifest where
  chunks : List Cid
  plaintextLen : Nat
deriving DecidableEq

/-- The most bytes fetching a manifest's chunks can honestly take. Both the
product and the sum saturate at the largest `u64`. -/
def Manifest.ciphertextBound (m : Manifest) : Nat :=
  min (min (m.chunks.length * chunkOverheadBytes) (UInt64.size - 1) +
    m.plaintextLen) (UInt64.size - 1)

/-- An object encoded for storage: its manifest and every stored blob. -/
structure EncodedObject where
  manifest : Manifest
  chunks : List (Cid × List UInt8)
deriving DecidableEq

/-- Total stored bytes across all chunks. -/
def EncodedObject.storedLen (o : EncodedObject) : Nat :=
  (o.chunks.map fun chunk => chunk.2.length).sum

namespace Object

/-- Seals and addresses one piece. -/
def sealPiece (C : Crypto) (A : Aead) (dek : Dek) (piece : List UInt8) :
    Cid × List UInt8 :=
  let sealed := dek.sealChunk A piece
  (Cid.of C sealed, sealed)

/-- Chunks, encrypts and addresses an object. -/
def encode (C : Crypto) (A : Aead) (cdc : FastCdc) (plaintext : List UInt8)
    (dek : Dek) (spec : ChunkSpec) : EncodedObject :=
  let chunks := (Chunk.split cdc plaintext spec).map (sealPiece C A dek)
  { manifest := ⟨chunks.map Prod.fst, plaintext.length⟩
    chunks }

end Object

/-- An object that is only ever appended to. -/
structure AppendOnlyObject where
  spec : ChunkSpec
  tail : List UInt8
  object : EncodedObject
deriving DecidableEq

namespace AppendOnlyObject

/-- An empty object, chunked to `spec`. -/
def new (spec : ChunkSpec) : AppendOnlyObject := ⟨spec, [], ⟨⟨[], 0⟩, []⟩⟩

/-- Appends `more`: the chunk of the tail comes off, and the tail and what
arrived are cut again. -/
def extend (C : Crypto) (A : Aead) (cdc : FastCdc) (o : AppendOnlyObject)
    (more : List UInt8) (dek : Dek) : AppendOnlyObject :=
  if more.isEmpty then o
  else
    let keptChunks :=
      if o.tail.isEmpty then o.object.chunks else o.object.chunks.dropLast
    let keptCids :=
      if o.tail.isEmpty then o.object.manifest.chunks
      else o.object.manifest.chunks.dropLast
    let settled := o.object.manifest.plaintextLen - o.tail.length
    let region := o.tail ++ more
    let pieces :=
      if settled = 0 ∧ region.length ≤ o.spec.target.toNat then [region]
      else Chunk.cut cdc region o.spec
    let sealed := pieces.map (Object.sealPiece C A dek)
    { spec := o.spec
      tail := pieces.getLast?.getD []
      object :=
        { manifest :=
            { chunks := keptCids ++ sealed.map Prod.fst
              plaintextLen := settled + region.length }
          chunks := keptChunks ++ sealed } }

end AppendOnlyObject

namespace Object

/-- The loop of `decode`, with the plaintext read so far. -/
def decodeChunks (C : Crypto) (A : Aead) (blobs : BTreeMap Cid (List UInt8))
    (dek : Dek) : List Cid → List UInt8 → Except StorageError (List UInt8)
  | [], plaintext => .ok plaintext
  | cid :: rest, plaintext =>
      match blobs[cid]? with
      | none => .error (.missingChunk cid.short)
      | some blob =>
          if !cid.verifies C blob then
            .error (.chunkVerificationFailed cid.short)
          else
            match dek.openChunk A blob with
            | .error err => .error err
            | .ok piece => decodeChunks C A blobs dek rest (plaintext ++ piece)

/-- Reassembles plaintext from a manifest and the stored blobs it names. -/
def decode (C : Crypto) (A : Aead) (manifest : Manifest)
    (blobs : BTreeMap Cid (List UInt8)) (dek : Dek) :
    Except StorageError (List UInt8) :=
  match decodeChunks C A blobs dek manifest.chunks [] with
  | .error err => .error err
  | .ok plaintext =>
      if plaintext.length ≠ manifest.plaintextLen then
        .error (.lengthMismatch manifest.plaintextLen plaintext.length)
      else .ok plaintext

end Object

end Intranet
