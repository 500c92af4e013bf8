import Intranet.Proofs.Dec
import Intranet.Proofs.Object
import Intranet.Ref.ObjectWire

/-!
# Chunks that can be transferred

A chunk goes through three modules with a bound each. The policy's target
becomes a largest chunk in `ChunkSpec.fromTarget`, sealing adds its overhead,
and the wire takes what is within `maxChunkBytes`. The last of the three does
not look at the first: a target just below four mebibytes is the last one
whose chunks all fit.

The chunker enters by what is documented of it: no chunk is longer than the
largest permitted one, and a region without boundaries, such as one of
zeros, is cut at that size.
-/

namespace Intranet

/-- What is documented of FastCDC under the bounds of one spec. -/
structure FastCdc.Bounded (cdc : FastCdc) (spec : ChunkSpec) : Prop where
  le_max : ∀ region, ∀ chunk ∈ cdc.chunks spec region,
    chunk.length ≤ spec.max.toNat
  zeros : ∀ n, spec.max.toNat ≤ n →
    ⟨0, spec.max.toNat⟩ ∈ cdc.chunks spec (List.replicate n 0)

/-! ## The sizes of pieces -/

namespace ChunkSpec

theorem toNat_target (t : UInt32) :
    (fromTarget t).target.toNat = Min.min (Max.max t.toNat floor) ceiling := by
  refine UInt32.toNat_ofNat_of_lt ((Nat.min_le_right _ _).trans_lt ?_)
  decide

theorem toNat_max (t : UInt32) :
    (fromTarget t).max.toNat =
      Min.min (4 * Max.max t.toNat floor) ceiling := by
  have hmax : (fromTarget t).max.toNat =
      Min.min (Min.min (Min.min (Max.max t.toNat floor) ceiling * 4)
        (UInt32.size - 1)) ceiling :=
    UInt32.toNat_ofNat_of_lt ((Nat.min_le_right _ _).trans_lt (by decide))
  rw [hmax, floor, ceiling, UInt32.size]
  omega

theorem target_le_max (t : UInt32) :
    (fromTarget t).target.toNat ≤ (fromTarget t).max.toNat := by
  rw [toNat_target, toNat_max, floor, ceiling]
  omega

end ChunkSpec

section Pieces

variable {cdc : FastCdc} {spec : ChunkSpec} {plaintext piece : List UInt8}

theorem FastCdc.Bounded.length_piece (h : cdc.Bounded spec)
    (htarget : spec.target.toNat ≤ spec.max.toNat)
    (hpiece : piece ∈ Chunk.split cdc plaintext spec) :
    piece.length ≤ spec.max.toNat := by
  unfold Chunk.split at hpiece
  split at hpiece
  · cases hpiece
  · split at hpiece
    · next hsmall =>
        rw [List.mem_singleton.1 hpiece]
        exact hsmall.trans htarget
    · obtain ⟨chunk, hchunk, rfl⟩ := List.mem_map.1 hpiece
      exact (List.length_take_le _ _).trans (h.le_max plaintext chunk hchunk)

/-- A small object is one piece. -/
theorem Chunk.split_small (hne : plaintext ≠ [])
    (hsmall : plaintext.length ≤ spec.target.toNat) :
    Chunk.split cdc plaintext spec = [plaintext] := by
  rw [Chunk.split, if_neg (by rwa [List.isEmpty_iff]), if_pos hsmall]

/-- Some object has a piece of the largest size. -/
theorem FastCdc.Bounded.exists_longest (h : cdc.Bounded spec)
    (hpos : 0 < spec.max.toNat) :
    ∃ plaintext, ∃ piece ∈ Chunk.split cdc plaintext spec,
      piece.length = spec.max.toNat := by
  have hlen : (List.replicate spec.max.toNat (0 : UInt8)).length =
      spec.max.toNat := List.length_replicate
  have hne : List.replicate spec.max.toNat (0 : UInt8) ≠ [] := by
    intro hnil
    rw [hnil] at hlen
    exact hpos.ne hlen
  refine ⟨List.replicate spec.max.toNat 0, ?_⟩
  by_cases hsmall : spec.max.toNat ≤ spec.target.toNat
  · rw [Chunk.split_small hne (by rwa [hlen])]
    exact ⟨_, List.mem_singleton_self _, hlen⟩
  · rw [Chunk.split, if_neg (by rwa [List.isEmpty_iff]),
      if_neg (by rwa [hlen])]
    refine ⟨_, List.mem_map_of_mem (h.zeros _ le_rfl), ?_⟩
    rw [List.drop_zero, List.length_take, hlen, Nat.min_self]

end Pieces

/-! ## The wire -/

namespace ChunkResponse

open Reader

/-- The bytes of a chunk response: 39 of domain, a discriminant, a length and
the chunk. -/
theorem length_encode_chunk (bytes : List UInt8) :
    (chunk bytes).encode.length = bytes.length + 48 := by
  have hdomain : (Enc.domain wireDomain).length = 39 := by decide +kernel
  simp only [encode, put, List.length_append, hdomain, Enc.variant, Enc.u8,
    Enc.bytes, Enc.u64, Enc.length_bigEndian, List.length_singleton]
  omega

theorem decode_encode_chunk {bytes : List UInt8}
    (hbytes : bytes.length ≤ maxChunkBytes) :
    decode (chunk bytes).encode = .ok (chunk bytes) := by
  have hget : Reads get (chunk bytes).put (chunk bytes) := by
    refine Dec.variant_reads ?_
    exact Reads.andThen (Dec.bytes_reads bytes)
      (Reads.step (Reads.check hbytes) (Reads.pure _))
  refine Dec.framed_reads hget (Reads.pure _) ?_
  have hlen := length_encode_chunk bytes
  rw [encode] at hlen
  rw [hlen]
  unfold maxChunkBytes at hbytes
  omega

/-- The bytes are within the wire's bound, read back as themselves, and their
message fits. -/
def Transfers (bytes : List UInt8) : Prop :=
  bytes.length ≤ maxChunkBytes ∧
    decode (chunk bytes).encode = .ok (chunk bytes) ∧
    (chunk bytes).encode.length ≤ maxChunkMessageBytes

theorem transfers_iff {bytes : List UInt8} :
    Transfers bytes ↔ bytes.length ≤ maxChunkBytes := by
  constructor
  · intro h
    exact h.1
  · intro h
    refine ⟨h, decode_encode_chunk h, ?_⟩
    unfold maxChunkMessageBytes
    have hlen := length_encode_chunk bytes
    omega

end ChunkResponse

/-! ## Policies -/

section Policies

variable {C : Crypto} {A : Aead} {cdc : FastCdc}

theorem Aead.Lawful.mem_chunks (hA : A.Lawful) {plaintext : List UInt8}
    {dek : Dek} {spec : ChunkSpec} {stored : Cid × List UInt8}
    (h : stored ∈ (Object.encode C A cdc plaintext dek spec).chunks) :
    ∃ piece ∈ Chunk.split cdc plaintext spec,
      stored.2.length = piece.length + 40 := by
  obtain ⟨piece, hpiece, rfl⟩ := List.mem_map.1 h
  exact ⟨piece, hpiece, hA.length_seal dek piece⟩

theorem Object.sealPiece_mem {plaintext piece : List UInt8} {dek : Dek}
    {spec : ChunkSpec} (h : piece ∈ Chunk.split cdc plaintext spec) :
    sealPiece C A dek piece ∈ (encode C A cdc plaintext dek spec).chunks :=
  List.mem_map_of_mem h

/-- A small object is transferred with its overhead. -/
theorem Aead.Lawful.length_of_small (hA : A.Lawful) {plaintext : List UInt8}
    {dek : Dek} {spec : ChunkSpec} (hne : plaintext ≠ [])
    (hsmall : plaintext.length ≤ spec.target.toNat)
    (h : ∀ stored ∈ (Object.encode C A cdc plaintext dek spec).chunks,
      ChunkResponse.Transfers stored.2) :
    plaintext.length + 40 ≤ maxChunkBytes := by
  have hpiece : plaintext ∈ Chunk.split cdc plaintext spec := by
    rw [Chunk.split_small hne hsmall]
    exact List.mem_singleton_self _
  have hfits := (h _ (Object.sealPiece_mem hpiece)).1
  rwa [Object.sealPiece, hA.length_seal] at hfits

/-- Every chunk a policy can produce is transferable if and only if its target
is at least ten bytes short of four mebibytes. -/
theorem chunks_transfer_iff (C : Crypto) (A : Aead) (cdc : FastCdc)
    (policy : NetworkPolicy) (hA : A.Lawful)
    (hcdc : cdc.Bounded (ChunkSpec.fromPolicy policy)) :
    (∀ (plaintext : List UInt8) (dek : Dek), ∀ stored ∈
        (Object.encode C A cdc plaintext dek
          (ChunkSpec.fromPolicy policy)).chunks,
        ChunkResponse.Transfers stored.2) ↔
      policy.targetChunkSize.toNat ≤ 4 * 1024 * 1024 - 10 := by
  have hmax := ChunkSpec.toNat_max policy.targetChunkSize
  rw [ChunkSpec.floor, ChunkSpec.ceiling] at hmax
  unfold ChunkSpec.fromPolicy at hcdc ⊢
  constructor
  · intro h
    by_contra hwide
    obtain ⟨plaintext, piece, hpiece, hlongest⟩ :=
      hcdc.exists_longest (by omega)
    have hfits := (h plaintext ⟨Bytes.replicate 32 0⟩ _
      (Object.sealPiece_mem hpiece)).1
    rw [Object.sealPiece, hA.length_seal, maxChunkBytes, chunkOverheadBytes,
      nonceLen, tagLen] at hfits
    omega
  · intro htarget plaintext dek stored hstored
    obtain ⟨piece, hpiece, hlen⟩ := hA.mem_chunks hstored
    have hshort := hcdc.length_piece (ChunkSpec.target_le_max _) hpiece
    rw [ChunkResponse.transfers_iff, hlen, maxChunkBytes]
    omega

namespace Sample

/-- A chunker that finds no boundary anywhere. -/
def evenCdc : FastCdc where
  chunks spec region :=
    let count := (region.length + spec.max.toNat - 1) / spec.max.toNat
    (List.range count).map fun i =>
      ⟨i * spec.max.toNat,
        min spec.max.toNat (region.length - i * spec.max.toNat)⟩

theorem evenCdc_bounded {spec : ChunkSpec} (hpos : 0 < spec.max.toNat) :
    evenCdc.Bounded spec where
  le_max := by
    intro region chunk hchunk
    obtain ⟨i, -, rfl⟩ := List.mem_map.1 hchunk
    exact Nat.min_le_left _ _
  zeros := by
    intro n hn
    refine List.mem_map.2 ⟨0, List.mem_range.2 ?_, ?_⟩
    · rw [List.length_replicate]
      exact Nat.div_pos (by omega) hpos
    · rw [List.length_replicate, Nat.zero_mul, Nat.sub_zero,
        Nat.min_eq_left hn]

end Sample

theorem chunks_transfer_iff_default :
    (∀ (plaintext : List UInt8) (dek : Dek), ∀ stored ∈
        (Object.encode Crypto.sample Sample.aead Sample.evenCdc plaintext dek
          (ChunkSpec.fromPolicy NetworkPolicy.conservativeDefault)).chunks,
        ChunkResponse.Transfers stored.2) ↔
      (32 * 1024 : UInt32).toNat ≤ 4 * 1024 * 1024 - 10 :=
  chunks_transfer_iff Crypto.sample Sample.aead Sample.evenCdc
    NetworkPolicy.conservativeDefault Sample.aead_lawful
    (Sample.evenCdc_bounded (by decide))

/-- Under a target of sixteen mebibytes an object of that size is one chunk,
which sealing takes past what the wire lets through. -/
theorem large_target_chunk_refused :
    ¬ ∀ (plaintext : List UInt8) (dek : Dek), ∀ stored ∈
        (Object.encode Crypto.sample Sample.aead Sample.evenCdc plaintext dek
          (ChunkSpec.fromPolicy
            { NetworkPolicy.conservativeDefault with
              targetChunkSize := 16777216 })).chunks,
        ChunkResponse.Transfers stored.2 := by
  intro h
  obtain ⟨plaintext, hlen⟩ : ∃ plaintext : List UInt8,
      plaintext.length = 16777216 :=
    ⟨List.replicate 16777216 0, List.length_replicate⟩
  have htarget : (ChunkSpec.fromPolicy
      { NetworkPolicy.conservativeDefault with
        targetChunkSize := 16777216 }).target.toNat = 16777216 := by
    rw [ChunkSpec.fromPolicy, ChunkSpec.toNat_target]
    rfl
  have hne : plaintext ≠ [] := by
    rintro rfl
    cases hlen
  have hfits := Sample.aead_lawful.length_of_small hne (by rw [hlen, htarget])
    (h plaintext Sample.dek)
  rw [hlen, maxChunkBytes] at hfits
  omega

end Policies

end Intranet
