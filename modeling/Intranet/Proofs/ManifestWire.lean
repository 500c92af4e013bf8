import Intranet.Lib.Run
import Intranet.Proofs.Dec
import Intranet.Proofs.Object
import Intranet.Ref.ObjectWire

/-!
# Manifests of hostile origin

The manifest parser keeps a cursor into the whole slice. Where it stands is
written here as a split of the slice into what is behind the cursor and what
is ahead, and every step of the parser says what it took off the front of the
rest. Read together, the parser accepts a byte string exactly when it is the
canonical encoding of what it answers (`fromBytes_iff`).

Decoding an object reserves a buffer of the length the manifest declares,
before it has seen a chunk. That length is the only number of a manifest
nothing has been checked against.
-/

namespace Intranet

namespace Manifest

variable {front rest : List UInt8} {n cursor : ℕ}

/-! ## The parser's steps -/

theorem takeAt_ok {slice : List UInt8}
    (hlen : (front ++ rest).length ≤ maxAllocation) :
    takeAt (front ++ rest) front.length n = .ok (slice, cursor) ↔
      ∃ rest', rest = slice ++ rest' ∧ slice.length = n ∧
        cursor = (front ++ slice).length := by
  rw [List.length_append, maxAllocation] at hlen
  rw [takeAt, List.length_append, List.drop_left, UInt64.size]
  constructor
  · intro h
    split at h
    · cases h
    · split at h
      · cases h
      · cases h
        refine ⟨rest.drop n, (List.take_append_drop n rest).symm, ?_, ?_⟩
        · rw [List.length_take]
          omega
        · rw [List.length_append, List.length_take]
          omega
  · rintro ⟨rest', rfl, rfl, rfl⟩
    rw [List.length_append] at hlen
    rw [if_neg (by omega), if_neg (by rw [List.length_append]; omega),
      List.take_left, List.length_append]

theorem takeU64_ok {v : UInt64}
    (hlen : (front ++ rest).length ≤ maxAllocation) :
    takeU64 (front ++ rest) front.length = .ok (v, cursor) ↔
      ∃ rest', rest = Enc.u64 v ++ rest' ∧
        cursor = (front ++ Enc.u64 v).length := by
  rw [takeU64, Run.bind_ok]
  constructor
  · rintro ⟨⟨slice, next⟩, hslice, h⟩
    cases h
    obtain ⟨rest', hrest, hwidth, hcursor⟩ := (takeAt_ok hlen).1 hslice
    rw [Dec.u64_ofBigEndian hwidth]
    exact ⟨rest', hrest, hcursor⟩
  · rintro ⟨rest', hrest, hcursor⟩
    have hwidth : (Enc.u64 v).length = 8 := Enc.length_bigEndian 8 _
    refine ⟨(Enc.u64 v, cursor),
      (takeAt_ok hlen).2 ⟨rest', hrest, hwidth, hcursor⟩, ?_⟩
    dsimp only
    rw [Dec.ofBigEndian_u64, UInt64.ofNat_toNat]
    rfl

/-- The bytes of one digest. -/
def putCid (cid : Cid) : List UInt8 := Enc.fixed cid.hash.bytes

theorem takeCid_ok {cid : Cid} (hlen : (front ++ rest).length ≤ maxAllocation) :
    takeCid (front ++ rest) front.length = .ok (cid, cursor) ↔
      ∃ rest', rest = putCid cid ++ rest' ∧
        cursor = (front ++ putCid cid).length := by
  rw [takeCid, Run.bind_ok]
  constructor
  · rintro ⟨⟨slice, next⟩, hslice, h⟩
    obtain ⟨rest', hrest, hwidth, hcursor⟩ := (takeAt_ok hlen).1 hslice
    dsimp only at h
    rw [dif_pos hwidth] at h
    cases h
    exact ⟨rest', hrest, hcursor⟩
  · rintro ⟨rest', hrest, hcursor⟩
    have hwidth : (putCid cid).length = 32 := cid.hash.bytes.length_eq
    refine ⟨(putCid cid, cursor),
      (takeAt_ok hlen).2 ⟨rest', hrest, hwidth, hcursor⟩, ?_⟩
    dsimp only
    rw [dif_pos hwidth]
    rfl

theorem takeCids_ok {cids : List Cid}
    (hlen : (front ++ rest).length ≤ maxAllocation) :
    takeCids (front ++ rest) n front.length = .ok (cids, cursor) ↔
      cids.length = n ∧ ∃ rest', rest = cids.flatMap putCid ++ rest' ∧
        cursor = (front ++ cids.flatMap putCid).length := by
  induction n generalizing front rest cids cursor with
  | zero =>
      rw [takeCids, Except.ok.injEq, Prod.mk.injEq, List.length_eq_zero_iff]
      constructor
      · rintro ⟨rfl, rfl⟩
        exact ⟨rfl, rest, rfl, by rw [List.flatMap_nil, List.append_nil]⟩
      · rintro ⟨rfl, rest', -, hcursor⟩
        rw [List.flatMap_nil, List.append_nil] at hcursor
        exact ⟨rfl, hcursor.symm⟩
  | succ n ih =>
      rw [takeCids, Run.bind_ok]
      constructor
      · rintro ⟨⟨cid, next⟩, hcid, h⟩
        obtain ⟨mid, rfl, rfl⟩ := (takeCid_ok hlen).1 hcid
        rw [← List.append_assoc] at hlen h
        obtain ⟨⟨more, last⟩, hmore, h⟩ := Run.bind_ok.1 h
        cases h
        obtain ⟨hcount, rest', rfl, hcursor⟩ := (ih hlen).1 hmore
        refine ⟨by rw [List.length_cons, hcount], rest', ?_, ?_⟩
        · rw [List.flatMap_cons, List.append_assoc]
        · rw [hcursor, List.flatMap_cons, List.append_assoc]
      · rintro ⟨hcount, rest', rfl, rfl⟩
        cases cids with
        | nil => cases hcount
        | cons cid cids =>
            rw [List.flatMap_cons, List.append_assoc] at hlen ⊢
            refine ⟨(cid, _), (takeCid_ok hlen).2 ⟨_, rfl, rfl⟩, ?_⟩
            rw [← List.append_assoc] at hlen ⊢
            refine Run.bind_ok.2 ⟨(cids, _), (ih hlen).2
              ⟨Nat.succ.inj hcount, rest', rfl, rfl⟩, ?_⟩
            dsimp only
            rw [List.append_assoc front]
            rfl

/-! ## What the parser accepts -/

theorem length_flatMap_putCid (cids : List Cid) :
    (cids.flatMap putCid).length = 32 * cids.length := by
  induction cids with
  | nil => rfl
  | cons cid cids ih =>
      rw [List.flatMap_cons, List.length_append, ih, List.length_cons, putCid,
        Enc.fixed, cid.hash.bytes.length_eq]
      omega

theorem canonicalBytes_eq (m : Manifest) :
    m.canonicalBytes =
      Enc.u64 (UInt64.ofNat (utf8 tag).length) ++ utf8 tag ++
        Enc.u64 (UInt64.ofNat m.chunks.length) ++ m.chunks.flatMap putCid ++
        Enc.u64 (UInt64.ofNat m.plaintextLen) := by
  rw [canonicalBytes, Enc.seq, ← List.append_assoc]
  rfl

/-- What the parser accepts is an encoding. -/
theorem fromBytes_ok {b : List UInt8} {m : Manifest}
    (hlen : b.length ≤ maxAllocation) (h : fromBytes b = .ok m) :
    m.plaintextLen < UInt64.size ∧ b = m.canonicalBytes := by
  rw [canonicalBytes_eq]
  obtain ⟨⟨tagLen, c₁⟩, htagLen, h⟩ := Run.bind_ok.1 h
  obtain ⟨r₁, rfl, rfl⟩ := (@takeU64_ok [] b _ _ hlen).1 htagLen
  rw [List.nil_append] at h
  dsimp only at h
  split at h
  · cases h
  next hwidth =>
  obtain ⟨⟨found, c₂⟩, hfound, h⟩ := Run.bind_ok.1 h
  obtain ⟨r₂, rfl, -, rfl⟩ := (takeAt_ok hlen).1 hfound
  rw [← List.append_assoc] at hlen h
  dsimp only at h
  split at h
  · cases h
  next htag =>
  obtain ⟨⟨count, c₃⟩, hcount, h⟩ := Run.bind_ok.1 h
  obtain ⟨r₃, rfl, rfl⟩ := (takeU64_ok hlen).1 hcount
  rw [← List.append_assoc] at hlen h
  dsimp only at h
  split at h
  · cases h
  obtain ⟨⟨cids, c₄⟩, htaken, h⟩ := Run.bind_ok.1 h
  obtain ⟨hcids, r₄, rfl, rfl⟩ := (takeCids_ok hlen).1 htaken
  rw [← List.append_assoc] at hlen h
  obtain ⟨⟨size, c₅⟩, hsize, h⟩ := Run.bind_ok.1 h
  obtain ⟨r₅, rfl, rfl⟩ := (takeU64_ok hlen).1 hsize
  dsimp only at h
  split at h
  · cases h
  next hend =>
  rw [not_not] at hwidth htag hend
  have hrest : r₅ = [] := by
    simp only [List.length_append] at hend
    exact List.eq_nil_of_length_eq_zero (by omega)
  cases h
  refine ⟨size.toNat_lt, ?_⟩
  rw [hrest, List.append_nil, htag, hcids, UInt64.ofNat_toNat,
    UInt64.ofNat_toNat, ← hwidth, UInt64.ofNat_toNat]
  simp only [List.append_assoc]

/-- An encoding is parsed to what it encodes. -/
theorem fromBytes_canonicalBytes {m : Manifest}
    (hlen : m.canonicalBytes.length ≤ maxAllocation)
    (hsize : m.plaintextLen < UInt64.size) :
    fromBytes m.canonicalBytes = .ok m := by
  rw [canonicalBytes_eq] at hlen ⊢
  have hcount : m.chunks.length < UInt64.size := by
    simp only [List.length_append, length_flatMap_putCid, maxAllocation]
      at hlen
    rw [UInt64.size]
    omega
  have hwidth : (UInt64.ofNat (utf8 tag).length).toNat = (utf8 tag).length :=
    rfl
  have hmany := UInt64.toNat_ofNat_of_lt' hcount
  have hends := UInt64.toNat_ofNat_of_lt' hsize
  have hroom : ¬(Enc.u64 (UInt64.ofNat (utf8 tag).length) ++ utf8 tag ++
      Enc.u64 (UInt64.ofNat m.chunks.length) ++ m.chunks.flatMap putCid ++
      Enc.u64 (UInt64.ofNat m.plaintextLen)).length / 32 + 1 <
        (UInt64.ofNat m.chunks.length).toNat := by
    rw [hmany]
    simp only [List.length_append, length_flatMap_putCid]
    omega
  simp only [List.append_assoc] at hlen hroom ⊢
  refine Run.bind_ok.2 ⟨(_, _),
    (@takeU64_ok [] _ _ _ hlen).2 ⟨_, rfl, rfl⟩, ?_⟩
  dsimp only
  rw [if_neg (not_not.2 hwidth), List.nil_append]
  refine Run.bind_ok.2 ⟨(_, _),
    (takeAt_ok hlen).2 ⟨_, rfl, rfl, rfl⟩, ?_⟩
  dsimp only
  rw [if_neg (not_not.2 rfl)]
  rw [← List.append_assoc] at hlen hroom ⊢
  refine Run.bind_ok.2 ⟨(_, _),
    (takeU64_ok hlen).2 ⟨_, rfl, rfl⟩, ?_⟩
  dsimp only
  rw [if_neg hroom]
  rw [← List.append_assoc] at hlen ⊢
  refine Run.bind_ok.2 ⟨(_, _),
    (takeCids_ok hlen).2 ⟨hmany.symm, _, rfl, rfl⟩, ?_⟩
  dsimp only
  rw [← List.append_assoc] at hlen ⊢
  refine Run.bind_ok.2 ⟨(_, _), (takeU64_ok hlen).2
    ⟨[], (List.append_nil _).symm, rfl⟩, ?_⟩
  dsimp only
  rw [if_neg (not_not.2 rfl), hends]

/-- The parser inverts the encoder, and accepts nothing else. -/
theorem fromBytes_iff {b : List UInt8} {m : Manifest}
    (hlen : b.length ≤ maxAllocation) :
    fromBytes b = .ok m ↔
      m.plaintextLen < UInt64.size ∧ b = m.canonicalBytes := by
  constructor
  · exact fromBytes_ok hlen
  · rintro ⟨hsize, rfl⟩
    exact fromBytes_canonicalBytes hlen hsize

end Manifest

/-! ## Decoding -/

namespace Object

variable {C : Crypto} {A : Aead} {blobs : BTreeMap Cid (List UInt8)}
  {dek : Dek}

/-- The chunk named `cid` is present, verifies and opens to `piece`. -/
def Opens (C : Crypto) (A : Aead) (blobs : BTreeMap Cid (List UInt8))
    (dek : Dek) (cid : Cid) (piece : List UInt8) : Prop :=
  ∃ blob, blobs[cid]? = some blob ∧ cid.verifies C blob = true ∧
    dek.openChunk A blob = .ok piece

/-- Every named chunk opens, and `plaintext` is the pieces in order, as many
bytes as the manifest declares. -/
def Reassembles (C : Crypto) (A : Aead) (manifest : Manifest)
    (blobs : BTreeMap Cid (List UInt8)) (dek : Dek)
    (plaintext : List UInt8) : Prop :=
  ∃ pieces, List.Forall₂ (Opens C A blobs dek) manifest.chunks pieces ∧
    plaintext = pieces.flatten ∧ plaintext.length = manifest.plaintextLen

theorem decodeChunks_ok {cids : List Cid} {read plaintext : List UInt8} :
    decodeChunks C A blobs dek cids read = .ok plaintext ↔
      ∃ pieces, List.Forall₂ (Opens C A blobs dek) cids pieces ∧
        plaintext = read ++ pieces.flatten := by
  induction cids generalizing read with
  | nil =>
      rw [decodeChunks, Except.ok.injEq]
      constructor
      · rintro rfl
        exact ⟨[], .nil, (List.append_nil _).symm⟩
      · rintro ⟨pieces, hpieces, rfl⟩
        cases hpieces
        exact (List.append_nil _).symm
  | cons cid cids ih =>
      rw [decodeChunks]
      constructor
      · intro h
        split at h
        · cases h
        next blob hblob =>
        split at h
        · cases h
        next hverifies =>
        split at h
        · cases h
        next piece hpiece =>
        obtain ⟨pieces, hpieces, rfl⟩ := ih.1 h
        rw [Bool.not_eq_true', Bool.not_eq_false] at hverifies
        refine ⟨piece :: pieces,
          .cons ⟨blob, hblob, hverifies, hpiece⟩ hpieces, ?_⟩
        rw [List.flatten_cons, List.append_assoc]
      · rintro ⟨_, hall, rfl⟩
        cases hall with
        | cons hopens hpieces =>
            obtain ⟨blob, hblob, hverifies, hpiece⟩ := hopens
            simp only [hblob, hverifies, hpiece, Bool.not_true,
              Bool.false_eq_true, if_false]
            refine ih.2 ⟨_, hpieces, ?_⟩
            rw [List.flatten_cons, List.append_assoc]

theorem decode_ok {manifest : Manifest} {plaintext : List UInt8} :
    decode C A manifest blobs dek = .ok plaintext ↔
      Reassembles C A manifest blobs dek plaintext := by
  unfold decode Reassembles
  constructor
  · intro h
    split at h
    · cases h
    next read hread =>
    split at h
    · cases h
    next hsize =>
    cases h
    obtain ⟨pieces, hpieces, hflat⟩ := decodeChunks_ok.1 hread
    exact ⟨pieces, hpieces, hflat, not_not.1 hsize⟩
  · rintro ⟨pieces, hpieces, hflat, hsize⟩
    rw [decodeChunks_ok.2 ⟨pieces, hpieces, hflat⟩]
    simp only
    rw [if_neg (not_not.2 hsize)]

theorem decodeReserving_eq (manifest : Manifest) :
    decodeReserving C A manifest blobs dek =
      if manifest.plaintextLen ≤ maxAllocation then
        some (decode C A manifest blobs dek)
      else none := by
  unfold decodeReserving vecWithCapacity
  by_cases hfits : manifest.plaintextLen ≤ maxAllocation
  · rw [if_pos hfits, if_pos hfits]
  · rw [if_neg hfits, if_neg hfits]

/-- Manifest parsing is exact, and decoding against an accepted manifest
answers exactly what it should if and only if the manifest declares no more
bytes than a buffer can have. A declared length past that is a panic. -/
theorem manifest_decodes_iff (C : Crypto) (A : Aead) :
    (∀ (b : List UInt8) (m : Manifest), b.length ≤ maxAllocation →
      (Manifest.fromBytes b = .ok m ↔
        m.plaintextLen < UInt64.size ∧ b = m.canonicalBytes)) ∧
    ∀ (b : List UInt8) (m : Manifest), b.length ≤ maxAllocation →
      Manifest.fromBytes b = .ok m →
      ∀ (blobs : BTreeMap Cid (List UInt8)) (dek : Dek),
        (∃ answer, decodeReserving C A m blobs dek = some answer ∧
          ∀ plaintext, answer = .ok plaintext ↔
            Reassembles C A m blobs dek plaintext) ↔
        m.plaintextLen ≤ maxAllocation := by
  refine ⟨fun b m hlen => Manifest.fromBytes_iff hlen,
    fun b m _ _ blobs dek => ?_⟩
  rw [decodeReserving_eq]
  constructor
  · rintro ⟨answer, hanswer, -⟩
    by_contra hwide
    rw [if_neg hwide] at hanswer
    cases hanswer
  · intro hfits
    rw [if_pos hfits]
    exact ⟨_, rfl, fun plaintext => decode_ok⟩

/-- A manifest of forty-four bytes that no chunk belongs to and that declares
a byte more than an allocation can have: it is accepted, and decoding it
panics. -/
theorem manifest_decode_panics :
    Manifest.fromBytes (Manifest.canonicalBytes ⟨[], 2 ^ 63⟩) =
        .ok ⟨[], 2 ^ 63⟩ ∧
      decodeReserving Crypto.sample Sample.aead ⟨[], 2 ^ 63⟩ ∅ Sample.dek =
        none := by
  have hlen : (Manifest.canonicalBytes ⟨[], 2 ^ 63⟩).length ≤ maxAllocation := by
    rw [Manifest.canonicalBytes_eq]
    simp only [List.length_append, Enc.u64, Enc.length_bigEndian, maxAllocation,
      List.flatMap_nil, List.length_nil]
    decide
  refine ⟨(Manifest.fromBytes_iff hlen).2 ⟨by decide, rfl⟩, ?_⟩
  rw [decodeReserving_eq, if_neg (by rw [maxAllocation]; decide)]

end Object

end Intranet
