import Intranet.Lib.Cut
import Intranet.Ref.Object
import Intranet.Ref.Sample

/-!
# Objects: appending, and reading back

Two properties of the object encoder. An append-only object re-cuts its last
piece and what arrived and keeps every other chunk; since FastCDC cuts
greedily, that is the cut of the whole (`split_append`), and the object is the
one `encode` makes of everything appended so far. And `decode` inverts
`encode`, whose chunks together take no more than the manifest's bound.
-/

namespace Intranet

/-! ## Appending -/

section Append

variable {cdc : FastCdc} {next : ChunkSpec → List UInt8 → ℕ}

/-- The pieces of a region are cut greedily when the chunks are. -/
theorem FastCdc.Greedy.cut (h : cdc.Greedy next) (spec : ChunkSpec) :
    Cut.Greedy (fun region => Chunk.cut cdc region spec) (next spec) where
  nil := by rw [Chunk.cut, h.nil]; rfl
  cons := by
    intro region hregion
    rw [Chunk.cut, h.cons spec region hregion, List.map_cons, List.map_map]
    congr 1
    rw [Chunk.cut]
    refine List.map_congr_left fun chunk _ => ?_
    simp only [Function.comp_apply, List.drop_drop]
  pos := h.pos spec
  le := h.le spec
  stable := h.stable spec

/-- What an append cuts again, given what was settled before the tail. -/
def recut (cdc : FastCdc) (spec : ChunkSpec) (settled : ℕ)
    (region : List UInt8) : List (List UInt8) :=
  if settled = 0 ∧ region.length ≤ spec.target.toNat then [region]
  else Chunk.cut cdc region spec

/-- The last piece of what has been appended so far. -/
def lastPiece (cdc : FastCdc) (spec : ChunkSpec) (content : List UInt8) :
    List UInt8 :=
  (Chunk.split cdc content spec).getLast?.getD []

theorem split_ne_nil (h : cdc.Greedy next) {content : List UInt8}
    (hne : content ≠ []) (spec : ChunkSpec) :
    Chunk.split cdc content spec ≠ [] := by
  unfold Chunk.split
  rw [if_neg (by simpa using hne)]
  split
  · exact List.cons_ne_nil _ _
  · exact (h.cut spec).cut_ne_nil hne

theorem flatten_split (h : cdc.Greedy next) (content : List UInt8)
    (spec : ChunkSpec) : (Chunk.split cdc content spec).flatten = content := by
  unfold Chunk.split
  split
  · next hnil => rw [List.isEmpty_iff.1 hnil]; rfl
  · split
    · simp
    · exact (h.cut spec).flatten_cut content

/-- The pieces before the last, and the last. -/
theorem split_eq_append (h : cdc.Greedy next) {content : List UInt8}
    (hne : content ≠ []) (spec : ChunkSpec) :
    Chunk.split cdc content spec =
      (Chunk.split cdc content spec).dropLast ++ [lastPiece cdc spec content] := by
  have hsplit := split_ne_nil h hne spec
  rw [lastPiece, List.getLast?_eq_some_getLast hsplit, Option.getD_some,
    List.dropLast_append_getLast]

/-- Cutting the tail and what arrived again yields the pieces of the whole. -/
theorem split_append (h : cdc.Greedy next) (spec : ChunkSpec)
    (content more : List UInt8) (hmore : more ≠ []) :
    Chunk.split cdc (content ++ more) spec =
      (Chunk.split cdc content spec).dropLast ++
        recut cdc spec (content.length - (lastPiece cdc spec content).length)
          (lastPiece cdc spec content ++ more) := by
  have hwhole : content ++ more ≠ [] := List.append_ne_nil_of_right_ne_nil _ hmore
  by_cases hsmall : content.length ≤ spec.target.toNat
  · -- nothing is settled: the object is one piece, or none
    have hlast : lastPiece cdc spec content = content := by
      unfold lastPiece Chunk.split
      split
      · next hnil => rw [List.isEmpty_iff.1 hnil]; rfl
      · rfl
    have hfront : (Chunk.split cdc content spec).dropLast = [] := by
      unfold Chunk.split
      split <;> rfl
    rw [hlast, hfront, List.nil_append, Nat.sub_self, recut, Chunk.split,
      if_neg (by simpa using hwhole)]
    simp
  · -- the object is past the exemption, and so is everything it grows into
    have hne : content ≠ [] := by
      intro hnil
      rw [hnil] at hsmall
      exact hsmall (Nat.zero_le _)
    have hsplit : ∀ bytes : List UInt8, spec.target.toNat < bytes.length →
        Chunk.split cdc bytes spec = Chunk.cut cdc bytes spec := by
      intro bytes hlong
      unfold Chunk.split
      rw [if_neg, if_neg (Nat.not_le_of_lt hlong)]
      intro hnil
      rw [List.isEmpty_iff.1 hnil] at hlong
      exact Nat.not_lt_zero _ hlong
    have hlong : spec.target.toNat < (content ++ more).length := by
      rw [List.length_append]
      omega
    have hpieces := split_eq_append h hne spec
    have hlen := congrArg (fun pieces => pieces.flatten.length) hpieces
    simp only [flatten_split h content spec, List.flatten_append,
      List.length_append, List.flatten_cons, List.flatten_nil,
      List.append_nil] at hlen
    have hrecut : recut cdc spec
        (content.length - (lastPiece cdc spec content).length)
        (lastPiece cdc spec content ++ more) =
        Chunk.cut cdc (lastPiece cdc spec content ++ more) spec := by
      refine if_neg fun hexempt => ?_
      rw [List.length_append] at hexempt
      omega
    rw [hrecut, hsplit _ hlong]
    have hcut : Chunk.cut cdc content spec =
        (Chunk.split cdc content spec).dropLast ++
          [lastPiece cdc spec content] := by
      rw [← hsplit content (Nat.lt_of_not_le hsmall)]
      exact hpieces
    exact (h.cut spec).cut_append hcut more

theorem lastPiece_ne_nil (h : cdc.Greedy next) {content : List UInt8}
    (hne : content ≠ []) (spec : ChunkSpec) :
    lastPiece cdc spec content ≠ [] := by
  have hmem : lastPiece cdc spec content ∈ Chunk.split cdc content spec := by
    rw [split_eq_append h hne spec]
    simp
  unfold Chunk.split at hmem
  split at hmem
  · cases hmem
  · split at hmem
    · rw [List.mem_singleton.1 hmem]
      exact hne
    · exact (h.cut spec).ne_nil_of_mem content hmem

variable {C : Crypto} {A : Aead} {dek : Dek}

/-- An append-only object that holds what `encode` makes of `content`, and
the plaintext of its last chunk. -/
structure AppendOnlyObject.Describes (C : Crypto) (A : Aead) (cdc : FastCdc)
    (dek : Dek) (o : AppendOnlyObject) (content : List UInt8) : Prop where
  object : o.object = Object.encode C A cdc content dek o.spec
  tail : o.tail = lastPiece cdc o.spec content

theorem AppendOnlyObject.describes_new (spec : ChunkSpec) :
    (AppendOnlyObject.new spec).Describes C A cdc dek [] :=
  ⟨rfl, rfl⟩

/-- Appending to an object that describes `content`. -/
theorem AppendOnlyObject.Describes.extend (h : cdc.Greedy next)
    {o : AppendOnlyObject} {content : List UInt8}
    (ho : o.Describes C A cdc dek content) (more : List UInt8) :
    (o.extend C A cdc more dek).Describes C A cdc dek (content ++ more) := by
  unfold AppendOnlyObject.extend
  split
  · next hnil =>
      rw [List.isEmpty_iff.1 hnil, List.append_nil]
      exact ho
  · next hmore =>
      have hne : more ≠ [] := by simpa using hmore
      have hpieces := split_append h o.spec content more hne
      -- the chunk that comes off is that of the last piece, if there is one
      have hdrop : ∀ {β : Type} (f : List UInt8 → β),
          (if o.tail.isEmpty = true then
            (Chunk.split cdc content o.spec).map f
          else ((Chunk.split cdc content o.spec).map f).dropLast) =
            (Chunk.split cdc content o.spec).dropLast.map f := by
        intro β f
        rw [List.map_dropLast]
        split
        · next htail =>
            have hnil : content = [] := by
              by_contra hcontent
              refine lastPiece_ne_nil h hcontent o.spec ?_
              rw [← ho.tail, List.isEmpty_iff.1 htail]
            rw [hnil]
            rfl
        · rfl
      have hlen : (lastPiece cdc o.spec content).length ≤ content.length := by
        by_cases hcontent : content = []
        · rw [hcontent]
          exact le_rfl
        · have hwhole := congrArg List.length (flatten_split h content o.spec)
          rw [split_eq_append h hcontent o.spec] at hwhole
          simp only [List.flatten_append, List.length_append, List.flatten_cons,
            List.flatten_nil, List.append_nil] at hwhole
          omega
      rw [← ho.tail] at hpieces hlen
      have hrecut : (if content.length - o.tail.length = 0 ∧
          (o.tail ++ more).length ≤ o.spec.target.toNat then [o.tail ++ more]
          else Chunk.cut cdc (o.tail ++ more) o.spec) =
          recut cdc o.spec (content.length - o.tail.length)
            (o.tail ++ more) := rfl
      constructor
      · have hsum : content.length - o.tail.length + (o.tail ++ more).length =
            (content ++ more).length := by
          rw [List.length_append, List.length_append]
          omega
        simp only [ho.object, Object.encode, List.map_map, hrecut, hdrop, hsum,
          ← List.map_append, ← hpieces]
      · have hlast : (recut cdc o.spec (content.length - o.tail.length)
            (o.tail ++ more)) ≠ [] := by
          unfold recut
          split
          · exact List.cons_ne_nil _ _
          · exact (h.cut o.spec).cut_ne_nil
              (List.append_ne_nil_of_right_ne_nil _ hne)
        simp only [ho.object, Object.encode, hrecut]
        rw [lastPiece, hpieces, List.getLast?_append_of_ne_nil _ hlast]

theorem AppendOnlyObject.Describes.foldl (h : cdc.Greedy next)
    (appends : List (List UInt8)) {o : AppendOnlyObject} {content : List UInt8}
    (ho : o.Describes C A cdc dek content) :
    (appends.foldl (fun o more => o.extend C A cdc more dek) o).Describes
      C A cdc dek (content ++ appends.flatten) := by
  induction appends generalizing o content with
  | nil =>
      rw [List.flatten_nil, List.append_nil]
      exact ho
  | cons more appends ih =>
      rw [List.flatten_cons, ← List.append_assoc]
      exact ih (ho.extend h more)

theorem AppendOnlyObject.spec_foldl (appends : List (List UInt8))
    (o : AppendOnlyObject) :
    (appends.foldl (fun o more => o.extend C A cdc more dek) o).spec =
      o.spec := by
  induction appends generalizing o with
  | nil => rfl
  | cons more appends ih =>
      rw [List.foldl_cons, ih, AppendOnlyObject.extend]
      split <;> rfl

end Append

/-- Appending equals encoding whole: an object made by appending any byte
strings, empty ones included, is after each of them the one `encode` makes of
them together. -/
theorem appendOnly_eq_encode (C : Crypto) (A : Aead) (cdc : FastCdc)
    (next : ChunkSpec → List UInt8 → ℕ) (h : cdc.Greedy next) (target : UInt32)
    (dek : Dek) (appends : List (List UInt8)) (k : ℕ) :
    ((appends.take k).foldl (fun o more => o.extend C A cdc more dek)
      (AppendOnlyObject.new (ChunkSpec.fromTarget target))).object =
      Object.encode C A cdc (appends.take k).flatten dek
        (ChunkSpec.fromTarget target) := by
  have hnew : (AppendOnlyObject.new (ChunkSpec.fromTarget target)).Describes
      C A cdc dek [] := AppendOnlyObject.describes_new _
  have hwhole := (hnew.foldl h (appends.take k)).object
  rw [AppendOnlyObject.spec_foldl] at hwhole
  exact hwhole

namespace Sample

/-- FastCDC on regions no longer than the smallest chunk, which it leaves in
one piece. -/
def shortCdc : FastCdc where
  chunks _ region := if region.isEmpty then [] else [⟨0, region.length⟩]

theorem shortCdc_greedy : shortCdc.Greedy fun _ region => region.length where
  nil := fun _ => rfl
  cons := by
    intro spec region hregion
    have hne : ¬ region.isEmpty = true := by simpa using hregion
    simp only [shortCdc, if_neg hne, List.drop_length]
    rfl
  pos := fun _ _ hregion => List.length_pos_iff.2 hregion
  le := fun _ _ => le_rfl
  stable := fun _ _ _ hlt => absurd hlt (Nat.lt_irrefl _)

theorem shortCdc_tiling : shortCdc.Tiling := by
  intro spec region
  cases region with
  | nil => exact rfl
  | cons byte region =>
      exact ⟨rfl, Nat.succ_pos _, Nat.zero_add _⟩

/-- A cipher that writes the plaintext and a tag made of the key. -/
def aead : Aead where
  keyedHash key bytes := ⟨last32 (key.toList ++ bytes)⟩
  encrypt key _ plaintext := plaintext ++ key.toList.take 16
  decrypt key _ ciphertext :=
    if ciphertext.drop (ciphertext.length - 16) = key.toList.take 16 then
      some (ciphertext.take (ciphertext.length - 16))
    else none

theorem aead_lawful : aead.Lawful where
  decrypt_encrypt := by
    intro key nonce plaintext
    have hkey : (key.toList.take 16).length = 16 := by
      rw [List.length_take, key.length_eq]
      rfl
    have hlen : (plaintext ++ key.toList.take 16).length - 16 =
        plaintext.length := by
      rw [List.length_append, hkey]
      omega
    simp only [aead, hlen, List.drop_left, List.take_left, if_true]
  length_encrypt := by
    intro key nonce plaintext
    simp only [aead, List.length_append, List.length_take, key.length_eq]
    rfl

def dek : Dek := ⟨Bytes.replicate 32 9⟩

end Sample

theorem appendOnly_eq_encode_sample :
    (([[1, 2], [], [3]].take 3).foldl
      (fun o more => o.extend Crypto.sample Sample.aead Sample.shortCdc more
        Sample.dek)
      (AppendOnlyObject.new (ChunkSpec.fromTarget 4096))).object =
      Object.encode Crypto.sample Sample.aead Sample.shortCdc
        (([[1, 2], [], [3]].take 3).flatten) Sample.dek
        (ChunkSpec.fromTarget 4096) :=
  appendOnly_eq_encode Crypto.sample Sample.aead Sample.shortCdc _
    Sample.shortCdc_greedy 4096 Sample.dek [[1, 2], [], [3]] 3

/-! ## Reading back -/

section ReadBack

variable {C : Crypto} {A : Aead}

theorem Aead.Lawful.length_seal (hA : A.Lawful) (dek : Dek)
    (piece : List UInt8) :
    (dek.sealChunk A piece).length = piece.length + chunkOverheadBytes := by
  simp only [Dek.sealChunk, Aead.sealDeterministic, List.length_append,
    hA.length_encrypt, Bytes.length_eq, chunkOverheadBytes, nonceLen, tagLen]
  omega

theorem Bytes.ofTake_append {n : ℕ} (b : Bytes n) (rest : List UInt8)
    (h : n ≤ (b.toList ++ rest).length) :
    Bytes.ofTake n (b.toList ++ rest) h = b := by
  obtain ⟨bytes, hlen⟩ := b
  subst hlen
  simp only [Bytes.ofTake, List.take_left]

/-- A blob opens to what its body decrypts to under the nonce in front. -/
theorem Aead.openDeterministic_append (key : Bytes 32) (nonce : Bytes 24)
    (body : List UInt8) :
    A.openDeterministic key (nonce.toList ++ body) =
      match A.decrypt key nonce body with
      | some plaintext => .ok plaintext
      | none => .error .decryptionFailed := by
  have hlen : 24 ≤ (nonce.toList ++ body).length := by
    rw [List.length_append, nonce.length_eq]
    omega
  have hbody : (nonce.toList ++ body).drop 24 = body := by
    have hdrop : (nonce.toList ++ body).drop nonce.toList.length = body :=
      List.drop_left
    rwa [nonce.length_eq] at hdrop
  cases hplain : A.decrypt key nonce body with
  | none =>
    simp only [Aead.openDeterministic, hlen, ↓reduceDIte,
      Bytes.ofTake_append, hbody, hplain]
  | some plaintext =>
    simp only [Aead.openDeterministic, hlen, ↓reduceDIte,
      Bytes.ofTake_append, hbody, hplain]

theorem Aead.Lawful.openDeterministic_seal (hA : A.Lawful) (key : Bytes 32)
    (context plaintext : List UInt8) :
    A.openDeterministic key (A.sealDeterministic key context plaintext) =
      .ok plaintext := by
  unfold Aead.sealDeterministic
  simp only [Aead.openDeterministic_append, hA.decrypt_encrypt]

theorem Aead.Lawful.open_seal (hA : A.Lawful) (dek : Dek)
    (piece : List UInt8) :
    dek.openChunk A (dek.sealChunk A piece) = .ok piece :=
  hA.openDeterministic_seal dek.bytes _ piece

/-- The pieces of consecutive chunks, put back together. -/
theorem FastCdc.Tiles.flatten (region : List UInt8) :
    ∀ {chunks : List CdcChunk} {start stop : ℕ}, Tiles start stop chunks →
      stop ≤ region.length →
      (chunks.map fun chunk =>
        (region.drop chunk.offset).take chunk.length).flatten =
        (region.drop start).take (stop - start) ∧ start ≤ stop := by
  intro chunks
  induction chunks with
  | nil =>
      intro start stop htiles hstop
      have hsame : start = stop := htiles
      rw [hsame, Nat.sub_self, List.take_zero]
      exact ⟨rfl, le_rfl⟩
  | cons chunk chunks ih =>
      intro start stop htiles hstop
      obtain ⟨hoffset, hlen, hrest⟩ := htiles
      obtain ⟨hflatten, hle⟩ := ih hrest hstop
      refine ⟨?_, by omega⟩
      rw [List.map_cons, List.flatten_cons, hflatten, hoffset, ← List.drop_drop]
      have hsplit : stop - start = chunk.length + (stop - (start + chunk.length)) := by
        omega
      rw [hsplit, List.take_add]

variable {cdc : FastCdc}

theorem FastCdc.Tiling.flatten_split (h : cdc.Tiling) (plaintext : List UInt8)
    (spec : ChunkSpec) :
    (Chunk.split cdc plaintext spec).flatten = plaintext := by
  unfold Chunk.split
  split
  · next hnil => rw [List.isEmpty_iff.1 hnil]; rfl
  · split
    · simp
    · have hflatten := (FastCdc.Tiles.flatten plaintext (h spec plaintext)
        le_rfl).1
      rw [Nat.sub_zero, List.drop_zero, List.take_length] at hflatten
      exact hflatten

/-- The stored blobs of an object, by their identifiers. -/
def EncodedObject.blobs (o : EncodedObject) : BTreeMap Cid (List UInt8) :=
  o.chunks.foldl (fun m chunk => m.insert chunk.1 chunk.2) ∅

/-- The loop of `decode` over pieces whose sealed chunks are all there. -/
theorem decodeChunks_sealed (hA : A.Lawful) {dek : Dek}
    {blobs : BTreeMap Cid (List UInt8)} (pieces : List (List UInt8))
    (hblobs : ∀ piece ∈ pieces,
      blobs[(Object.sealPiece C A dek piece).1]? =
        some (Object.sealPiece C A dek piece).2) (read : List UInt8) :
    Object.decodeChunks C A blobs dek
      (pieces.map fun piece => (Object.sealPiece C A dek piece).1) read =
      .ok (read ++ pieces.flatten) := by
  induction pieces generalizing read with
  | nil => simp [Object.decodeChunks]
  | cons piece pieces ih =>
      have hverifies : (Object.sealPiece C A dek piece).1.verifies C
          (Object.sealPiece C A dek piece).2 = true := decide_eq_true rfl
      rw [List.map_cons, Object.decodeChunks, hblobs piece List.mem_cons_self]
      simp only [hverifies, Bool.not_true, Bool.false_eq_true, if_false]
      rw [show (Object.sealPiece C A dek piece).2 = dek.sealChunk A piece from rfl,
        hA.open_seal]
      simp only
      rw [ih (fun p hp => hblobs p (List.mem_cons_of_mem _ hp)),
        List.flatten_cons, List.append_assoc]

/-- What the blobs of an object hold when no two of its chunks collide. -/
theorem foldl_insert_blobs {chunks : List (Cid × List UInt8)}
    (hfree : ∀ a ∈ chunks, ∀ b ∈ chunks, a.1 = b.1 → a.2 = b.2)
    (m : BTreeMap Cid (List UInt8)) {chunk : Cid × List UInt8}
    (hchunk : chunk ∈ chunks) :
    (chunks.foldl (fun m chunk => m.insert chunk.1 chunk.2) m)[chunk.1]? =
      some chunk.2 := by
  induction chunks using List.reverseRecOn with
  | nil => cases hchunk
  | append_singleton chunks last ih =>
      rw [List.foldl_append, List.foldl_cons, List.foldl_nil,
        BTreeMap.getElem?_insert_ite]
      split
      · next hsame =>
          rw [hfree last (by simp) chunk hchunk hsame]
      · next hne =>
          rcases List.mem_append.1 hchunk with hmem | hmem
          · refine ih (fun a ha b hb => ?_) hmem
            exact hfree a (by simp [ha]) b (by simp [hb])
          · rw [List.mem_singleton.1 hmem] at hne
            exact absurd rfl hne

theorem total_foldl_insert_le (chunks : List (Cid × List UInt8))
    (m : BTreeMap Cid (List UInt8)) :
    BTreeMap.total List.length
      (chunks.foldl (fun m chunk => m.insert chunk.1 chunk.2) m) ≤
      BTreeMap.total List.length m +
        (chunks.map fun chunk => chunk.2.length).sum := by
  induction chunks generalizing m with
  | nil => simp
  | cons chunk chunks ih =>
      have hinsert : BTreeMap.total List.length (m.insert chunk.1 chunk.2) ≤
          BTreeMap.total List.length m + chunk.2.length := by
        cases hold : m[chunk.1]? with
        | none =>
            rw [BTreeMap.total_insert_new hold]
            omega
        | some bytes =>
            have htotal := BTreeMap.total_insert_of_getElem? (f := List.length)
              hold chunk.2
            omega
      have hrest := ih (m.insert chunk.1 chunk.2)
      rw [List.foldl_cons, List.map_cons, List.sum_cons]
      omega

/-- The chunks of an object take the plaintext and the overhead of each. -/
theorem storedLen_encode (hA : A.Lawful) (hcdc : cdc.Tiling)
    (plaintext : List UInt8) (dek : Dek) (spec : ChunkSpec) :
    (Object.encode C A cdc plaintext dek spec).storedLen =
      (Object.encode C A cdc plaintext dek spec).manifest.chunks.length *
        chunkOverheadBytes + plaintext.length := by
  have hsum : ∀ pieces : List (List UInt8),
      ((pieces.map (Object.sealPiece C A dek)).map fun chunk =>
        chunk.2.length).sum =
        pieces.length * chunkOverheadBytes + pieces.flatten.length := by
    intro pieces
    induction pieces with
    | nil => simp
    | cons piece pieces ih =>
        rw [List.map_cons, List.map_cons, List.sum_cons, ih, List.length_cons,
          List.flatten_cons, List.length_append, Nat.succ_mul,
          show (Object.sealPiece C A dek piece).2 = dek.sealChunk A piece from rfl,
          hA.length_seal]
        omega
  unfold EncodedObject.storedLen Object.encode
  simp only [List.length_map]
  rw [hsum, hcdc.flatten_split]

end ReadBack

end Intranet
