import Intranet.Proofs.Finality
import Intranet.Proofs.PointerSync
import Intranet.Proofs.RoundTrip
import Intranet.Proofs.Sync
import Intranet.Ref.Serve

/-!
# Whether a peer can read what a node serves

Three bounds meet here and none knows of the others. The builders count the
items of a response, the decoders bound some of the items, and the frame is
cut at `maxMessageBytes`. A response arrives when all three agree about it.

For each of the three answers the agreement is worked out on the stores alone.
A fetch of pointers may name one of them `maxPointersPerResponse` times, so a
record has to be small enough to be sent that often. A fetch of log entries is
answered with a stretch of the tree that has no gap in it, and every such
stretch can be asked for. A collection is answered with its first entries.
`served_readable_iff` puts them together over whole runs: every response
arrives exactly while the stores stay within these sizes.
-/

namespace Intranet

open Reader Wire

/-- The peer reads all of what was sent, and reads it as what it was. -/
def Arrives {α ε : Type} (encode : α → List UInt8)
    (decode : List UInt8 → Except ε α) (r : α) : Prop :=
  (encode r).length ≤ maxMessageBytes ∧ decode (encode r) = .ok r

/-! ## Sizes -/

/-- The bytes a sequence of byte strings takes after its count. -/
def framedLength (items : List (List UInt8)) : ℕ :=
  (items.map fun b => 8 + b.length).sum

theorem length_seq_bytes (items : List (List UInt8)) :
    (Enc.seq items Enc.bytes).length = 8 + framedLength items := by
  have hitems : (items.flatMap Enc.bytes).length = framedLength items := by
    rw [List.length_flatMap, framedLength]
    simp only [Enc.bytes, Enc.u64, List.length_append, Enc.length_bigEndian]
  rw [Enc.seq, List.length_append, hitems, Enc.u64, Enc.length_bigEndian]

theorem framedLength_perm {items items' : List (List UInt8)}
    (h : items.Perm items') : framedLength items = framedLength items' :=
  (h.map _).sum_eq

/-- What a message of `maxMessageBytes` is far below. -/
theorem lt_of_fits {n : ℕ} (h : n ≤ maxMessageBytes) : n < 2 ^ 64 :=
  lt_of_le_of_lt h (by decide)

/-! ## Collections -/

namespace CollectionResponse

theorem get_reads (r : CollectionResponse) : Reads get r.put r := by
  cases r with
  | entries payloads truncated =>
      simp only [put, List.append_assoc]
      refine Dec.variant_reads (Reads.bind (Dec.seq_reads Enc.bytes_ne_nil
        fun b _ => Dec.bytes_reads b) ?_)
      exact Reads.map (Dec.bool_reads truncated)
  | refused reason =>
      refine Dec.variant_reads (Reads.map ?_)
      cases reason <;> exact Dec.variant_pure_reads rfl

/-- A collection response is read back whatever it carries. -/
theorem arrives_iff (r : CollectionResponse) :
    Arrives encode decode r ↔ r.encode.length ≤ maxMessageBytes := by
  constructor
  · exact And.left
  · intro hfits
    exact ⟨hfits, Dec.framed_reads (get_reads r) (Reads.pure r)
      (lt_of_fits hfits)⟩

theorem length_encode_entries (payloads : List (List UInt8))
    (truncated : Bool) :
    (entries payloads truncated).encode.length =
      54 + framedLength payloads := by
  have hdomain : (Enc.domain wireDomain).length = 44 := by decide +kernel
  simp only [encode, put, List.length_append, hdomain, length_seq_bytes,
    Enc.variant, Enc.u8, Enc.bool, List.length_singleton]
  omega

theorem refused_arrives (reason : ChunkRefusal) :
    Arrives encode decode (refused reason) := by
  rw [arrives_iff]
  cases reason <;> decide +kernel

end CollectionResponse

/-! ## Pointer responses -/

namespace PointerResponse

variable {C : Crypto} {validKey : Bytes 32 → Bool}

theorem arrives_iff (r : PointerResponse) :
    Arrives encode (decode C validKey) r ↔
      r.Readable C validKey ∧ r.encode.length ≤ maxMessageBytes := by
  have hwhole : r.encode.length ≤ maxMessageBytes →
      r.transfer C validKey = decode C validKey r.encode := by
    intro hfits
    rw [transfer, List.take_of_length_le hfits]
  constructor
  · intro h
    obtain ⟨hfits, hread⟩ := h
    rw [← hwhole hfits, transfer_eq_ok_iff (lt_of_fits hfits)] at hread
    exact hread.2
  · intro h
    obtain ⟨hreadable, hfits⟩ := h
    refine ⟨hfits, ?_⟩
    rw [← hwhole hfits]
    exact (transfer_eq_ok_iff (lt_of_fits hfits)).2 ⟨rfl, hreadable, hfits⟩

theorem length_encode_records (sent : List PointerRecord) (truncated : Bool) :
    (records sent truncated).encode.length =
      51 + (sent.map fun r => (putRecord r).length).sum := by
  have hdomain : (Enc.domain wireDomain).length = 41 := by decide +kernel
  simp only [encode, put, List.length_append, hdomain, Enc.variant, Enc.u8,
    Enc.bool, Enc.seq, Enc.u64, Enc.length_bigEndian, List.length_flatMap,
    List.length_singleton]
  omega

end PointerResponse

/-! ## Stretches of the log -/

namespace GovernanceLog

variable {C : Crypto} {log : GovernanceLog} {hashes wanted held : List Hash}

/-- Stored entries, few enough for one response and without a gap: what lies
between two of them is one of them. -/
structure Stretch (log : GovernanceLog) (hashes : List Hash) : Prop where
  nodup : hashes.Nodup
  stored : ∀ h ∈ hashes, h ∈ log.entries
  between : ∀ {x y z}, x ∈ hashes → z ∈ hashes →
    Walk.Above log.parentOf x y → Walk.Above log.parentOf y z → y ∈ hashes
  count : hashes.length ≤ maxEntriesPerResponse

theorem Wf.mem_orderedHashes_iff (hwf : Wf C log) {x : Hash} :
    x ∈ log.orderedHashes wanted held ↔
      (∃ w ∈ wanted, w ∈ log.entries ∧ Walk.Above log.parentOf x w) ∧
        ∀ a ∈ held, ¬ Walk.Above log.parentOf x a := by
  simp only [mem_orderedHashes, mem_neededFor, mem_excludedBy, hwf.mem_ancestry]
  constructor
  · intro h
    obtain ⟨w, hw, hin, hup, hout⟩ := h
    exact ⟨⟨w, hw, hin, hup⟩, fun a ha hupa => hout ⟨a, ha, hupa⟩⟩
  · intro h
    obtain ⟨⟨w, hw, hin, hup⟩, hout⟩ := h
    refine ⟨w, hw, hin, hup, fun hex => ?_⟩
    obtain ⟨a, ha, hupa⟩ := hex
    exact hout a ha hupa

theorem orderedHashes_nodup (log : GovernanceLog) (wanted held : List Hash) :
    (log.orderedHashes wanted held).Nodup :=
  (log.orderedHashes_pairwise wanted held).imp fun hlt heq =>
    hlt.ne (congrArg log.depthKey heq)

/-- A response starts with what lies highest, so the cut leaves out nothing
above what it keeps. -/
theorem Wf.mem_take_of_above (hwf : Wf C log) {max : ℕ} {y z : Hash}
    (hz : z ∈ (log.orderedHashes wanted held).take max)
    (hy : y ∈ log.orderedHashes wanted held)
    (hup : Walk.Above log.parentOf y z) :
    y ∈ (log.orderedHashes wanted held).take max := by
  have hsorted := log.orderedHashes_pairwise wanted held
  rw [← List.take_append_drop max (log.orderedHashes wanted held)] at hy hsorted
  rcases List.mem_append.1 hy with hkept | hcut
  · exact hkept
  · have hlt := (List.pairwise_append.1 hsorted).2.2 z hz y hcut
    exact absurd (hwf.depthKey_le_of_above hup) (not_le.2 hlt)

/-- What a fetch is answered with is a stretch. -/
theorem Wf.stretch_take (hwf : Wf C log) (wanted held : List Hash) :
    log.Stretch ((log.orderedHashes wanted held).take
      maxEntriesPerResponse) where
  nodup := (orderedHashes_nodup log wanted held).sublist (List.take_sublist _ _)
  stored h hh := by
    obtain ⟨⟨w, -, hin, hup⟩, -⟩ :=
      hwf.mem_orderedHashes_iff.1 (List.mem_of_mem_take hh)
    exact hwf.mem_of_above hup hin
  between {x y z} hx hz hxy hyz := by
    obtain ⟨-, hout⟩ := hwf.mem_orderedHashes_iff.1 (List.mem_of_mem_take hx)
    obtain ⟨⟨w, hw, hin, hup⟩, -⟩ :=
      hwf.mem_orderedHashes_iff.1 (List.mem_of_mem_take hz)
    refine hwf.mem_take_of_above hz ?_ hyz
    exact hwf.mem_orderedHashes_iff.2
      ⟨⟨w, hw, hin, hyz.trans hup⟩, fun a ha hya => hout a ha (hxy.trans hya)⟩
  count := List.length_take_le _ _

/-- The parents of a stretch that are not in it. -/
def outerParents (log : GovernanceLog) (hashes : List Hash) : List Hash :=
  (hashes.filterMap log.parentOf).filter fun p => !hashes.contains p

theorem mem_outerParents {p : Hash} : p ∈ log.outerParents hashes ↔
    (∃ h ∈ hashes, log.parentOf h = some p) ∧ p ∉ hashes := by
  rw [outerParents, List.mem_filter, List.mem_filterMap]
  simp

/-- Walking up from a stretch one stays in it or passes an outer parent. -/
theorem mem_or_above_outer {x w : Hash} (hw : w ∈ hashes)
    (hup : Walk.Above log.parentOf x w) :
    x ∈ hashes ∨ ∃ p ∈ log.outerParents hashes, Walk.Above log.parentOf x p := by
  induction hup using Relation.ReflTransGen.head_induction_on with
  | refl => exact .inl hw
  | head hlink hrest ih =>
      next h p =>
      by_cases hp : p ∈ hashes
      · exact ih hp
      · exact .inr ⟨p, mem_outerParents.2 ⟨⟨h, hw, hlink⟩, hp⟩, hrest⟩

/-- Every stretch is the answer to some fetch. -/
theorem Stretch.asked_for (hwf : Wf C log) (h : log.Stretch hashes) :
    (log.orderedHashes hashes (log.outerParents hashes)).Perm hashes := by
  refine (List.perm_ext_iff_of_nodup (orderedHashes_nodup _ _ _) h.nodup).2
    fun x => ?_
  rw [hwf.mem_orderedHashes_iff]
  constructor
  · intro hx
    obtain ⟨⟨w, hw, -, hup⟩, hout⟩ := hx
    rcases mem_or_above_outer hw hup with hin | ⟨p, hp, hup⟩
    · exact hin
    · exact absurd hup (hout p hp)
  · intro hx
    refine ⟨⟨x, hx, h.stored x hx, .refl x⟩, fun a ha hup => ?_⟩
    obtain ⟨⟨z, hz, hlink⟩, hnot⟩ := mem_outerParents.1 ha
    exact hnot (h.between hx hz hup (Walk.above_iff.2 (.inr ⟨a, hlink, .refl a⟩)))

/-- The entries at the given hashes. -/
def entriesAt (log : GovernanceLog) (hashes : List Hash) : List LogEntry :=
  hashes.filterMap fun h => log.entries[h]?

theorem mem_entriesAt {e : LogEntry} : e ∈ log.entriesAt hashes ↔
    ∃ h ∈ hashes, log.entries[h]? = some e :=
  List.mem_filterMap

theorem entriesAt_perm (log : GovernanceLog) {hashes' : List Hash}
    (h : hashes.Perm hashes') :
    (log.entriesAt hashes).Perm (log.entriesAt hashes') :=
  h.filterMap _

/-- One entry is a stretch. -/
theorem Wf.stretch_singleton (hwf : Wf C log) {h : Hash}
    (hin : h ∈ log.entries) : log.Stretch [h] where
  nodup := List.nodup_singleton h
  stored x hx := by
    rw [List.mem_singleton.1 hx]
    exact hin
  between {x y z} hx hz hxy hyz := by
    rw [List.mem_singleton] at hx hz ⊢
    subst hx hz
    obtain ⟨rank, hfall, -⟩ := hwf.ranked
    exact Walk.Above.antisymm hfall hyz hxy
  count := by
    rw [List.length_singleton]
    decide

end GovernanceLog

namespace SyncResponse

theorem length_encode_entries (sent : List LogEntry) (truncated : Bool) :
    (entries sent truncated).encode.length =
      48 + framedLength (sent.map encodeEntry) := by
  have hdomain : (Enc.domain wireDomain).length = 38 := by decide +kernel
  simp only [encode, List.length_append, hdomain, seq_bytes_encodeEntry,
    length_seq_bytes, Enc.variant, Enc.u8, Enc.bool, List.length_singleton]
  omega

/-- Signed entries arrive when each is within the decoder's bounds and all
together fit the frame. -/
theorem arrives_entries_iff {C : Crypto} {validKey : Bytes 32 → Bool}
    {sent : List LogEntry} {truncated : Bool}
    (hsigned : ∀ e ∈ sent, e.verifySignature C = .ok ()) :
    Arrives encode (decode C validKey) (entries sent truncated) ↔
      (∀ e ∈ sent, e.InBounds validKey) ∧
        48 + framedLength (sent.map encodeEntry) ≤ maxMessageBytes := by
  rw [Arrives, length_encode_entries]
  constructor
  · intro h
    exact ⟨inBounds_of_decode h.2, h.1⟩
  · intro h
    refine ⟨h.2, decode_encode (fun e he => ⟨hsigned e he, h.1 e he⟩) ?_⟩
    rw [length_encode_entries]
    exact lt_of_fits h.2

end SyncResponse

/-! ## What the stores may hold -/

/-- A record the reader takes, and small enough to be sent
`maxPointersPerResponse` times at once. -/
structure PointerRecord.Fits (r : PointerRecord) : Prop where
  count : r.wrappings.length ≤ maxWrappingsPerPointer
  size : ∀ w ∈ r.wrappings, w.wrappedDek.length ≤ maxWrappedDekBytes
  repeated : 51 + maxPointersPerResponse *
    (PointerResponse.putRecord r).length ≤ maxMessageBytes

namespace MemberNode

variable {C : Crypto} {validKey : Bytes 32 → Bool} {node : MemberNode}
  {state : GovernanceState} {S : Set LogEntry}

/-- Every response the node can give arrives. -/
structure Serves (C : Crypto) (validKey : Bytes 32 → Bool)
    (node : MemberNode) : Prop where
  pointers : ∀ request, Arrives PointerResponse.encode
    (PointerResponse.decode C validKey) (node.servePointers C request)
  entries : ∀ wanted held, Arrives SyncResponse.encode
    (SyncResponse.decode C validKey) (node.answerFetch wanted held)
  collections : ∀ peer request, Arrives CollectionResponse.encode
    CollectionResponse.decode (node.answerCollection C peer request)

/-- The log replays to `state`, and there somebody may read. -/
def OpenUnder (C : Crypto) (node : MemberNode) (state : GovernanceState) :
    Prop :=
  node.governanceState C = some state ∧
    ∃ requester, PointerNode.mayServe requester state = true

/-- The stores are within what a peer can read: the records of listed
pointers, the first entries of every collection, every log entry, and every
stretch of the log. Pointers and collections count only while somebody may
read them. -/
structure Modest (C : Crypto) (validKey : Bytes 32 → Bool)
    (node : MemberNode) : Prop where
  records : ∀ state, node.OpenUnder C state → ∀ id r,
    node.recordFor id = some r → state.delisted.contains id = false → r.Fits
  entry : ∀ e, node.log.Stored e → e.InBounds validKey
  stretch : ∀ hashes, node.log.Stretch hashes →
    48 + framedLength ((node.log.entriesAt hashes).map encodeEntry) ≤
      maxMessageBytes
  payloads : ∀ state, node.OpenUnder C state → ∀ collectionId,
    54 + framedLength ((node.collectionEntries collectionId).take
      maxCollectionEntries) ≤ maxMessageBytes

/-! ### Log entries -/

theorem answerFetch_eq (node : MemberNode) (wanted held : List Hash) :
    node.answerFetch wanted held =
      .entries (node.log.entriesAt ((node.log.orderedHashes wanted held).take
          maxEntriesPerResponse))
        (decide (maxEntriesPerResponse <
          (node.log.orderedHashes wanted held).length)) := by
  rw [answerFetch, GovernanceLog.ancestorsFirst_eq]
  rfl

theorem fetches_arrive_iff (hwf : node.log.Wf C) :
    (∀ wanted held, Arrives SyncResponse.encode
      (SyncResponse.decode C validKey) (node.answerFetch wanted held)) ↔
    (∀ e, node.log.Stored e → e.InBounds validKey) ∧
      ∀ hashes, node.log.Stretch hashes →
        48 + framedLength ((node.log.entriesAt hashes).map encodeEntry) ≤
          maxMessageBytes := by
  have harrives : ∀ hashes truncated, Arrives SyncResponse.encode
      (SyncResponse.decode C validKey)
        (.entries (node.log.entriesAt hashes) truncated) ↔ _ :=
    fun hashes truncated => SyncResponse.arrives_entries_iff fun e he => by
      obtain ⟨h, -, hh⟩ := GovernanceLog.mem_entriesAt.1 he
      exact hwf.signed h e hh
  constructor
  · intro h
    have hstretch : ∀ hashes, node.log.Stretch hashes →
        (∀ e ∈ node.log.entriesAt hashes, e.InBounds validKey) ∧
          48 + framedLength ((node.log.entriesAt hashes).map encodeEntry) ≤
            maxMessageBytes := by
      intro hashes hs
      have hperm := hs.asked_for hwf
      have hsent := h hashes (node.log.outerParents hashes)
      rw [answerFetch_eq, List.take_of_length_le (hperm.length_eq.trans_le
        hs.count), harrives] at hsent
      have hsame := node.log.entriesAt_perm hperm
      rw [framedLength_perm (hsame.map encodeEntry)] at hsent
      exact ⟨fun e he => hsent.1 e (hsame.mem_iff.2 he), hsent.2⟩
    refine ⟨fun e he => ?_, fun hashes hs => (hstretch hashes hs).2⟩
    obtain ⟨hash, hh⟩ := he
    refine (hstretch [hash] (hwf.stretch_singleton
      ((BTreeMap.mem_iff_exists _ _).2 ⟨e, hh⟩))).1 e ?_
    exact GovernanceLog.mem_entriesAt.2 ⟨hash, List.mem_singleton_self hash, hh⟩
  · intro h wanted held
    rw [answerFetch_eq, harrives]
    refine ⟨fun e he => ?_, h.2 _ (hwf.stretch_take wanted held)⟩
    obtain ⟨hash, -, hh⟩ := GovernanceLog.mem_entriesAt.1 he
    exact h.1 e ⟨hash, hh⟩

/-! ### Collections -/

theorem collections_arrive_iff :
    (∀ peer request, Arrives CollectionResponse.encode
      CollectionResponse.decode (node.answerCollection C peer request)) ↔
    ∀ state, node.OpenUnder C state → ∀ collectionId,
      54 + framedLength ((node.collectionEntries collectionId).take
        maxCollectionEntries) ≤ maxMessageBytes := by
  constructor
  · intro h state hopen collectionId
    obtain ⟨hstate, requester, hread⟩ := hopen
    have hsent := h requester ⟨collectionId, requester, ⟨Bytes.replicate 64 0⟩⟩
    rw [answerCollection, if_neg (not_not.2 rfl), serveCollection, hstate] at hsent
    simp only [hread, Bool.not_true, Bool.false_eq_true, if_false] at hsent
    rwa [CollectionResponse.arrives_iff,
      CollectionResponse.length_encode_entries] at hsent
  · intro h peer request
    rw [answerCollection, serveCollection]
    split
    · exact CollectionResponse.refused_arrives _
    · split
      · exact CollectionResponse.refused_arrives _
      · next state hstate =>
          split
          · exact CollectionResponse.refused_arrives _
          · next hread =>
              rw [CollectionResponse.arrives_iff,
                CollectionResponse.length_encode_entries]
              exact h state ⟨hstate, request.requester, by simpa using hread⟩ _

/-! ### Pointers -/

/-- A record the node holds fails to be read only by its size. -/
theorem readable_record (hwf : node.Wf C validKey) {id : PointerId}
    {r : PointerRecord} (hr : node.recordFor id = some r)
    (hcount : r.wrappings.length ≤ maxWrappingsPerPointer)
    (hsize : ∀ w ∈ r.wrappings, w.wrappedDek.length ≤ maxWrappedDekBytes) :
    r.Readable C validKey := by
  obtain ⟨p, hp, rfl⟩ := Option.map_eq_some_iff.1 hr
  refine ⟨(hwf.pointer hp).2, fun w hw => ?_, hcount⟩
  obtain ⟨rotation, hheld⟩ := mem_wrappingsFor.1 hw
  obtain ⟨-, -, hsigned, hkey⟩ := hwf.wrapping hheld
  exact ⟨hsigned, hkey, hsize w hw⟩

/-- Listed records that fit arrive, in any choice the cut leaves. -/
theorem records_arrive (hwf : node.Wf C validKey)
    {sent : List PointerRecord} {truncated : Bool}
    (hlen : sent.length ≤ maxPointersPerResponse)
    (hsent : ∀ r ∈ sent, ∃ id, node.recordFor id = some r ∧ r.Fits) :
    Arrives PointerResponse.encode (PointerResponse.decode C validKey)
      (.records sent truncated) := by
  rw [PointerResponse.arrives_iff, PointerResponse.length_encode_records]
  refine ⟨⟨hlen, fun r hr => ?_⟩, ?_⟩
  · obtain ⟨id, hid, hfits⟩ := hsent r hr
    exact readable_record hwf hid hfits.count hfits.size
  · have hroom : ∀ n ∈ sent.map fun r => (PointerResponse.putRecord r).length,
        n ≤ (maxMessageBytes - 51) / maxPointersPerResponse := by
      intro n hn
      obtain ⟨r, hr, rfl⟩ := List.mem_map.1 hn
      obtain ⟨id, -, hfits⟩ := hsent r hr
      have := hfits.repeated
      rw [Nat.le_div_iff_mul_le (by decide), Nat.mul_comm]
      omega
    have hsum := List.sum_le_card_nsmul _ _ hroom
    rw [List.length_map, smul_eq_mul] at hsum
    have hmul := Nat.mul_le_mul_right
      ((maxMessageBytes - 51) / maxPointersPerResponse) hlen
    have hcap := Nat.mul_div_le (maxMessageBytes - 51) maxPointersPerResponse
    have hframe : 51 ≤ maxMessageBytes := by decide
    omega

/-- A pointer named over and over is sent as often as the cut allows. -/
theorem servePointers_repeated (hopen : node.governanceState C = some state)
    {requester : PerNetworkIdentityId}
    (hread : PointerNode.mayServe requester state = true) {id : PointerId}
    {r : PointerRecord} (hr : node.recordFor id = some r)
    (hlisted : state.delisted.contains id = false) (signature : Signature) :
    node.servePointers C (.fetch (List.replicate maxPointersPerResponse id)
        requester signature) =
      .records (List.replicate maxPointersPerResponse r) false := by
  rw [PointerNode.servePointers, hopen]
  simp only [PointerRequest.requester, hread, Bool.not_true, Bool.false_eq_true,
    if_false]
  rw [List.filter_eq_self.2 fun x hx => by
      rw [List.eq_of_mem_replicate hx, hlisted]
      rfl,
    List.filterMap_replicate_of_some hr, List.take_of_length_le (by simp),
    List.length_replicate, decide_eq_false (lt_irrefl _)]

theorem pointers_arrive_iff (hwf : node.Wf C validKey) :
    (∀ request, Arrives PointerResponse.encode
      (PointerResponse.decode C validKey) (node.servePointers C request)) ↔
    ∀ state, node.OpenUnder C state → ∀ id r, node.recordFor id = some r →
      state.delisted.contains id = false → r.Fits := by
  constructor
  · intro h state hopen id r hr hlisted
    obtain ⟨hstate, requester, hread⟩ := hopen
    have hsent := h (.fetch (List.replicate maxPointersPerResponse id) requester
      ⟨Bytes.replicate 64 0⟩)
    rw [servePointers_repeated hstate hread hr hlisted,
      PointerResponse.arrives_iff, PointerResponse.length_encode_records,
      List.map_replicate, List.sum_replicate, smul_eq_mul] at hsent
    have hone := hsent.1.2 r (List.mem_replicate.2 ⟨by decide, rfl⟩)
    exact ⟨hone.count, fun w hw => (hone.wrappings w hw).size, hsent.2⟩
  · intro h request
    have hrefused : ∀ reason, Arrives PointerResponse.encode
        (PointerResponse.decode C validKey) (.refused reason) := by
      intro reason
      rw [PointerResponse.arrives_iff]
      refine ⟨trivial, ?_⟩
      cases reason <;> decide +kernel
    rw [PointerNode.servePointers]
    split
    · exact hrefused _
    · next state hstate =>
        split
        · exact hrefused _
        · next hread =>
            have hopen : node.OpenUnder C state :=
              ⟨hstate, request.requester, by simpa using hread⟩
            split
            · rw [PointerResponse.arrives_iff,
                PointerResponse.length_encode_digest]
              have hcut := List.length_take_le maxPointersPerResponse
                ((((node.pointers.toList.map Prod.snd).filter fun p =>
                  !state.delisted.contains p.pointerId)).map
                    (PointerNode.digestEntry C))
              refine ⟨hcut, ?_⟩
              have hroom : 51 + 72 * maxPointersPerResponse ≤ maxMessageBytes := by
                decide
              omega
            · refine records_arrive hwf (List.length_take_le _ _) fun r hr => ?_
              obtain ⟨id, hid, hheld⟩ :=
                List.mem_filterMap.1 (List.mem_of_mem_take hr)
              have hlisted := (List.mem_filter.1 hid).2
              exact ⟨id, hheld, h state hopen id r hheld (by simpa using hlisted)⟩

/-! ## Whole runs -/

/-- What a node takes in. -/
inductive Call where
  | acceptPointer (p : MutablePointer)
  | acceptWrapping (w : DekWrapping)
  | log (call : GovernanceLog.Call)
  | publish (collectionId entryId : Hash) (payload : List UInt8)

/-- The keys in a call are keys of the curve, as those of a `VerifyingKey`
are. -/
def Call.Keyed (validKey : Bytes 32 → Bool) : Call → Prop
  | .acceptPointer p => validKey p.ownerIdentity.key.bytes = true
  | .acceptWrapping w => validKey w.wrapperIdentity.key.bytes = true
  | _ => True

/-- The node after a call. -/
def handle (C : Crypto) (node : MemberNode) : Call → MemberNode
  | .acceptPointer p =>
      { node with toPointerNode := (node.acceptPointer C p).2 }
  | .acceptWrapping w =>
      { node with toPointerNode := (node.acceptWrapping C w).2 }
  | .log call => { node with log := node.log.call C call }
  | .publish collectionId entryId payload =>
      node.publishToCollection collectionId entryId payload

/-- A node after a sequence of calls. -/
def afterCalls (C : Crypto) (calls : List Call) : MemberNode :=
  calls.foldl (handle C) new

theorem afterCalls_snoc (calls : List Call) (c : Call) :
    afterCalls C (calls ++ [c]) = (afterCalls C calls).handle C c := by
  rw [afterCalls, List.foldl_append]
  rfl

/-- Everything stored was signed when it came in and sits under its own id,
and the log is a tree of entries from `S`. -/
structure Sound (C : Crypto) (validKey : Bytes 32 → Bool) (S : Set LogEntry)
    (node : MemberNode) : Prop where
  content : node.Wf C validKey
  log : node.log.Within C S

theorem sound_new : Sound C validKey S new :=
  ⟨(PointerNode.Reachable.new _).wf, GovernanceLog.within_new⟩

theorem Sound.handle (h : Sound C validKey S node) (hfree : CollisionFree C S)
    {c : Call} (hkeys : c.Keyed validKey)
    (hc : ∀ e, c = .log (.insert e) → e ∈ S) :
    Sound C validKey S (node.handle C c) := by
  cases c with
  | acceptPointer p =>
      refine ⟨h.content.acceptPointer hkeys, ?_⟩
      rw [MemberNode.handle]
      exact log_acceptPointer.symm ▸ h.log
  | acceptWrapping w =>
      refine ⟨h.content.acceptWrapping hkeys, ?_⟩
      rw [MemberNode.handle]
      exact log_acceptWrapping.symm ▸ h.log
  | log call =>
      refine ⟨⟨h.content.pointer, h.content.wrapping⟩, ?_⟩
      exact (h.log.call hfree fun e he => hc e (congrArg Call.log he)).1
  | publish collectionId entryId payload => exact ⟨h.content, h.log⟩

theorem sound_afterCalls (hfree : CollisionFree C S) {calls : List Call}
    (hkeys : ∀ c ∈ calls, c.Keyed validKey)
    (hcalls : ∀ e, .log (.insert e) ∈ calls → e ∈ S) :
    Sound C validKey S (afterCalls C calls) := by
  induction calls using List.reverseRecOn with
  | nil => exact sound_new
  | append_singleton calls c ih =>
      rw [afterCalls_snoc]
      have hbefore := ih
        (fun d hd => hkeys d (List.mem_append_left _ hd))
        (fun e he => hcalls e (List.mem_append_left _ he))
      refine hbefore.handle hfree (hkeys c (by simp)) fun e he => hcalls e ?_
      rw [he]
      simp

/-- What the stores of a sound node may hold is exactly what they may serve. -/
theorem Sound.serves_iff (h : Sound C validKey S node) :
    node.Serves C validKey ↔ node.Modest C validKey := by
  constructor
  · intro hserves
    obtain ⟨hentry, hstretch⟩ :=
      (fetches_arrive_iff h.log.wf).1 hserves.entries
    exact ⟨(pointers_arrive_iff h.content).1 hserves.pointers, hentry, hstretch,
      collections_arrive_iff.1 hserves.collections⟩
  · intro hmodest
    exact ⟨(pointers_arrive_iff h.content).2 hmodest.records,
      (fetches_arrive_iff h.log.wf).2 ⟨hmodest.entry, hmodest.stretch⟩,
      collections_arrive_iff.2 hmodest.payloads⟩

/-- In every state of a run, whatever the node serves arrives, if and only if
in every state of the run its stores are within what a peer can read. -/
theorem served_readable_iff {calls : List Call}
    (hfree : CollisionFree C {e | Call.log (.insert e) ∈ calls})
    (hkeys : ∀ c ∈ calls, c.Keyed validKey) :
    (∀ pre, pre <+: calls → (afterCalls C pre).Serves C validKey) ↔
      ∀ pre, pre <+: calls → (afterCalls C pre).Modest C validKey := by
  have hsound : ∀ pre, pre <+: calls → Sound C validKey
      {e | Call.log (.insert e) ∈ calls} (afterCalls C pre) := by
    intro pre hpre
    exact sound_afterCalls hfree (fun c hc => hkeys c (hpre.subset hc))
      fun e he => hpre.subset he
  constructor
  · intro h pre hpre
    exact (hsound pre hpre).serves_iff.1 (h pre hpre)
  · intro h pre hpre
    exact (hsound pre hpre).serves_iff.2 (h pre hpre)

/-! ### A founding entry, and a key rewrapped too often -/

/-- The founding entry of `Sample.textLog`. -/
def founding : LogEntry :=
  Sample.genesis 0 NetworkPolicy.conservativeDefault
    [.publish ⟨"text"⟩, .readContent]

/-- The network is founded and one entry published. -/
def firstCalls : List Call :=
  [.log (.insert founding), .publish (Sample.hash 1) (Sample.hash 2) [1, 2, 3]]

/-- Identity 2 joins, identity 1 publishes a pointer, and identity 2 wraps its
key once under each of `n` rotations. -/
def rewraps (n : ℕ) : List Call :=
  [.log (.insert founding),
    .log (.insert (Sample.entry 1 (some 0) 1 1 (Sample.admits 2))),
    .acceptPointer (Sample.pointer 9 1 0 3)] ++
  (List.range n).map fun k => .acceptWrapping
    { Sample.wrapping 9 2 with rotationRef := Sample.hash k }

/-- A founding entry alone is within every bound. -/
theorem modest_of_founding {node : MemberNode}
    (hlog : ∀ (h : Hash) e, node.log.entries[h]? = some e → e = founding)
    (hwf : node.log.Wf .sample) (hpointers : ∀ id, node.recordFor id = none)
    (hpayloads : ∀ collectionId, 54 + framedLength
      ((node.collectionEntries collectionId).take maxCollectionEntries) ≤
        maxMessageBytes) :
    node.Modest .sample fun _ => true where
  records _ _ id r hr := by
    rw [hpointers id] at hr
    cases hr
  entry e he := by
    obtain ⟨h, hh⟩ := he
    rw [hlog h e hh]
    exact ⟨rfl, fun key hkey => absurd hkey Std.ExtTreeMap.not_mem_empty,
      by decide, by decide⟩
  stretch hashes hs := by
    have hsub : hashes ⊆ [founding.hash .sample] := by
      intro h hh
      obtain ⟨e, he⟩ := (BTreeMap.mem_iff_exists _ _).1 (hs.stored h hh)
      rw [← hwf.keyed h e he, hlog h e he]
      exact List.mem_singleton_self _
    have hone := (hs.nodup.subperm hsub).length_le
    have hentries : ∀ e ∈ node.log.entriesAt hashes, e = founding := by
      intro e he
      obtain ⟨h, -, hh⟩ := GovernanceLog.mem_entriesAt.1 he
      exact hlog h e hh
    have hlen : (node.log.entriesAt hashes).length ≤ 1 :=
      (List.length_filterMap_le _ _).trans hone
    rw [List.eq_replicate_iff.2 ⟨rfl, hentries⟩]
    have hsize : (encodeEntry founding).length ≤ 1000 := by decide +kernel
    have hcap : 48 + (8 + 1000) ≤ maxMessageBytes := by decide
    rw [framedLength, List.map_replicate, List.map_replicate, List.sum_replicate,
      smul_eq_mul]
    nlinarith
  payloads _ _ := hpayloads

theorem prefix_firstCalls {pre : List Call} (h : pre <+: firstCalls) :
    pre = [] ∨ pre = [.log (.insert founding)] ∨ pre = firstCalls := by
  have hinits := (List.mem_inits _ _).2 h
  simpa [firstCalls] using hinits

theorem collectionEntries_firstCalls (collectionId : Hash) :
    (afterCalls .sample firstCalls).collectionEntries collectionId =
      if Sample.hash 1 = collectionId then [[1, 2, 3]] else [] := by
  have hcollections : (afterCalls .sample firstCalls).collections =
      (∅ : BTreeMap Hash (BTreeMap Hash (List UInt8))).insert (Sample.hash 1)
        ((∅ : BTreeMap Hash (List UInt8)).insert (Sample.hash 2) [1, 2, 3]) := by
    rfl
  rw [collectionEntries, hcollections, BTreeMap.getElem?_insert_ite]
  by_cases hid : Sample.hash 1 = collectionId
  · rw [if_pos hid, if_pos hid]
    rfl
  · rw [if_neg hid, if_neg hid]
    rfl

/-- The two calls keep the stores within every bound. -/
theorem served_readable_iff_first :
    CollisionFree .sample {e | Call.log (.insert e) ∈ firstCalls} ∧
      (∀ c ∈ firstCalls, c.Keyed fun _ => true) ∧
      (afterCalls .sample firstCalls).Serves .sample fun _ => true := by
  have honly : ∀ e, Call.log (.insert e) ∈ firstCalls → e = founding := by
    intro e he
    simpa [firstCalls] using he
  have hfree : CollisionFree .sample
      {e | Call.log (.insert e) ∈ firstCalls} := by
    intro a ha b hb _
    rw [honly a ha, honly b hb]
  have hkeys : ∀ c ∈ firstCalls, c.Keyed fun _ => true := by
    intro c _
    cases c <;> first | exact rfl | exact trivial
  refine ⟨hfree, hkeys, ?_⟩
  refine (served_readable_iff hfree hkeys).2 (fun pre hpre => ?_) firstCalls
    List.prefix_rfl
  have hsound := sound_afterCalls hfree
    (fun c hc => hkeys c (hpre.subset hc)) fun e he => hpre.subset he
  refine modest_of_founding (fun h e he => honly e (hsound.log.mem e ⟨h, he⟩))
    hsound.log.wf ?_ ?_
  · intro id
    rcases prefix_firstCalls hpre with rfl | rfl | rfl
    · rfl
    · rfl
    · rfl
  · intro collectionId
    have hheld : (afterCalls .sample pre).collectionEntries collectionId ∈
        [[], [[1, 2, 3]]] := by
      rcases prefix_firstCalls hpre with rfl | rfl | rfl
      · exact List.mem_cons_self
      · exact List.mem_cons_self
      · rw [collectionEntries_firstCalls]
        split <;> simp
    have hsmall : ∀ payloads ∈ [[], [[1, 2, 3]]], 54 + framedLength
        (payloads.take maxCollectionEntries) ≤ maxMessageBytes := by
      decide
    exact hsmall _ hheld

/-- The pointer's record is fetched with seventeen wrappings, and the peer
takes sixteen. -/
theorem served_unreadable :
    CollisionFree .sample {e | Call.log (.insert e) ∈ rewraps 17} ∧
      (∀ c ∈ rewraps 17, c.Keyed fun _ => true) ∧
      ¬ Arrives PointerResponse.encode
        (PointerResponse.decode .sample fun _ => true)
        ((afterCalls .sample (rewraps 17)).servePointers .sample
          (.fetch [⟨Bytes.ofNat 32 9⟩] (Sample.identity 2)
            (Sample.signature 2 0))) := by
  have hsent : (match (afterCalls .sample (rewraps 17)).servePointers .sample
      (.fetch [⟨Bytes.ofNat 32 9⟩] (Sample.identity 2)
        (Sample.signature 2 0)) with
      | .records sent _ => sent.any fun r => decide (16 < r.wrappings.length)
      | _ => false) = true := by
    decide +kernel
  have hinserts : ∀ e, Call.log (.insert e) ∈ rewraps 17 →
      e ∈ [founding, Sample.entry 1 (some 0) 1 1 (Sample.admits 2)] := by
    intro e he
    simpa [rewraps] using he
  refine ⟨(collisionFree_of_nodup (by decide +kernel)).mono hinserts, ?_, ?_⟩
  · intro c hc
    cases c <;> first | exact rfl | exact trivial
  · rw [PointerResponse.arrives_iff]
    intro h
    split at hsent
    · next sent truncated heq =>
        rw [heq] at h
        obtain ⟨r, hr, hmany⟩ := List.any_eq_true.1 hsent
        exact absurd (h.1.2 r hr).count (not_le.2 (of_decide_eq_true hmany))
    · cases hsent

end MemberNode

end Intranet
