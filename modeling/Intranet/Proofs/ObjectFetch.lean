import Intranet.Proofs.ChunkReports
import Intranet.Proofs.FetchBudget

/-!
# An honest object arrives

What the manifest of an object declares is enough for its chunks, those a node
holds already and those it has to fetch together. So the budget a fetch of the
object runs under is never exceeded, whoever answers and whatever else is
fetched (`Covered`), and none of the chunks is given up on for its size. When
the fetch is over each of them is held or was not to be had from anybody; and
as the store holds only what chunks are named after, held chunks read back as
what was sealed.
-/

namespace Intranet

section Published

variable {C : Crypto} {A : Aead} {dek : Dek} {plaintext : List UInt8}
  {inPlay : Set (List UInt8)} {o : EncodedObject}

namespace Object

/-- Reading an object depends on the chunks it names alone. -/
theorem decodeChunks_congr {m m' : BTreeMap Cid (List UInt8)} (cids : List Cid)
    (h : ∀ cid ∈ cids, m[cid]? = m'[cid]?) (read : List UInt8) :
    decodeChunks C A m dek cids read = decodeChunks C A m' dek cids read := by
  induction cids generalizing read with
  | nil => rfl
  | cons cid rest ih =>
      have hrest := ih fun c hc => h c (List.mem_cons_of_mem cid hc)
      rw [decodeChunks, decodeChunks, h cid List.mem_cons_self]
      simp only [hrest]

theorem decode_congr {m m' : BTreeMap Cid (List UInt8)} {manifest : Manifest}
    (h : ∀ cid ∈ manifest.chunks, m[cid]? = m'[cid]?) :
    decode C A manifest m dek = decode C A manifest m' dek := by
  unfold decode
  rw [decodeChunks_congr manifest.chunks h]

end Object

/-- An object as its author makes it: it reads back, its chunks are told apart
from everything in play, and its manifest declares enough for them. -/
structure Published (C : Crypto) (A : Aead) (dek : Dek)
    (plaintext : List UInt8) (inPlay : Set (List UInt8)) (o : EncodedObject) :
    Prop where
  decodes : Object.decode C A o.manifest o.blobs dek = .ok plaintext
  blob_eq : ∀ cid ∈ o.manifest.chunks, ∀ blob ∈ inPlay,
    cid.verifies C blob = true → o.blobs[cid]? = some blob
  bound : BTreeMap.total List.length o.blobs ≤ o.manifest.ciphertextBound

theorem published_encode {cdc : FastCdc} {spec : ChunkSpec} (hA : A.Lawful)
    (hcdc : cdc.Tiling) (hfree : Set.InjOn C.hashBytes inPlay)
    (hchunks : ∀ chunk ∈ (Object.encode C A cdc plaintext dek spec).chunks,
      chunk.2 ∈ inPlay)
    (hcounted : (Object.encode C A cdc plaintext dek spec).storedLen <
      UInt64.size) :
    Published C A dek plaintext inPlay
      (Object.encode C A cdc plaintext dek spec) where
  decodes := decode_encode hA hcdc hfree hchunks
  blob_eq := by
    intro cid hcid blob hplay hverifies
    obtain ⟨chunk, hchunk, rfl⟩ := List.mem_map.1 hcid
    have hsame := of_decide_eq_true hverifies
    rw [cid_of_mem_encode hchunk] at hsame
    rw [hfree hplay (hchunks chunk hchunk) (congrArg Cid.hash hsame)]
    exact blobs_encode hfree hchunks hchunk
  bound := total_blobs_le_bound hA hcdc hcounted

/-- The length of a chunk of an object. -/
def EncodedObject.sizeOf (o : EncodedObject) (cid : Cid) : ℕ :=
  o.blobs[cid]?.elim 0 List.length

theorem Published.length_eq (h : Published C A dek plaintext inPlay o)
    {cid : Cid} (hcid : cid ∈ o.manifest.chunks) {blob : List UInt8}
    (hplay : blob ∈ inPlay) (hverifies : cid.verifies C blob = true) :
    blob.length = o.sizeOf cid := by
  rw [EncodedObject.sizeOf, h.blob_eq cid hcid blob hplay hverifies]
  rfl

end Published

namespace ChunkNode

variable {C : Crypto} {A : Aead} {dek : Dek} {plaintext : List UInt8}
  {inPlay : Set (List UInt8)} {o : EncodedObject} {validKey : Bytes 32 → Bool}
  {P : PeerIds} {node : ChunkNode} {manifest : Manifest} {a : Cid}

/-- A node that holds all chunks of an object can read it. -/
theorem Intact.reads_back {store : ChunkStore} (hstore : Intact C inPlay store)
    (ho : Published C A dek plaintext inPlay o)
    (hheld : ∀ a ∈ o.manifest.chunks, store.has a = true) :
    Object.decode C A o.manifest store.chunks dek = .ok plaintext := by
  refine Eq.trans (Object.decode_congr fun cid hcid => ?_) ho.decodes
  obtain ⟨blob, hblob⟩ := (BTreeMap.mem_iff_exists _ _).1
    (Std.ExtTreeMap.contains_iff_mem.1 (hheld cid hcid))
  obtain ⟨hplay, hverifies⟩ := hstore cid blob hblob
  rw [hblob, ho.blob_eq cid hcid blob hplay hverifies]

/-! ## What is lacking -/

/-- The chunks of an object, each once. -/
def distinct (manifest : Manifest) : BTreeSet Cid :=
  Std.ExtTreeSet.ofList manifest.chunks compare

/-- Those of them that have to be fetched. -/
def lacking (node : ChunkNode) (manifest : Manifest) : List Cid :=
  (distinct manifest).toList.filter fun cid => !node.chunks.has cid

theorem mem_distinct : a ∈ distinct manifest ↔ a ∈ manifest.chunks := by
  rw [distinct, Std.ExtTreeSet.mem_ofList, List.contains_eq_mem,
    decide_eq_true_eq]

theorem mem_lacking : a ∈ node.lacking manifest ↔
    a ∈ manifest.chunks ∧ node.chunks.has a = false := by
  rw [lacking, List.mem_filter, Std.ExtTreeSet.mem_toList, mem_distinct,
    Bool.not_eq_true']

/-- What is held of some chunks and what is lacking make up their sizes. -/
theorem Intact.held_add_lacking (hstore : Intact C inPlay node.chunks)
    (ho : Published C A dek plaintext inPlay o) (cids : List Cid)
    (hcids : ∀ a ∈ cids, a ∈ o.manifest.chunks) :
    (cids.filterMap fun cid => (node.chunks.get cid).map List.length).sum +
      ((cids.filter fun cid => !node.chunks.has cid).map o.sizeOf).sum =
      (cids.map o.sizeOf).sum := by
  induction cids with
  | nil => rfl
  | cons cid cids ih =>
      have hrest := ih fun a ha => hcids a (List.mem_cons_of_mem cid ha)
      cases hget : node.chunks.get cid with
      | none =>
          have hhas : node.chunks.has cid = false := by
            rw [ChunkStore.has, Std.ExtTreeMap.contains_eq_isSome_getElem?,
              show node.chunks.chunks[cid]? = none from hget]
            rfl
          simp only [List.filterMap_cons, List.filter_cons, List.map_cons,
            List.sum_cons, hget, hhas, Option.map_none, Bool.not_false, if_true]
          omega
      | some blob =>
          have hhas : node.chunks.has cid = true :=
            Std.ExtTreeMap.contains_iff_mem.2
              ((BTreeMap.mem_iff_exists _ _).2 ⟨blob, hget⟩)
          obtain ⟨hplay, hverifies⟩ := hstore cid blob hget
          have hsize :=
            ho.length_eq (hcids cid List.mem_cons_self) hplay hverifies
          simp only [List.filterMap_cons, List.filter_cons, List.map_cons,
            List.sum_cons, hget, hhas, ← hsize, Option.map_some, Bool.not_true,
            Bool.false_eq_true, if_false]
          omega

/-- What is left of the bound is enough for what is lacking. -/
theorem Intact.lacking_le (hstore : Intact C inPlay node.chunks)
    (ho : Published C A dek plaintext inPlay o) :
    node.heldOf (distinct o.manifest) +
      ((node.lacking o.manifest).map o.sizeOf).sum ≤
      o.manifest.ciphertextBound := by
  rw [ChunkNode.heldOf, lacking, hstore.held_add_lacking ho _ fun a ha =>
    mem_distinct.1 (Std.ExtTreeSet.mem_toList.1 ha)]
  exact (BTreeMap.sum_lookup_le_total List.length _ _
    ((BTreeSet.toList_pairwise _).imp ne_of_lt)).trans ho.bound

/-- The plan the fetch of an object begins with, and its budget. -/
structure Begun (o : EncodedObject) (wanted : List Cid) (plan : FetchPlan)
    (b : Budget) (k : ℕ) : Prop where
  covered : FetchPlan.Covered o.sizeOf k 0 plan b
  chunks : ∀ a, a ∈ b.chunks ↔ a ∈ wanted
  planned : ∀ a ∈ wanted, a ∈ plan.chunks

/-- The fetch of an object begins under a budget that covers it. -/
theorem Intact.begins (hstore : Intact C inPlay node.chunks)
    (ho : Published C A dek plaintext inPlay o) (hsound : node.Sound)
    {object : Cid} (hover : node.overrunObjects.contains object = false)
    (hlacks : ∃ a ∈ o.manifest.chunks, node.chunks.has a = false)
    (requester : PerNetworkIdentity C validKey) (concurrency : ℕ) :
    let begun := node.fetchObject P object o.manifest requester concurrency
    begun.1 = true ∧ ∃ plan b k, begun.2.fetch = some plan ∧
      Begun o (node.lacking o.manifest) plan b k := by
  intro begun
  have hle := hstore.lacking_le ho
  let bytes := o.manifest.ciphertextBound - node.heldOf (distinct o.manifest)
  let wanted := node.lacking o.manifest
  have hbegun : begun = (true, node.startFetch P wanted (some (object, bytes))
      requester concurrency) := by
    obtain ⟨a, ha, hhas⟩ := hlacks
    have hsome : wanted.isEmpty = false := List.isEmpty_eq_false_iff.2
      (List.ne_nil_of_mem (mem_lacking.2 ⟨ha, hhas⟩))
    have hfits : ¬ o.manifest.ciphertextBound <
        node.heldOf (distinct o.manifest) := by
      omega
    show ChunkNode.fetchObject P node object o.manifest requester
      concurrency = _
    unfold ChunkNode.fetchObject
    rw [hover, if_neg Bool.false_ne_true]
    refine (if_neg hfits).trans ?_
    show (true, if !wanted.isEmpty then _ else node) = _
    rw [hsome, Bool.not_false, if_pos rfl]
    rfl
  rw [hbegun]
  refine ⟨rfl, ?_⟩
  have hspec := (startFetch_spec (P := P) requester hsound wanted
    (some (object, bytes)) concurrency).2
  have hsorted : wanted.Pairwise (· < ·) :=
    (BTreeSet.toList_pairwise _).filter _
  have hcovered := FetchPlan.covered_extendWithin o.sizeOf
    (node.fetch.getD (.new [] concurrency)) object wanted bytes (by
      rw [BTreeSet.toList_ofList hsorted]
      show ((node.lacking o.manifest).map o.sizeOf).sum ≤
        o.manifest.ciphertextBound - node.heldOf (distinct o.manifest)
      omega)
  refine ⟨_, _, _, hspec, hcovered.call (by simp :
      ∀ cid bytes, FetchPlan.Call.nextRequests ≠ .admitChunk cid bytes),
    fun a => ?_, fun a ha => ?_⟩
  · rw [Std.ExtTreeSet.mem_ofList, List.contains_eq_mem, decide_eq_true_eq]
  · exact FetchPlan.moves_mem_of_mem (FetchPlan.moves_issue _ _)
      (FetchPlan.mem_extendWithin.2 (.inr ha))

/-! ## What a fetch comes to -/

/-- When an object's fetch is over no chunk that had to be fetched is called
over budget, each is received or unavailable. -/
theorem Begun.ends {wanted : List Cid} {plan plan' : FetchPlan} {b : Budget}
    {k : ℕ} (h : Begun o wanted plan b k)
    (ho : Published C A dek plaintext inPlay o)
    (hwanted : ∀ a ∈ wanted, a ∈ o.manifest.chunks)
    (hcontinues : Continues C inPlay plan plan')
    (hcomplete : plan'.isComplete = true) {a : Cid} (ha : a ∈ wanted) :
    a ∉ plan'.overBudget ∧ (a ∈ plan'.received ∨ a ∈ plan'.unavailable) := by
  obtain ⟨b', hsame, -, hcovered⟩ := h.covered.fetch
    (fun cid blob hplay hverifies hcid => ho.length_eq
      (hwanted cid ((h.chunks cid).1 hcid)) hplay hverifies)
    hcontinues.fetching
  have hnot : a ∉ plan'.overBudget := by
    intro hover
    obtain ⟨t, ht, hstate⟩ := mem_collect.1 hover
    rw [of_decide_eq_true hstate] at ht
    exact hcovered.wanted a (by rw [hsame]; exact (h.chunks a).2 ha) ht
  have hmem := ((report_partition hcomplete).2 a).2
    ((hcontinues.same a).2 (h.planned a ha))
  exact ⟨hnot,
    List.mem_append.1 ((List.mem_append.1 hmem).resolve_right hnot)⟩

/-- How a node stands that has dropped nothing. -/
structure Faithful (C : Crypto) (inPlay : Set (List UInt8)) (node : ChunkNode) :
    Prop where
  sound : node.Sound
  truthful : node.Truthful
  intact : Intact C inPlay node.chunks

theorem Faithful.step (h : Faithful C inPlay node)
    {input : Input C validKey} (hforgets : input.forgets = false)
    (hplay : input.brings ⊆ inPlay) :
    Faithful C inPlay (node.step P input).2 ∧
      ∀ a, node.chunks.has a = true →
        (node.step P input).2.chunks.has a = true := by
  obtain ⟨htruthful, hheld, -⟩ :=
    truthful_step (P := P) h.sound h.truthful input hforgets
  exact ⟨⟨h.sound.step input, htruthful, intact_step h.intact input hplay⟩,
    hheld⟩

theorem faithful_run (network : NetworkId) (discovery : Bool)
    {inputs : List (Input C validKey)}
    (hinputs : ∀ i ∈ inputs, i.forgets = false ∧ i.brings ⊆ inPlay) :
    Faithful C inPlay
      (Machine.state (ChunkNode.step P) (.new network discovery) inputs) :=
  Machine.history_of (P := fun _ (s : ChunkNode) => Faithful C inPlay s)
    hinputs ⟨sound_new network discovery, truthful_new network discovery,
      fun a bytes ha => by simp [ChunkNode.new, ChunkStore.new] at ha⟩
    (fun _ _ _ hi h => (h.step hi.1 hi.2).1)

/-- An honest object arrives. Whatever a node has done before, and whatever it
fetches beside: the fetch of an encoded object begins unless the node has the
object down as too large; if answers keep coming it ends, and then none of the
chunks it lacked is refused for its size and each chunk is held or reported
unavailable; and if all are held they read back as the plaintext, whoever they
came from. -/
theorem honest_object_arrives (A : Aead) (cdc : FastCdc) (hA : A.Lawful)
    (hcdc : cdc.Tiling) (plaintext : List UInt8) (dek : Dek) (spec : ChunkSpec)
    (inPlay : Set (List UInt8)) (hfree : Set.InjOn C.hashBytes inPlay)
    (hchunks : ∀ chunk ∈ (Object.encode C A cdc plaintext dek spec).chunks,
      chunk.2 ∈ inPlay)
    (hcounted : (Object.encode C A cdc plaintext dek spec).storedLen <
      UInt64.size)
    (P : PeerIds) (network : NetworkId) (inputs : List (Input C validKey))
    (hinputs : ∀ i ∈ inputs, i.forgets = false ∧ i.brings ⊆ inPlay)
    (object : Cid) (requester : PerNetworkIdentity C validKey)
    (concurrency : ℕ) (later : ℕ → Input C validKey)
    (hlater : ∀ n, (later n).asks = false ∧ (later n).forgets = false ∧
      (later n).brings ⊆ inPlay) :
    let o := Object.encode C A cdc plaintext dek spec
    let start := Machine.state (step P) (.new network true) inputs
    let begun := start.fetchObject P object o.manifest requester concurrency
    let node := Machine.after (step P) begun.2 later
    start.overrunObjects.contains object = false →
    (∃ a ∈ o.manifest.chunks, start.chunks.has a = false) →
    (∀ n, (node n).fetchInProgress = true →
      ∃ m, n ≤ m ∧ (node m).Takes (later m)) →
    begun.1 = true ∧ ∃ n received unavailable overBudget,
      (node n).fetch = none ∧
      (node n).pending = [.fetchComplete received unavailable overBudget] ∧
      (∀ a ∈ o.manifest.chunks,
        start.chunks.has a = false → a ∉ overBudget) ∧
      (∀ a ∈ o.manifest.chunks,
        a ∉ unavailable → (node n).chunks.has a = true) ∧
      ((∀ a ∈ o.manifest.chunks, (node n).chunks.has a = true) →
        Object.decode C A o.manifest (node n).chunks.chunks dek =
          .ok plaintext) := by
  intro o start begun node hover hlacks hfair
  have ho : Published C A dek plaintext inPlay o :=
    published_encode hA hcdc hfree hchunks hcounted
  have hstart : Faithful C inPlay start := faithful_run network true hinputs
  let first : Input C validKey :=
    .fetchObject object o.manifest requester concurrency
  have hforgets : first.forgets = false := rfl
  have hbrings : first.brings ⊆ inPlay := Set.empty_subset _
  have hrun : ∀ n, Faithful C inPlay (node n) ∧
      ∀ a, start.chunks.has a = true → (node n).chunks.has a = true :=
    Machine.after_invariant (P := fun s : ChunkNode => Faithful C inPlay s ∧
      ∀ a, start.chunks.has a = true → s.chunks.has a = true)
      (hstart.step (P := P) hforgets hbrings) fun s n h => by
        obtain ⟨hnext, hheld⟩ :=
          h.1.step (P := P) (hlater n).2.1 (hlater n).2.2
        exact ⟨hnext, fun a ha => hheld a (h.2 a ha)⟩
  have hnode := fun n => (hrun n).1
  obtain ⟨htrue, plan, b, k, hplan, hbegun⟩ := hstart.intact.begins (P := P)
    ho hstart.sound hover hlacks requester concurrency
  have hopen : plan.isComplete = false := by
    obtain ⟨a, ha, hhas⟩ := hlacks
    obtain ⟨c, t, hc, ht⟩ := (hnode 0).sound.opened plan hplan a
      (hbegun.planned a (mem_lacking.2 ⟨ha, hhas⟩))
    exact FetchPlan.not_isComplete hc ht
  obtain ⟨n, plan', -, hnow, hdone, hcontinues, hreport⟩ :=
    ends_reported (hnode 0).sound (fun n => (hlater n).1)
      (fun n => (hlater n).2.2) hfair hplan hopen
  have hends : ∀ a ∈ o.manifest.chunks, start.chunks.has a = false →
      a ∉ plan'.overBudget ∧ (a ∈ plan'.received ∨ a ∈ plan'.unavailable) :=
    fun a ha hhas => hbegun.ends ho (fun c hc => (mem_lacking.1 hc).1)
      hcontinues hdone (mem_lacking.2 ⟨ha, hhas⟩)
  refine ⟨htrue, n, plan'.received, plan'.unavailable, plan'.overBudget, hnow,
    hreport, fun a ha hhas => (hends a ha hhas).1, fun a ha hout => ?_,
    fun hheld => (hnode n).intact.reads_back ho hheld⟩
  cases hhas : start.chunks.has a with
  | true => exact (hrun n).2 a hhas
  | false =>
      exact (hnode n).truthful.told (completion plan')
        (hreport ▸ List.mem_singleton_self _) a
        ((hends a ha hhas).2.resolve_right hout)

end ChunkNode

namespace Sample

/-- Identity 9 and its peer. -/
def holderIds : PeerIds where
  peerId id := ⟨id.key.bytes.toList⟩
  fromPeerId p := if p = ⟨(identity 9).key.bytes.toList⟩ then some (identity 9)
    else none

/-- A ledger in which identity 9 offers to upload. -/
def holderLedger : CapabilityLedger :=
  (CapabilityLedger.new network).put
    ⟨network, identity 9, 0, ⟨1, 0, none⟩, false, false, .minimal, ⟨0⟩,
      signature 9 0⟩

/-- Three bytes, as one sealed chunk. -/
def threeBytes : EncodedObject :=
  Object.encode .sample aead shortCdc [1, 2, 3] dek (.fromTarget 4096)

def sealedBytes : List UInt8 := dek.sealChunk aead [1, 2, 3]

/-- A lookup names identity 9, and it sends the chunk. -/
def holderAnswers : ℕ → ChunkNode.Input .sample (fun _ => true)
  | 0 => .nextEvent (some (.providersProgressed 0
      [⟨(identity 9).key.bytes.toList⟩] true))
  | 1 => .nextEvent (some (.response 0 (.chunk sealedBytes)))
  | _ => .nextEvent none

/-- The node while its fetch goes on. -/
def fetchingThree : ℕ → ChunkNode :=
  Machine.after (ChunkNode.step holderIds)
    (ChunkNode.fetchObject holderIds
      (Machine.state (ChunkNode.step holderIds) (.new network true)
        [(.gossiped holderLedger ∅ : ChunkNode.Input .sample (fun _ => true))])
      ⟨hash 1⟩ threeBytes.manifest (fetcher 2) 1).2 holderAnswers

end Sample

/-- The three bytes arrive. -/
theorem honest_object_arrives_three : ∃ n,
    Object.decode .sample Sample.aead Sample.threeBytes.manifest
      (Sample.fetchingThree n).chunks.chunks Sample.dek = .ok [1, 2, 3] := by
  have hthree : ∀ n, (Sample.fetchingThree (n + 2)).fetch = none ∧
      (Sample.fetchingThree (n + 2)).chunks.has
        (.of .sample Sample.sealedBytes) = true := by
    intro n
    induction n with
    | zero => exact ⟨by decide +kernel, by decide +kernel⟩
    | succ n ih =>
        rw [show Sample.fetchingThree (n + 1 + 2) = (ChunkNode.nextEvent .sample
          Sample.holderIds (Sample.fetchingThree (n + 2)) none).2 from rfl]
        unfold ChunkNode.nextEvent
        split <;> exact ih
  have hlater : ∀ n, (Sample.holderAnswers n).asks = false ∧
      (Sample.holderAnswers n).forgets = false ∧
      (Sample.holderAnswers n).brings ⊆ {Sample.sealedBytes} := by
    intro n
    unfold Sample.holderAnswers
    split
    · exact ⟨rfl, rfl, Set.empty_subset _⟩
    · exact ⟨rfl, rfl, subset_rfl⟩
    · exact ⟨rfl, rfl, Set.empty_subset _⟩
  obtain ⟨-, n, received, unavailable, overBudget, hnow, -, -, -, hread⟩ :=
    ChunkNode.honest_object_arrives Sample.aead Sample.shortCdc
      Sample.aead_lawful Sample.shortCdc_tiling [1, 2, 3] Sample.dek
      (.fromTarget 4096) {Sample.sealedBytes} (Set.injOn_singleton _ _)
      (by
        intro chunk hchunk
        obtain ⟨piece, hpiece, rfl⟩ := List.mem_map.1 hchunk
        rw [List.mem_singleton.1 hpiece]
        rfl)
      (by decide) Sample.holderIds Sample.network
      [.gossiped Sample.holderLedger ∅]
      (by
        intro i hi
        rw [List.mem_singleton.1 hi]
        exact ⟨rfl, Set.empty_subset _⟩)
      ⟨Sample.hash 1⟩ (Sample.fetcher 2) 1 Sample.holderAnswers hlater
      (by decide +kernel) ⟨.of .sample Sample.sealedBytes, by decide +kernel,
        by decide +kernel⟩
      (by
        intro n hprogress
        obtain ⟨p, hp, -⟩ := ChunkNode.fetchInProgress_iff.1 hprogress
        cases n with
        | zero => exact ⟨0, le_rfl, by decide +kernel, rfl, by decide +kernel⟩
        | succ n =>
            cases n with
            | zero =>
                exact ⟨1, le_rfl, by decide +kernel,
                  Std.ExtTreeMap.contains_iff_mem.1 (by decide +kernel)⟩
            | succ n =>
                exact absurd (hp.symm.trans (hthree n).1)
                  (Option.some_ne_none p))
  refine ⟨n, hread fun a ha => ?_⟩
  have hone : a = .of .sample Sample.sealedBytes := List.mem_singleton.1 ha
  rw [hone]
  cases n with
  | zero => exact absurd hnow (by decide +kernel)
  | succ n =>
      cases n with
      | zero => exact absurd hnow (by decide +kernel)
      | succ n => exact (hthree n).2

end Intranet
