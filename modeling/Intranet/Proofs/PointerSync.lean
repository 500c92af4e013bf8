import Intranet.Proofs.Pointer
import Intranet.Proofs.StorageWire
import Intranet.Ref.PointerSync

/-!
# How much of a peer's pointers an exchange brings over

Every exchange asks for the same digest, so what a node can ever receive from
a peer that does not change is what the first exchange asks for: of the first
256 pointers the peer offers, those whose record differs. The peer's answer
arrives as a whole or not at all. A record the two already share is not asked
for again, and its wrappings travel only with it; a pointer past the first
256 is not offered at all.

The round is put into one equation, what it changes is bounded by what the
first round fetches, and that bound is kept by every later round.
-/

namespace Intranet

open PointerNode MutablePointer

variable {C : Crypto} {validKey : Bytes 32 → Bool} {node : PointerNode}
  {w : DekWrapping} {id : PointerId} {rotation : Hash}

/-! ## Accepting a wrapping -/

/-- The wrapping is signed, by a current member. -/
def PointerNode.Admits (C : Crypto) (node : PointerNode) (w : DekWrapping) :
    Prop :=
  w.verifySignature C = .ok () ∧ ∃ state, node.governanceState C = some state ∧
    state.isMember w.wrapperIdentity = true

theorem acceptWrapping_cases (C : Crypto) (node : PointerNode)
    (w : DekWrapping) :
    node.Admits C w ∧ (node.acceptWrapping C w).2 =
        { node with
          wrappings := node.wrappings.insert w.pointerId
            ((node.wrappings[w.pointerId]?.getD ∅).insert w.rotationRef w) } ∨
      ¬ node.Admits C w ∧ (node.acceptWrapping C w).2 = node := by
  rw [acceptWrapping]
  cases hverify : w.verifySignature C with
  | error err =>
      refine Or.inr ⟨fun h => ?_, rfl⟩
      cases hverify.symm.trans h.1
  | ok u =>
      cases hstate : node.governanceState C with
      | none =>
          refine Or.inr ⟨fun h => ?_, rfl⟩
          obtain ⟨-, state, hsome, -⟩ := h
          rw [hstate] at hsome
          cases hsome
      | some state =>
          dsimp only
          split
          · next hmember =>
              refine Or.inr ⟨fun h => ?_, rfl⟩
              obtain ⟨-, other, hsome, hother⟩ := h
              rw [hstate] at hsome
              cases hsome
              rw [hother] at hmember
              cases hmember
          · next hmember =>
              refine Or.inl ⟨⟨hverify, state, hstate, ?_⟩, rfl⟩
              simpa using hmember

theorem log_acceptWrapping : (node.acceptWrapping C w).2.log = node.log := by
  rcases acceptWrapping_cases C node w with h | h
  · rw [h.2]
  · rw [h.2]

theorem pointers_acceptWrapping :
    (node.acceptWrapping C w).2.pointers = node.pointers := by
  rcases acceptWrapping_cases C node w with h | h
  · rw [h.2]
  · rw [h.2]

/-- An admitted wrapping is held in its own place, and no other place
changes. -/
theorem wrappingUnder_of_admits (h : node.Admits C w) :
    (node.acceptWrapping C w).2.wrappingUnder id rotation =
      if w.pointerId = id ∧ w.rotationRef = rotation then some w
      else node.wrappingUnder id rotation := by
  rcases acceptWrapping_cases C node w with hcase | hcase
  · rw [hcase.2, wrappingUnder, wrappingUnder, BTreeMap.getElem?_insert_ite]
    by_cases hid : w.pointerId = id
    · subst hid
      rw [if_pos rfl, Option.bind_some, BTreeMap.getElem?_insert_ite]
      by_cases hrotation : w.rotationRef = rotation
      · rw [if_pos hrotation, if_pos ⟨rfl, hrotation⟩]
      · rw [if_neg hrotation, if_neg fun h => hrotation h.2]
        cases node.wrappings[w.pointerId]? with
        | none => rfl
        | some byRotation => rfl
    · rw [if_neg hid, if_neg fun h => hid h.1]
  · exact absurd h hcase.1

theorem acceptWrapping_of_not_admits (h : ¬ node.Admits C w) :
    (node.acceptWrapping C w).2 = node := by
  rcases acceptWrapping_cases C node w with hcase | hcase
  · exact absurd hcase.1 h
  · exact hcase.2

theorem wrappingUnder_acceptPointer {p : MutablePointer} :
    (node.acceptPointer C p).2.wrappingUnder id rotation =
      node.wrappingUnder id rotation := by
  rw [wrappingUnder, wrappings_acceptPointer, wrappingUnder]

theorem admits_congr {node' : PointerNode} (h : node'.log = node.log) :
    node'.Admits C w ↔ node.Admits C w := by
  rw [Admits, Admits, governanceState_congr h]

/-! ## What a reachable node holds -/

/-- Everything is held under its own ids and was signed when it came in. -/
structure PointerNode.Wf (C : Crypto) (validKey : Bytes 32 → Bool)
    (node : PointerNode) : Prop where
  pointer : ∀ {id : PointerId} {p : MutablePointer},
    node.pointers[id]? = some p → p.pointerId = id ∧ p.Readable C validKey
  wrapping : ∀ {id rotation w}, node.wrappingUnder id rotation = some w →
    w.pointerId = id ∧ w.rotationRef = rotation ∧
      w.verifySignature C = .ok () ∧
      validKey w.wrapperIdentity.key.bytes = true

theorem verify_ok_of_publishable {p : MutablePointer}
    (h : node.pointerIsPublishable C p = true) : p.verify C = .ok () := by
  rw [MutablePointer.verify, if_pos (verify_of_publishable h)]

theorem PointerNode.Wf.acceptPointer {p : MutablePointer}
    (hnode : node.Wf C validKey)
    (hkey : validKey p.ownerIdentity.key.bytes = true) :
    (node.acceptPointer C p).2.Wf C validKey := by
  constructor
  · intro id q hq
    rw [pointers_acceptPointer] at hq
    split at hq
    · next hoffer =>
        rcases Register.of_offer_eq_some hq with rfl | hheld
        · exact ⟨hoffer.2, verify_ok_of_publishable hoffer.1, hkey⟩
        · exact hnode.pointer hheld
    · exact hnode.pointer hq
  · intro id rotation w hw
    rw [wrappingUnder_acceptPointer] at hw
    exact hnode.wrapping hw

theorem PointerNode.Wf.acceptWrapping (hnode : node.Wf C validKey)
    (hkey : validKey w.wrapperIdentity.key.bytes = true) :
    (node.acceptWrapping C w).2.Wf C validKey := by
  by_cases hadmits : node.Admits C w
  · constructor
    · intro id p hp
      rw [pointers_acceptWrapping] at hp
      exact hnode.pointer hp
    · intro id rotation v hv
      rw [wrappingUnder_of_admits hadmits] at hv
      split at hv
      · next hplace =>
          cases hv
          exact ⟨hplace.1, hplace.2, hadmits.1, hkey⟩
      · exact hnode.wrapping hv
  · rwa [acceptWrapping_of_not_admits hadmits]

theorem PointerNode.Reachable.wf (h : node.Reachable C validKey) :
    node.Wf C validKey := by
  induction h with
  | new log =>
      constructor
      · intro id p hp
        cases hp
      · intro id rotation w hw
        cases hw
  | setLog log _ ih => exact ⟨ih.pointer, ih.wrapping⟩
  | acceptPointer _ hkey ih => exact ih.acceptPointer hkey
  | acceptWrapping _ hkey ih => exact ih.acceptWrapping hkey

/-! ## Receiving records -/

theorem afterRecords_congr {node' : PointerNode} {records : List MutablePointer}
    (hlog : node'.log = node.log) (hpointers : node'.pointers = node.pointers) :
    (node'.afterRecords C records).pointers[id]? =
      (node.afterRecords C records).pointers[id]? := by
  rw [pointers_afterRecords, pointers_afterRecords, hpointers]
  simp only [pointerIsPublishable_congr (governanceState_congr hlog)]

/-- The wrappings of a record, one after the other. -/
def PointerNode.acceptWrappings (C : Crypto) (node : PointerNode)
    (wrappings : List DekWrapping) : PointerNode :=
  wrappings.foldl (fun node w => (node.acceptWrapping C w).2) node

theorem acceptWrappings_frame (C : Crypto) (node : PointerNode)
    (wrappings : List DekWrapping) :
    (node.acceptWrappings C wrappings).log = node.log ∧
      (node.acceptWrappings C wrappings).pointers = node.pointers := by
  induction wrappings generalizing node with
  | nil => exact ⟨rfl, rfl⟩
  | cons w wrappings ih =>
      obtain ⟨hlog, hpointers⟩ := @ih (node.acceptWrapping C w).2
      exact ⟨hlog.trans log_acceptWrapping,
        hpointers.trans pointers_acceptWrapping⟩

/-- A place is filled that was filled before, or that an admitted wrapping
belongs to. -/
theorem isSome_acceptWrapping :
    ((node.acceptWrapping C w).2.wrappingUnder id rotation).isSome ↔
      (node.wrappingUnder id rotation).isSome ∨
        node.Admits C w ∧ w.pointerId = id ∧ w.rotationRef = rotation := by
  by_cases hadmits : node.Admits C w
  · rw [wrappingUnder_of_admits hadmits]
    split
    · next hplace => exact iff_of_true rfl (Or.inr ⟨hadmits, hplace⟩)
    · next hplace =>
        exact ⟨Or.inl, fun h => h.resolve_right fun h => hplace h.2⟩
  · rw [acceptWrapping_of_not_admits hadmits]
    exact ⟨Or.inl, fun h => h.resolve_right fun h => hadmits h.1⟩

theorem isSome_acceptWrappings (C : Crypto) (node : PointerNode)
    (wrappings : List DekWrapping) (id : PointerId) (rotation : Hash) :
    ((node.acceptWrappings C wrappings).wrappingUnder id rotation).isSome ↔
      (node.wrappingUnder id rotation).isSome ∨
        ∃ w ∈ wrappings, node.Admits C w ∧ w.pointerId = id ∧
          w.rotationRef = rotation := by
  induction wrappings generalizing node with
  | nil => simp [acceptWrappings]
  | cons w wrappings ih =>
      have hstep := @ih (node.acceptWrapping C w).2
      simp only [admits_congr log_acceptWrapping, isSome_acceptWrapping]
        at hstep
      simp only [List.exists_mem_cons_iff, ← or_assoc]
      exact hstep

theorem log_receiveRecord {r : PointerRecord} :
    (node.receiveRecord C r).log = node.log :=
  (acceptWrappings_frame C _ r.wrappings).1.trans log_acceptPointer

theorem isSome_receiveRecord {r : PointerRecord} :
    ((node.receiveRecord C r).wrappingUnder id rotation).isSome ↔
      (node.wrappingUnder id rotation).isSome ∨
        ∃ w ∈ r.wrappings, node.Admits C w ∧ w.pointerId = id ∧
          w.rotationRef = rotation := by
  have h := isSome_acceptWrappings C (node.acceptPointer C r.pointer).2
    r.wrappings id rotation
  simp only [admits_congr log_acceptPointer] at h
  rw [wrappingUnder_acceptPointer] at h
  exact h

theorem log_receiveRecords (sent : List PointerRecord) :
    (node.receiveRecords C sent).log = node.log := by
  induction sent generalizing node with
  | nil => rfl
  | cons r sent ih => exact ih.trans log_receiveRecord

/-- Records are received as the library's register receives them, wrappings
or not. -/
theorem pointers_receiveRecords {sent : List PointerRecord} :
    (node.receiveRecords C sent).pointers[id]? =
      (node.afterRecords C (sent.map PointerRecord.pointer)).pointers[id]? := by
  induction sent generalizing node with
  | nil => rfl
  | cons r sent ih =>
      rw [List.map_cons, afterRecords_cons]
      refine Eq.trans (@ih (node.receiveRecord C r)) ?_
      obtain ⟨hlog, hpointers⟩ := acceptWrappings_frame C
        (node.acceptPointer C r.pointer).2 r.wrappings
      exact afterRecords_congr hlog hpointers

theorem isSome_receiveRecords {sent : List PointerRecord} :
    ((node.receiveRecords C sent).wrappingUnder id rotation).isSome ↔
      (node.wrappingUnder id rotation).isSome ∨
        ∃ r ∈ sent, ∃ w ∈ r.wrappings, node.Admits C w ∧ w.pointerId = id ∧
          w.rotationRef = rotation := by
  induction sent generalizing node with
  | nil => simp [receiveRecords]
  | cons r sent ih =>
      have hstep := @ih (node.receiveRecord C r)
      simp only [admits_congr log_receiveRecord, isSome_receiveRecord] at hstep
      simp only [List.exists_mem_cons_iff, ← or_assoc]
      exact hstep

/-! ## What a peer offers and what is fetched of it -/

/-- The pointers a digest lists: the first ones in the order of their ids,
delisted ones left out. -/
def PointerNode.offered (state : GovernanceState) (b : PointerNode) :
    List MutablePointer :=
  ((b.pointers.toList.map Prod.snd).filter fun p =>
    !state.delisted.contains p.pointerId).take maxPointersPerResponse

/-- The records `a` asks `b` for: those offered that `a` does not hold, holds
at a lower version, or holds as another record of the same version. They come
with the wrappings `b` has for them. -/
def PointerNode.fetched (C : Crypto) (state : GovernanceState)
    (a b : PointerNode) : List PointerRecord :=
  ((b.offered state).filter fun p => a.worthFetching C (digestEntry C p)).map
    fun p => ⟨p, b.wrappingsFor p.pointerId⟩

/-- Records within the reader's bounds: few enough wrappings each, none too
long, and all of it small enough for one message. -/
def Fits (sent : List PointerRecord) : Prop :=
  (∀ r ∈ sent, r.wrappings.length ≤ maxWrappingsPerPointer ∧
    ∀ w ∈ r.wrappings, w.wrappedDek.length ≤ maxWrappedDekBytes) ∧
  (PointerResponse.records sent false).encode.length ≤ maxMessageBytes

section Offered

variable {state : GovernanceState} {a b : PointerNode} {p : MutablePointer}
  {r : PointerRecord}

theorem mem_offered (hb : b.Wf C validKey) (hp : p ∈ b.offered state) :
    b.pointers[p.pointerId]? = some p ∧
      state.delisted.contains p.pointerId = false := by
  obtain ⟨hmem, hlisted⟩ := List.mem_filter.1 (List.mem_of_mem_take hp)
  obtain ⟨⟨id, q⟩, hq, rfl⟩ := List.mem_map.1 hmem
  have hheld := Std.ExtTreeMap.mem_toList_iff_getElem?_eq_some.1 hq
  have hid := (hb.pointer hheld).1
  dsimp only at *
  subst hid
  exact ⟨hheld, by simpa using hlisted⟩

theorem length_offered_le : (b.offered state).length ≤ maxPointersPerResponse :=
  List.length_take_le _ _

theorem mem_wrappingsFor {w : DekWrapping} :
    w ∈ b.wrappingsFor id ↔
      ∃ rotation, b.wrappingUnder id rotation = some w := by
  rw [wrappingsFor]
  simp only [wrappingUnder]
  cases b.wrappings[id]? with
  | none => simp
  | some byRotation =>
      simp only [List.mem_map, Prod.exists, Option.bind_some,
        Std.ExtTreeMap.mem_toList_iff_getElem?_eq_some, exists_eq_right]

theorem mem_fetched : r ∈ a.fetched C state b ↔
    r.pointer ∈ b.offered state ∧
      a.worthFetching C (digestEntry C r.pointer) = true ∧
      r.wrappings = b.wrappingsFor r.pointer.pointerId := by
  rw [fetched, List.mem_map]
  constructor
  · intro h
    obtain ⟨p, hp, rfl⟩ := h
    obtain ⟨hoffered, hworth⟩ := List.mem_filter.1 hp
    exact ⟨hoffered, hworth, rfl⟩
  · intro h
    obtain ⟨hoffered, hworth, hwrappings⟩ := h
    refine ⟨r.pointer, List.mem_filter.2 ⟨hoffered, hworth⟩, ?_⟩
    rw [← hwrappings]

theorem length_fetched_le :
    (a.fetched C state b).length ≤ maxPointersPerResponse := by
  rw [fetched, List.length_map]
  exact (List.length_filter_le _ _).trans length_offered_le

/-- What a reachable peer sends fails to be read only by its size. -/
theorem readable_fetched_iff (hb : b.Wf C validKey) :
    (PointerResponse.records (a.fetched C state b) false).Readable C validKey ↔
      ∀ r ∈ a.fetched C state b, r.wrappings.length ≤ maxWrappingsPerPointer ∧
        ∀ w ∈ r.wrappings, w.wrappedDek.length ≤ maxWrappedDekBytes := by
  constructor
  · intro h r hr
    exact ⟨(h.2 r hr).count, fun w hw => ((h.2 r hr).wrappings w hw).size⟩
  · intro h
    refine ⟨length_fetched_le, fun r hr => ?_⟩
    obtain ⟨hoffered, -, hwrappings⟩ := mem_fetched.1 hr
    refine ⟨(hb.pointer (mem_offered hb hoffered).1).2, fun w hw => ?_,
      (h r hr).1⟩
    have hsize := (h r hr).2 w hw
    rw [hwrappings] at hw
    obtain ⟨rotation, hheld⟩ := mem_wrappingsFor.1 hw
    obtain ⟨-, -, hsigned, hkey⟩ := hb.wrapping hheld
    exact ⟨hsigned, hkey, hsize⟩

/-! ## Serving -/

variable (hb : b.governanceState C = some state)
  {requester : PerNetworkIdentityId}
  (hread : state.identityHolds requester .readContent = true)

include hb hread

theorem servePointers_digest (signature : Signature) :
    ∃ truncated, b.servePointers C (.digest requester signature) =
      .digest ((b.offered state).map (digestEntry C)) truncated := by
  rw [servePointers, hb]
  simp only [PointerRequest.requester, mayServe, hread]
  rw [if_neg (by decide), ← List.map_take]
  exact ⟨_, rfl⟩

theorem servePointers_fetch (signature : Signature) (hwf : b.Wf C validKey) :
    b.servePointers C (.fetch ((a.fetched C state b).map fun r =>
        r.pointer.pointerId) requester signature) =
      .records (a.fetched C state b) false := by
  rw [servePointers, hb]
  simp only [PointerRequest.requester, mayServe, hread]
  rw [if_neg (by decide)]
  have hlisted : ((a.fetched C state b).map fun r =>
      r.pointer.pointerId).filter (fun id => !state.delisted.contains id) =
        (a.fetched C state b).map fun r => r.pointer.pointerId := by
    refine List.filter_eq_self.2 fun id hid => ?_
    obtain ⟨r, hr, rfl⟩ := List.mem_map.1 hid
    rw [(mem_offered hwf (mem_fetched.1 hr).1).2]
    rfl
  have hrecords : ((a.fetched C state b).map fun r =>
      r.pointer.pointerId).filterMap b.recordFor = a.fetched C state b := by
    rw [List.filterMap_map]
    refine (List.filterMap_congr (g := some) fun r hr => ?_).trans
      List.filterMap_some
    obtain ⟨hoffered, -, hwrappings⟩ := mem_fetched.1 hr
    rw [Function.comp_apply, recordFor, (mem_offered hwf hoffered).1,
      Option.map_some, ← hwrappings]
  rw [hlisted, hrecords, List.take_of_length_le length_fetched_le,
    decide_eq_false (Nat.not_lt.2 length_fetched_le)]

end Offered

/-! ## One exchange -/

section Round

variable {state : GovernanceState} {a b : PointerNode}
  {me : PerNetworkIdentity C validKey}

/-- A node's own request arrives and is answered. -/
theorem ask_eq {request : PointerRequest} (hme : request.requester = me.id)
    (hsigned : request.verify C = .ok ())
    (hwanted : request.wanted.length ≤ maxPointersPerResponse) :
    ask C validKey me b request =
      ((b.servePointers C request).transfer C validKey).toOption := by
  have hvalid : validKey request.requester.key.bytes = true := by
    rw [hme]
    exact me.valid
  have hanswer : b.answerPointers C me.id request =
      b.servePointers C request := by
    rw [answerPointers, if_neg fun h => h hme]
  unfold ask
  simp only [PointerRequest.transfer_of_verify hsigned hvalid hwanted]
  rw [hanswer]

theorem verify_forDigest :
    (PointerRequest.forDigest me).verify C = .ok () :=
  if_pos (me.verifies _)

theorem verify_forFetch (wanted : List PointerId) :
    (PointerRequest.forFetch me wanted).verify C = .ok () :=
  if_pos (me.verifies _)

variable (hb : b.governanceState C = some state)
  (hread : state.identityHolds me.id .readContent = true)

include hb hread

theorem ask_digest :
    ∃ truncated, ask C validKey me b (.forDigest me) =
      some (.digest ((b.offered state).map (digestEntry C)) truncated) := by
  obtain ⟨truncated, hserve⟩ := servePointers_digest hb hread
    (me.sign (PointerRequest.payload me.id []))
  have hlength : ((b.offered state).map (digestEntry C)).length ≤
      maxPointersPerResponse := by
    rw [List.length_map]
    exact length_offered_le
  have hencode := PointerResponse.length_encode_digest
    ((b.offered state).map (digestEntry C)) truncated
  have hfits : (PointerResponse.digest ((b.offered state).map
      (digestEntry C)) truncated).encode.length ≤ maxMessageBytes := by
    rw [hencode]
    rw [maxPointersPerResponse] at hlength
    rw [maxMessageBytes]
    omega
  refine ⟨truncated, ?_⟩
  rw [ask_eq rfl verify_forDigest (Nat.zero_le _), PointerRequest.forDigest,
    hserve, (PointerResponse.transfer_eq_ok_iff
      (lt_of_le_of_lt hfits (by decide))).2 ⟨rfl, hlength, hfits⟩]
  rfl

/-- What an exchange does: the records asked for are received if they are
within the reader's bounds, and nothing happens otherwise. -/
theorem pointerRound_cases (hwf : b.Wf C validKey)
    (hsize : (PointerResponse.records (a.fetched C state b)
      false).encode.length < 2 ^ 64) :
    Fits (a.fetched C state b) ∧ pointerRound C validKey me a b =
        a.receiveRecords C (a.fetched C state b) ∨
      ¬ Fits (a.fetched C state b) ∧ pointerRound C validKey me a b = a := by
  obtain ⟨truncated, hdigest⟩ := ask_digest hb hread
  have hwanted : a.pointersWorthFetching C
      ((b.offered state).map (digestEntry C)) =
        (a.fetched C state b).map fun r => r.pointer.pointerId := by
    rw [pointersWorthFetching, fetched, List.filter_map, List.map_map,
      List.map_map]
    rfl
  have hfetch : ask C validKey me b (.forFetch me ((a.fetched C state b).map
      fun r => r.pointer.pointerId)) = ((PointerResponse.records
        (a.fetched C state b) false).transfer C validKey).toOption := by
    have hlength : ((a.fetched C state b).map fun r =>
        r.pointer.pointerId).length ≤ maxPointersPerResponse := by
      rw [List.length_map]
      exact length_fetched_le
    rw [ask_eq rfl (verify_forFetch _) hlength, PointerRequest.forFetch,
      servePointers_fetch hb hread _ hwf]
  unfold pointerRound
  simp only [hdigest, handleResponse, hwanted]
  split
  · next hempty =>
      -- nothing is asked for, and receiving nothing does nothing
      rw [List.isEmpty_iff, List.map_eq_nil_iff] at hempty
      rw [hempty, receiveRecords, List.foldl_nil]
      exact (em (Fits [])).imp (⟨·, rfl⟩) (⟨·, rfl⟩)
  · simp only [hfetch]
    by_cases hfits : Fits (a.fetched C state b)
    · refine Or.inl ⟨hfits, ?_⟩
      rw [(PointerResponse.transfer_eq_ok_iff hsize).2
        ⟨rfl, (readable_fetched_iff hwf).2 hfits.1, hfits.2⟩]
      rfl
    · refine Or.inr ⟨hfits, ?_⟩
      cases hread : (PointerResponse.records (a.fetched C state b)
          false).transfer C validKey with
      | error err => rfl
      | ok read =>
          obtain ⟨-, hreadable, hlength⟩ :=
            (PointerResponse.transfer_eq_ok_iff hsize).1 hread
          exact absurd ⟨(readable_fetched_iff hwf).1 hreadable, hlength⟩ hfits

end Round

/-! ## Any number of exchanges -/

/-- `a` holds, for every publishable pointer of `b`, a record at least as new,
and a wrapping wherever `b` has one. -/
def PointerNode.Complete (C : Crypto) (a b : PointerNode) : Prop :=
  (∀ (id : PointerId) (p : MutablePointer), b.pointers[id]? = some p →
    b.pointerIsPublishable C p = true →
      ∃ q, a.pointers[id]? = some q ∧ resolve C q p = q) ∧
  ∀ id rotation, (b.wrappingUnder id rotation).isSome →
    (a.wrappingUnder id rotation).isSome

/-- What `a` lacks of `b`, the first exchange can bring: the records `a`
fetches fit, every publishable record `a` has none as new as is offered, and
every wrapping `a` has none in place of comes from a current member and
belongs to a record `a` fetches. -/
def PointerNode.Deliverable (C : Crypto) (state : GovernanceState)
    (a b : PointerNode) : Prop :=
  (∀ (id : PointerId) (p : MutablePointer), b.pointers[id]? = some p →
    b.pointerIsPublishable C p = true →
      (∃ q, a.pointers[id]? = some q ∧ resolve C q p = q) ∨
        Fits (a.fetched C state b) ∧ p ∈ b.offered state) ∧
  ∀ id rotation w, b.wrappingUnder id rotation = some w →
    (a.wrappingUnder id rotation).isSome ∨
      Fits (a.fetched C state b) ∧
        state.isMember w.wrapperIdentity = true ∧
        ∃ r ∈ a.fetched C state b, r.pointer.pointerId = id

section Rounds

variable {state : GovernanceState} {a b x : PointerNode} {p q : MutablePointer}
  {me : PerNetworkIdentity C validKey}

/-- A record offered that is newer than what `a` holds is fetched. -/
theorem fetched_of_newer (hp : p ∈ b.offered state)
    (hnewer : ¬ ∃ q, a.pointers[p.pointerId]? = some q ∧ resolve C q p = q) :
    ⟨p, b.wrappingsFor p.pointerId⟩ ∈ a.fetched C state b := by
  refine mem_fetched.2 ⟨hp, ?_, rfl⟩
  rw [worthFetching]
  cases hheld : a.pointers[(digestEntry C p).pointerId]? with
  | none => rfl
  | some held =>
      have hrank : ¬ held.rank C ≤ p.rank C := fun h =>
        hnewer ⟨held, hheld, resolve_eq_left_iff.2 h⟩
      have hle := rank_le_iff.1 (le_of_not_ge hrank)
      simp only [digestEntry, Bool.or_eq_true, Bool.and_eq_true]
      rcases hle with hlt | ⟨heq, hhash⟩
      · exact Or.inl (decide_eq_true hlt)
      · refine Or.inr ⟨decide_eq_true heq.symm, decide_eq_true fun hsame => ?_⟩
        exact hrank (rank_le_iff.2 (Or.inr ⟨heq.symm, le_of_eq hsame.symm⟩))

/-- What any number of exchanges leave: outside of what the first one fetches
nothing changes. -/
structure FetchedOnly (C : Crypto) (state : GovernanceState)
    (a b x : PointerNode) : Prop where
  log : x.log = a.log
  pointer : ∀ id, x.pointers[id]? = a.pointers[id]? ∨
    ∃ r ∈ a.fetched C state b, r.pointer.pointerId = id
  wrapping : ∀ id rotation, (x.wrappingUnder id rotation).isSome →
    (a.wrappingUnder id rotation).isSome ∨
      ∃ r ∈ a.fetched C state b, ∃ w ∈ r.wrappings, a.Admits C w ∧
        w.pointerId = id ∧ w.rotationRef = rotation

theorem FetchedOnly.refl : FetchedOnly C state a b a :=
  ⟨rfl, fun _ => Or.inl rfl, fun _ _ => Or.inl⟩

/-- Later exchanges ask for nothing that the first did not. -/
theorem FetchedOnly.fetched_subset (hwf : b.Wf C validKey)
    (hx : FetchedOnly C state a b x) :
    x.fetched C state b ⊆ a.fetched C state b := by
  intro r hr
  obtain ⟨hoffered, hworth, hwrappings⟩ := mem_fetched.1 hr
  rcases hx.pointer r.pointer.pointerId with hsame | hfetched
  · refine mem_fetched.2 ⟨hoffered, ?_, hwrappings⟩
    rw [worthFetching] at hworth ⊢
    rwa [show (digestEntry C r.pointer).pointerId = r.pointer.pointerId from rfl,
      ← hsame]
  · obtain ⟨r', hr', hid⟩ := hfetched
    obtain ⟨hoffered', -, hwrappings'⟩ := mem_fetched.1 hr'
    have hpointer : r'.pointer = r.pointer := by
      have hheld := (mem_offered hwf hoffered').1
      rw [hid, (mem_offered hwf hoffered).1] at hheld
      exact (Option.some.inj hheld).symm
    have hrecord : r' = r := by
      rcases r with ⟨pointer, wrappings⟩
      rcases r' with ⟨pointer', wrappings'⟩
      dsimp only at *
      rw [hpointer, hwrappings, hwrappings', hpointer]
    rwa [← hrecord]

theorem FetchedOnly.fetched_sublist (hwf : b.Wf C validKey)
    (hx : FetchedOnly C state a b x) :
    (x.fetched C state b).Sublist (a.fetched C state b) := by
  have hboth : (b.offered state).filter (fun p =>
      x.worthFetching C (digestEntry C p)) =
        ((b.offered state).filter fun p =>
          a.worthFetching C (digestEntry C p)).filter fun p =>
            x.worthFetching C (digestEntry C p) := by
    rw [List.filter_filter]
    refine List.filter_congr fun p hp => ?_
    cases hworth : x.worthFetching C (digestEntry C p) with
    | false => rfl
    | true =>
        have hmem : ⟨p, b.wrappingsFor p.pointerId⟩ ∈ a.fetched C state b :=
          hx.fetched_subset hwf (mem_fetched.2 ⟨hp, hworth, rfl⟩)
        rw [(mem_fetched.1 hmem).2.1]
        rfl
  rw [fetched, fetched, hboth]
  exact List.filter_sublist.map _

theorem pointers_receiveRecords_of_not_mem {sent : List PointerRecord}
    (h : ∀ r ∈ sent, r.pointer.pointerId ≠ id) :
    (node.receiveRecords C sent).pointers[id]? = node.pointers[id]? := by
  rw [pointers_receiveRecords, pointers_afterRecords]
  have hnone : (sent.map PointerRecord.pointer).filter (fun p => decide
      (node.pointerIsPublishable C p = true ∧ p.pointerId = id)) = [] := by
    refine List.filter_eq_nil_iff.2 fun p hp => ?_
    obtain ⟨r, hr, rfl⟩ := List.mem_map.1 hp
    exact fun hdecide => h r hr (of_decide_eq_true hdecide).2
  rw [hnone, List.foldl_nil]

theorem FetchedOnly.receive (hwf : b.Wf C validKey) (hx : FetchedOnly C state a b x) :
    FetchedOnly C state a b (x.receiveRecords C (x.fetched C state b)) := by
  have hsubset := hx.fetched_subset hwf
  constructor
  · exact (log_receiveRecords _).trans hx.log
  · intro id
    by_cases hmem : ∃ r ∈ x.fetched C state b, r.pointer.pointerId = id
    · obtain ⟨r, hr, hid⟩ := hmem
      exact Or.inr ⟨r, hsubset hr, hid⟩
    · rw [pointers_receiveRecords_of_not_mem fun r hr hid =>
        hmem ⟨r, hr, hid⟩]
      exact hx.pointer id
  · intro id rotation hsome
    rcases isSome_receiveRecords.1 hsome with hsome | hsome
    · exact hx.wrapping id rotation hsome
    · obtain ⟨r, hr, w, hw, hadmits, hplace⟩ := hsome
      exact Or.inr ⟨r, hsubset hr, w, hw, (admits_congr hx.log).1 hadmits,
        hplace⟩

section Run

variable (hb : b.governanceState C = some state)
  (hread : state.identityHolds me.id .readContent = true)
  (hwf : b.Wf C validKey)
  (hsize : (PointerResponse.records (a.fetched C state b)
    false).encode.length < 2 ^ 64)

include hb hread hwf hsize

theorem FetchedOnly.round (hx : FetchedOnly C state a b x) :
    FetchedOnly C state a b (pointerRound C validKey me x b) := by
  have hsize' := lt_of_le_of_lt (PointerResponse.length_encode_records_le
    (hx.fetched_sublist hwf)) hsize
  rcases pointerRound_cases hb hread hwf hsize' with h | h
  · rw [h.2]
    exact hx.receive hwf
  · rwa [h.2]

theorem FetchedOnly.rounds (n : ℕ) (hx : FetchedOnly C state a b x) :
    FetchedOnly C state a b (afterPointerRounds C validKey me b n x) := by
  induction n generalizing x with
  | zero => exact hx
  | succ n ih => exact ih (hx.round hb hread hwf hsize)

/-- An answer that does not arrive does not arrive the next time either. -/
theorem afterPointerRounds_of_not_fits (h : ¬ Fits (a.fetched C state b))
    (n : ℕ) : afterPointerRounds C validKey me b n a = a := by
  induction n with
  | zero => rfl
  | succ n ih =>
      rcases pointerRound_cases hb hread hwf hsize with hround | hround
      · exact absurd hround.1 h
      · rw [afterPointerRounds, hround.2]
        exact ih

end Run

end Rounds

/-- A record that is stored, or was held, is followed by one as new. -/
theorem newer_of_candidate {a : PointerNode} {records : List MutablePointer}
    {p q : MutablePointer} (hq : q ∈ a.candidates C records id)
    (hle : q.rank C ≤ p.rank C) :
    ∃ r, (a.afterRecords C records).pointers[id]? = some r ∧
      resolve C r p = r := by
  have hkeeps := keeps_afterRecords C a records id
  cases hheld : (a.afterRecords C records).pointers[id]? with
  | none =>
      rw [hheld] at hkeeps
      have hempty : a.candidates C records id = ∅ := hkeeps
      rw [hempty] at hq
      exact hq.elim
  | some r =>
      rw [hheld] at hkeeps
      exact ⟨r, rfl, resolve_eq_left_iff.2 ((hkeeps.2 q hq).trans hle)⟩

/-- What a completed run holds was deliverable. -/
theorem deliverable_of_complete {a b x : PointerNode}
    {state : GovernanceState} (ha : a.governanceState C = some state)
    (hwf : b.Wf C validKey) (hfits : Fits (a.fetched C state b))
    (hx : FetchedOnly C state a b x) (hdone : x.Complete C b) :
    a.Deliverable C state b := by
  constructor
  · intro id p hp hpub
    obtain ⟨q, hq, hnewer⟩ := hdone.1 id p hp hpub
    rcases hx.pointer id with hsame | hfetched
    · rw [hsame] at hq
      exact Or.inl ⟨q, hq, hnewer⟩
    · obtain ⟨r, hr, rfl⟩ := hfetched
      have hoffered := (mem_fetched.1 hr).1
      have hheld := (mem_offered hwf hoffered).1
      rw [hp] at hheld
      cases hheld
      exact Or.inr ⟨hfits, hoffered⟩
  · intro id rotation w hw
    rcases hx.wrapping id rotation (hdone.2 id rotation (by rw [hw]; rfl))
      with hsome | hfetched
    · exact Or.inl hsome
    · obtain ⟨r, hr, w', hw', ⟨-, state', hstate, hmember⟩, hid, hrotation⟩ :=
        hfetched
      rw [(mem_fetched.1 hr).2.2] at hw'
      obtain ⟨rotation', hheld⟩ := mem_wrappingsFor.1 hw'
      obtain ⟨hid', hrotation', -⟩ := hwf.wrapping hheld
      rw [ha] at hstate
      cases hstate
      rw [← hrotation', hrotation, ← hid', hid, hw] at hheld
      cases hheld
      exact Or.inr ⟨hfits, hmember, r, hr, hid'.symm.trans hid⟩

/-- What is deliverable is there once it is received. -/
theorem complete_of_deliverable {a b : PointerNode} {state : GovernanceState}
    (ha : a.governanceState C = some state)
    (hb : b.governanceState C = some state) (hwf : b.Wf C validKey)
    (h : a.Deliverable C state b) :
    (a.receiveRecords C (a.fetched C state b)).Complete C b := by
  constructor
  · intro id p hp hpub
    rw [pointers_receiveRecords]
    by_cases hnewer : ∃ q, a.pointers[id]? = some q ∧ resolve C q p = q
    · obtain ⟨q, hq, hnewer⟩ := hnewer
      exact newer_of_candidate (Or.inl hq) (resolve_eq_left_iff.1 hnewer)
    · have hid := (hwf.pointer hp).1
      have hoffered := ((h.1 id p hp hpub).resolve_left hnewer).2
      rw [← hid] at hnewer
      refine newer_of_candidate (Or.inr ⟨?_, ?_, hid⟩) le_rfl
      · exact List.mem_map.2 ⟨_, fetched_of_newer hoffered hnewer, rfl⟩
      · rwa [pointerIsPublishable_congr (ha.trans hb.symm)]
  · intro id rotation hsome
    obtain ⟨w, hw⟩ := Option.isSome_iff_exists.1 hsome
    refine isSome_receiveRecords.2 ((h.2 id rotation w hw).imp_right ?_)
    intro hfetched
    obtain ⟨-, hmember, r, hr, rfl⟩ := hfetched
    obtain ⟨hid, hrotation, hsigned, -⟩ := hwf.wrapping hw
    refine ⟨r, hr, w, ?_, ⟨hsigned, state, ha, hmember⟩, hid, hrotation⟩
    rw [(mem_fetched.1 hr).2.2]
    exact mem_wrappingsFor.2 ⟨rotation, hw⟩

/-- Some number of exchanges leaves `a` with everything publishable `b` holds
exactly when all of it that `a` lacks can come with the first one. -/
theorem pointer_sync_complete_iff (C : Crypto) (validKey : Bytes 32 → Bool)
    (me : PerNetworkIdentity C validKey) (a b : PointerNode)
    (state : GovernanceState) (ha : a.governanceState C = some state)
    (hb : b.governanceState C = some state)
    (hread : state.identityHolds me.id .readContent = true)
    (hreach : b.Reachable C validKey)
    (hsize : (PointerResponse.records (a.fetched C state b)
      false).encode.length < 2 ^ 64) :
    (∃ n, (afterPointerRounds C validKey me b n a).Complete C b) ↔
      a.Deliverable C state b := by
  have hwf := hreach.wf
  constructor
  · intro hdone
    obtain ⟨n, hdone⟩ := hdone
    by_cases hfits : Fits (a.fetched C state b)
    · exact deliverable_of_complete ha hwf hfits
        (FetchedOnly.rounds hb hread hwf hsize n FetchedOnly.refl) hdone
    · rw [afterPointerRounds_of_not_fits hb hread hwf hsize hfits] at hdone
      refine ⟨fun id p hp hpub => Or.inl (hdone.1 id p hp hpub), ?_⟩
      intro id rotation w hw
      exact Or.inl (hdone.2 id rotation (by rw [hw]; rfl))
  · intro hdeliverable
    refine ⟨1, ?_⟩
    rw [afterPointerRounds, afterPointerRounds]
    rcases pointerRound_cases hb hread hwf hsize with hround | hround
    · rw [hround.2]
      exact complete_of_deliverable ha hb hwf hdeliverable
    · rw [hround.2]
      constructor
      · intro id p hp hpub
        exact (hdeliverable.1 id p hp hpub).resolve_right fun h =>
          hround.1 h.1
      · intro id rotation hsome
        obtain ⟨w, hw⟩ := Option.isSome_iff_exists.1 hsome
        exact (hdeliverable.2 id rotation w hw).resolve_right fun h =>
          hround.1 h.1

/-- The key pair of identity `n`. -/
def Sample.keyPair (n : ℕ) : PerNetworkIdentity .sample (fun _ => true) where
  id := Sample.identity n
  sign _ := Sample.signature n 0
  valid := rfl
  verifies payload := Sample.verify_first n payload

/-- A wrapping for pointer `n` made by `wrapper`. -/
def Sample.wrapping (n wrapper : ℕ) : DekWrapping :=
  ⟨⟨Bytes.ofNat 32 n⟩, [1], Sample.hash 0, Sample.identity wrapper,
    Sample.signature wrapper 0⟩

/-- A node that holds one record. -/
def Sample.holder : PointerNode :=
  ((new Sample.textLog).acceptPointer .sample (Sample.pointer 9 1 0 3)).2

/-- The same node, once it has a wrapping for the record. -/
def Sample.rewrapped : PointerNode :=
  (Sample.holder.acceptWrapping .sample (Sample.wrapping 9 2)).2

/-- One record and no wrapping come over. -/
theorem pointer_sync_one_record :
    ∃ n, (afterPointerRounds .sample (fun _ => true) (Sample.keyPair 2)
      Sample.holder n (new Sample.textLog)).Complete .sample Sample.holder := by
  have hcheck : (Sample.holder.governanceState .sample).any (fun state =>
      state.identityHolds (Sample.keyPair 2).id .readContent &&
        decide ((new Sample.textLog).fetched .sample state Sample.holder =
          [⟨Sample.pointer 9 1 0 3, []⟩]) &&
        decide (Sample.holder.offered state = [Sample.pointer 9 1 0 3])) =
      true := by
    decide +kernel
  obtain ⟨state, hstate, hcheck⟩ := Option.any_eq_true _ _ |>.1 hcheck
  simp only [Bool.and_eq_true, decide_eq_true_eq] at hcheck
  obtain ⟨⟨hread, hfetched⟩, hoffered⟩ := hcheck
  have hlength : (PointerResponse.records [⟨Sample.pointer 9 1 0 3, []⟩]
      false).encode.length ≤ maxMessageBytes := by decide +kernel
  have hlog : (new Sample.textLog).governanceState .sample = some state :=
    (governanceState_congr log_acceptPointer).symm.trans hstate
  have hheld : Sample.holder.pointers.toList.map Prod.snd =
      [Sample.pointer 9 1 0 3] := by decide +kernel
  refine (pointer_sync_complete_iff .sample (fun _ => true) (Sample.keyPair 2)
    (new Sample.textLog) Sample.holder state hlog hstate hread
    (.acceptPointer (.new _) rfl) ?_).2 ⟨?_, ?_⟩
  · rw [hfetched]
    exact lt_of_le_of_lt hlength (by decide)
  · intro id p hp _
    have hmem : p ∈ Sample.holder.pointers.toList.map Prod.snd :=
      List.mem_map.2 ⟨(id, p),
        Std.ExtTreeMap.mem_toList_iff_getElem?_eq_some.2 hp, rfl⟩
    rw [hfetched, hoffered]
    rw [hheld] at hmem
    exact Or.inr ⟨⟨by decide, hlength⟩, hmem⟩
  · intro id rotation w hw
    rw [Sample.holder, wrappingUnder_acceptPointer] at hw
    cases hw

/-- Two nodes hold the same record and one of them a wrapping for it. The
other does not get the wrapping, however often it asks. -/
theorem wrapping_never_arrives :
    ∃ state, Sample.holder.governanceState .sample = some state ∧
      Sample.rewrapped.governanceState .sample = some state ∧
      state.identityHolds (Sample.keyPair 2).id .readContent = true ∧
      Sample.holder.Reachable .sample (fun _ => true) ∧
      Sample.rewrapped.Reachable .sample (fun _ => true) ∧
      ∀ n, ¬ (afterPointerRounds .sample (fun _ => true) (Sample.keyPair 2)
        Sample.rewrapped n Sample.holder).Complete .sample Sample.rewrapped := by
  have hcheck : (Sample.rewrapped.governanceState .sample).any (fun state =>
      state.identityHolds (Sample.keyPair 2).id .readContent &&
        decide (Sample.holder.fetched .sample state Sample.rewrapped = [])) =
      true := by
    decide +kernel
  obtain ⟨state, hstate, hcheck⟩ := Option.any_eq_true _ _ |>.1 hcheck
  simp only [Bool.and_eq_true, decide_eq_true_eq] at hcheck
  obtain ⟨hread, hfetched⟩ := hcheck
  have hholder : Sample.holder.Reachable .sample (fun _ => true) :=
    .acceptPointer (.new _) rfl
  have hrewrapped : Sample.rewrapped.Reachable .sample (fun _ => true) :=
    .acceptWrapping hholder rfl
  refine ⟨state, (governanceState_congr log_acceptWrapping).symm.trans hstate,
    hstate, hread, hholder, hrewrapped, fun n hdone => ?_⟩
  have hwithin := FetchedOnly.rounds hstate hread hrewrapped.wf
    (by rw [hfetched]; decide +kernel) n FetchedOnly.refl
  have hplace : (Sample.rewrapped.wrappingUnder ⟨Bytes.ofNat 32 9⟩
      (Sample.hash 0)).isSome = true := by decide +kernel
  rcases hwithin.wrapping _ _ (hdone.2 _ _ hplace) with hsome | hsome
  · exact absurd hsome (by decide +kernel)
  · obtain ⟨r, hr, -⟩ := hsome
    rw [hfetched] at hr
    cases hr

end Intranet
