import Intranet.Proofs.Encoding
import Intranet.Ref.StorageWire

/-!
# What of a pointer message arrives

As for the governance messages, every reader gets two facts, and the sequences
here are kept as lists, so a value that is read was written in exactly one
way. Together they say what `transfer` does: a response arrives if it is
within the reader's bounds, its signatures verify and its encoding fits the
frame; otherwise nothing arrives. A frame that is cut short does not read as
some shorter response, since encodings tell where they end.
-/

namespace Intranet

open Reader

/-! ## What a reader takes -/

section Readable

variable (C : Crypto) (validKey : Bytes 32 → Bool)

/-- A record signed by its owner, whose key the curve has. -/
structure MutablePointer.Readable (p : MutablePointer) : Prop where
  signed : p.verify C = .ok ()
  owner : validKey p.ownerIdentity.key.bytes = true

/-- A wrapping signed by its wrapper, whose key the curve has, and no longer
than the reader takes. -/
structure DekWrapping.Readable (w : DekWrapping) : Prop where
  signed : w.verifySignature C = .ok ()
  wrapper : validKey w.wrapperIdentity.key.bytes = true
  size : w.wrappedDek.length ≤ maxWrappedDekBytes

structure PointerRecord.Readable (r : PointerRecord) : Prop where
  pointer : r.pointer.Readable C validKey
  wrappings : ∀ w ∈ r.wrappings, w.Readable C validKey
  count : r.wrappings.length ≤ maxWrappingsPerPointer

def PointerResponse.Readable : PointerResponse → Prop
  | .digest entries _ => entries.length ≤ maxPointersPerResponse
  | .records sent _ => sent.length ≤ maxPointersPerResponse ∧
      ∀ r ∈ sent, r.Readable C validKey
  | .refused _ => True

end Readable

namespace StorageWire

variable {C : Crypto} {validKey : Bytes 32 → Bool} {i rest : List UInt8}

theorem unknown_ok {α : Type} {name : String} {d : UInt8}
    {r : α × List UInt8} : unknown name d i = .ok r ↔ False :=
  Dec.fail_ok

/-! ## Fields -/

theorem getIdentity_ok {id : PerNetworkIdentityId} :
    getIdentity validKey i = .ok (id, rest) ↔
      validKey id.key.bytes = true ∧ i = id.encode ++ rest :=
  Dec.identity_ok

theorem getIdentity_reads {id : PerNetworkIdentityId}
    (h : validKey id.key.bytes = true) :
    Reads (getIdentity validKey) id.encode id :=
  Dec.identity_reads h

theorem getPointerId_ok {id : PointerId} (h : getPointerId i = .ok (id, rest)) :
    i = Enc.fixed id.bytes ++ rest :=
  Dec.wrapped_ok PointerId.bytes Dec.fixed_ok.1 (fun _ => rfl) h

theorem getPointerId_reads (id : PointerId) :
    Reads getPointerId (Enc.fixed id.bytes) id :=
  (Dec.fixed_reads id.bytes).map

theorem getHash_ok {h : Hash} (hr : getHash i = .ok (h, rest)) :
    i = Enc.fixed h.bytes ++ rest :=
  Dec.wrapped_ok Hash.bytes Dec.fixed_ok.1 (fun _ => rfl) hr

theorem getHash_reads (h : Hash) : Reads getHash (Enc.fixed h.bytes) h :=
  (Dec.fixed_reads h.bytes).map

theorem getSignature_ok {s : Signature} (h : getSignature i = .ok (s, rest)) :
    i = Enc.fixed s.bytes ++ rest :=
  Dec.wrapped_ok Signature.bytes Dec.fixed_ok.1 (fun _ => rfl) h

theorem getSignature_reads (s : Signature) :
    Reads getSignature (Enc.fixed s.bytes) s :=
  (Dec.fixed_reads s.bytes).map

/-! ## Records and wrappings -/

theorem getPointer_reads {p : MutablePointer} (h : p.Readable C validKey) :
    Reads (getPointer C validKey) (putPointer p) p := by
  simp only [putPointer, List.append_assoc]
  refine Reads.bind (getPointerId_reads p.pointerId) ?_
  refine Reads.bind (getIdentity_reads h.owner) ?_
  refine Reads.bind (Dec.str_reads p.contentType.tag) ?_
  refine Reads.bind (getHash_reads p.currentCid.hash) ?_
  refine Reads.bind (getHash_reads p.dekCommitment) ?_
  refine Reads.bind (Dec.u64_reads p.version) ?_
  refine Reads.andThen (getSignature_reads p.signature) ?_
  exact Reads.step (Reads.check h.signed) (Reads.pure p)

theorem getPointer_ok {p : MutablePointer}
    (h : getPointer C validKey i = .ok (p, rest)) :
    p.Readable C validKey ∧ i = putPointer p ++ rest := by
  obtain ⟨id, i₁, h₁, h⟩ := bind_ok.1 h
  obtain ⟨owner, i₂, h₂, h⟩ := bind_ok.1 h
  obtain ⟨tag, i₃, h₃, h⟩ := bind_ok.1 h
  obtain ⟨cid, i₄, h₄, h⟩ := bind_ok.1 h
  obtain ⟨dek, i₅, h₅, h⟩ := bind_ok.1 h
  obtain ⟨version, i₆, h₆, h⟩ := bind_ok.1 h
  obtain ⟨signature, i₇, h₇, h⟩ := bind_ok.1 h
  obtain ⟨u, i₈, h₈, h⟩ := bind_ok.1 h
  obtain ⟨hsigned, rfl⟩ := check_ok.1 h₈
  obtain ⟨rfl, rfl⟩ := pure_ok.1 h
  obtain ⟨howner, h₂⟩ := getIdentity_ok.1 h₂
  refine ⟨⟨hsigned, howner⟩, ?_⟩
  rw [getPointerId_ok h₁, h₂, Dec.str_ok h₃, getHash_ok h₄, getHash_ok h₅,
    Dec.u64_ok.1 h₆, getSignature_ok h₇]
  simp only [putPointer, List.append_assoc]

theorem getWrapping_reads {w : DekWrapping} (h : w.Readable C validKey) :
    Reads (getWrapping C validKey) (putWrapping w) w := by
  simp only [putWrapping, List.append_assoc]
  refine Reads.bind (getPointerId_reads w.pointerId) ?_
  refine Reads.bind (Dec.bytes_reads w.wrappedDek) ?_
  refine Reads.step (Reads.check h.size) ?_
  refine Reads.bind (getHash_reads w.rotationRef) ?_
  refine Reads.bind (getIdentity_reads h.wrapper) ?_
  refine Reads.andThen (getSignature_reads w.signature) ?_
  exact Reads.step (Reads.check h.signed) (Reads.pure w)

theorem getWrapping_ok {w : DekWrapping}
    (h : getWrapping C validKey i = .ok (w, rest)) :
    w.Readable C validKey ∧ i = putWrapping w ++ rest := by
  obtain ⟨id, i₁, h₁, h⟩ := bind_ok.1 h
  obtain ⟨dek, i₂, h₂, h⟩ := bind_ok.1 h
  obtain ⟨u, i₃, h₃, h⟩ := bind_ok.1 h
  obtain ⟨hsize, rfl⟩ := check_ok.1 h₃
  obtain ⟨rotation, i₄, h₄, h⟩ := bind_ok.1 h
  obtain ⟨wrapper, i₅, h₅, h⟩ := bind_ok.1 h
  obtain ⟨signature, i₆, h₆, h⟩ := bind_ok.1 h
  obtain ⟨u, i₇, h₇, h⟩ := bind_ok.1 h
  obtain ⟨hsigned, rfl⟩ := check_ok.1 h₇
  obtain ⟨rfl, rfl⟩ := pure_ok.1 h
  obtain ⟨hwrapper, h₅⟩ := getIdentity_ok.1 h₅
  refine ⟨⟨hsigned, hwrapper, hsize⟩, ?_⟩
  rw [getPointerId_ok h₁, Dec.bytes_ok h₂, getHash_ok h₄, h₅,
    getSignature_ok h₆]
  simp only [putWrapping, List.append_assoc]

theorem putPointer_ne_nil (p : MutablePointer) : putPointer p ≠ [] := by
  simp only [putPointer, List.append_assoc]
  exact List.append_ne_nil_of_left_ne_nil (Enc.fixed_ne_nil _) _

theorem putWrapping_ne_nil (w : DekWrapping) : putWrapping w ≠ [] := by
  simp only [putWrapping, List.append_assoc]
  exact List.append_ne_nil_of_left_ne_nil (Enc.fixed_ne_nil _) _

theorem putPointer_delimited : SelfDelimiting putPointer := by
  intro v w r s hlen h
  simp only [putPointer, List.append_assoc] at hlen h
  obtain ⟨hid, h, hlen⟩ := PointerId.delimited.split hlen h
  obtain ⟨howner, h, hlen⟩ := PerNetworkIdentityId.delimited.split hlen h
  obtain ⟨htag, h, hlen⟩ := Enc.str_delimited.split hlen h
  obtain ⟨hcid, h, hlen⟩ := Hash.delimited.split hlen h
  obtain ⟨hdek, h, hlen⟩ := Hash.delimited.split hlen h
  obtain ⟨hversion, h, hlen⟩ := Enc.u64_delimited.split hlen h
  obtain ⟨hsig, h, -⟩ := Signature.delimited.split hlen h
  obtain ⟨_, _, ⟨_⟩, ⟨_⟩, _, _, _⟩ := v
  obtain ⟨_, _, ⟨_⟩, ⟨_⟩, _, _, _⟩ := w
  dsimp only at *
  subst_vars
  exact ⟨rfl, rfl⟩

theorem putWrapping_delimited : SelfDelimiting putWrapping := by
  intro v w r s hlen h
  simp only [putWrapping, List.append_assoc] at hlen h
  obtain ⟨hid, h, hlen⟩ := PointerId.delimited.split hlen h
  obtain ⟨hdek, h, hlen⟩ := Enc.bytes_delimited.split hlen h
  obtain ⟨hrotation, h, hlen⟩ := Hash.delimited.split hlen h
  obtain ⟨hwrapper, h, hlen⟩ := PerNetworkIdentityId.delimited.split hlen h
  obtain ⟨hsig, h, -⟩ := Signature.delimited.split hlen h
  obtain ⟨_, _, _, _, _⟩ := v
  obtain ⟨_, _, _, _, _⟩ := w
  dsimp only at *
  subst_vars
  exact ⟨rfl, rfl⟩

end StorageWire

open StorageWire

namespace PointerResponse

variable {C : Crypto} {validKey : Bytes 32 → Bool} {i rest : List UInt8}

/-! ## Responses -/

theorem getDigestEntry_reads (e : PointerDigestEntry) :
    Reads getDigestEntry (putDigestEntry e) e := by
  simp only [putDigestEntry, List.append_assoc]
  refine Reads.bind (getPointerId_reads e.pointerId) ?_
  refine Reads.bind (Dec.u64_reads e.version) ?_
  exact Reads.map (getHash_reads e.recordHash)

theorem getDigestEntry_ok {e : PointerDigestEntry}
    (h : getDigestEntry i = .ok (e, rest)) : i = putDigestEntry e ++ rest := by
  obtain ⟨id, i₁, h₁, h⟩ := bind_ok.1 h
  obtain ⟨version, i₂, h₂, h⟩ := bind_ok.1 h
  obtain ⟨hash, i₃, h₃, h⟩ := bind_ok.1 h
  obtain ⟨rfl, rfl⟩ := pure_ok.1 h
  rw [getPointerId_ok h₁, Dec.u64_ok.1 h₂, getHash_ok h₃]
  simp only [putDigestEntry, List.append_assoc]

theorem putDigestEntry_ne_nil (e : PointerDigestEntry) :
    putDigestEntry e ≠ [] := by
  simp only [putDigestEntry, List.append_assoc]
  exact List.append_ne_nil_of_left_ne_nil (Enc.fixed_ne_nil _) _

theorem putDigestEntry_delimited : SelfDelimiting putDigestEntry :=
  .ofReads getDigestEntry_reads

theorem getRecord_reads {r : PointerRecord} (h : r.Readable C validKey) :
    Reads (getRecord C validKey) (putRecord r) r := by
  refine Reads.bind (getPointer_reads h.pointer) ?_
  refine Reads.andThen (Dec.seq_reads putWrapping_ne_nil fun w hw =>
    getWrapping_reads (h.wrappings w hw)) ?_
  exact Reads.step (Reads.check h.count) (Reads.pure r)

theorem getRecord_ok {r : PointerRecord}
    (h : getRecord C validKey i = .ok (r, rest)) :
    r.Readable C validKey ∧ i = putRecord r ++ rest := by
  obtain ⟨pointer, i₁, h₁, h⟩ := bind_ok.1 h
  obtain ⟨wrappings, i₂, h₂, h⟩ := bind_ok.1 h
  obtain ⟨u, i₃, h₃, h⟩ := bind_ok.1 h
  obtain ⟨hcount, rfl⟩ := check_ok.1 h₃
  obtain ⟨rfl, rfl⟩ := pure_ok.1 h
  obtain ⟨hpointer, h₁⟩ := getPointer_ok h₁
  obtain ⟨hwrappings, h₂⟩ := Dec.seq_ok (E := True)
    (fun hw => ⟨(getWrapping_ok hw).1, fun _ => (getWrapping_ok hw).2⟩) h₂
  refine ⟨⟨hpointer, hwrappings, hcount⟩, ?_⟩
  rw [h₁, h₂ trivial]
  simp only [putRecord, List.append_assoc]

theorem putRecord_ne_nil (r : PointerRecord) : putRecord r ≠ [] :=
  List.append_ne_nil_of_left_ne_nil (putPointer_ne_nil _) _

theorem putRecord_delimited : SelfDelimiting putRecord := by
  intro v w r s hlen h
  simp only [putRecord, List.append_assoc] at hlen h
  obtain ⟨hpointer, h, hlen⟩ := putPointer_delimited.split hlen h
  obtain ⟨hwrappings, h, -⟩ := (Enc.seq_delimited putWrapping_delimited
    putWrapping_ne_nil).split hlen h
  obtain ⟨_, _⟩ := v
  obtain ⟨_, _⟩ := w
  dsimp only at *
  subst_vars
  exact ⟨rfl, rfl⟩

theorem get_reads {r : PointerResponse} (h : r.Readable C validKey) :
    Reads (get C validKey) r.put r := by
  cases r with
  | digest entries truncated =>
      simp only [put, List.append_assoc]
      refine Dec.variant_reads (Reads.bind (Dec.seq_reads putDigestEntry_ne_nil
        fun e _ => getDigestEntry_reads e) ?_)
      exact Reads.step (Reads.check h) (Reads.map (Dec.bool_reads truncated))
  | records sent truncated =>
      simp only [put, List.append_assoc]
      refine Dec.variant_reads (Reads.bind (Dec.seq_reads putRecord_ne_nil
        fun r hr => getRecord_reads (h.2 r hr)) ?_)
      exact Reads.step (Reads.check h.1) (Reads.map (Dec.bool_reads truncated))
  | refused reason =>
      refine Dec.variant_reads (Reads.map ?_)
      cases reason <;> exact Dec.variant_pure_reads rfl

theorem getRefusal_ok {reason : PointerRefusal}
    (h : getRefusal i = .ok (reason, rest)) :
    i = Enc.u8 reason.code ++ rest := by
  obtain ⟨byte, i₁, h₁, h⟩ := bind_ok.1 h
  rw [Dec.u8_ok.1 h₁]
  split at h
  · obtain ⟨rfl, rfl⟩ := pure_ok.1 h
    rfl
  · obtain ⟨rfl, rfl⟩ := pure_ok.1 h
    rfl
  · exact (unknown_ok.1 h).elim

theorem get_ok {r : PointerResponse} (h : get C validKey i = .ok (r, rest)) :
    r.Readable C validKey ∧ i = r.put ++ rest := by
  obtain ⟨d, mid, hd, h⟩ := bind_ok.1 h
  rw [Dec.variant_ok.1 hd]
  split at h
  · obtain ⟨entries, i₁, h₁, h⟩ := bind_ok.1 h
    obtain ⟨u, i₂, h₂, h⟩ := bind_ok.1 h
    obtain ⟨hcount, rfl⟩ := check_ok.1 h₂
    obtain ⟨truncated, i₃, h₃, h⟩ := bind_ok.1 h
    obtain ⟨rfl, rfl⟩ := pure_ok.1 h
    obtain ⟨-, h₁⟩ := Dec.seq_ok (E := True) (P := fun _ => True)
      (fun he => ⟨trivial, fun _ => getDigestEntry_ok he⟩) h₁
    refine ⟨hcount, ?_⟩
    rw [h₁ trivial, Dec.bool_ok.1 h₃]
    simp only [put, List.append_assoc]
  · obtain ⟨sent, i₁, h₁, h⟩ := bind_ok.1 h
    obtain ⟨u, i₂, h₂, h⟩ := bind_ok.1 h
    obtain ⟨hcount, rfl⟩ := check_ok.1 h₂
    obtain ⟨truncated, i₃, h₃, h⟩ := bind_ok.1 h
    obtain ⟨rfl, rfl⟩ := pure_ok.1 h
    obtain ⟨hsent, h₁⟩ := Dec.seq_ok (E := True)
      (fun hr => ⟨(getRecord_ok hr).1, fun _ => (getRecord_ok hr).2⟩) h₁
    refine ⟨⟨hcount, hsent⟩, ?_⟩
    rw [h₁ trivial, Dec.bool_ok.1 h₃]
    simp only [put, List.append_assoc]
  · obtain ⟨reason, i₁, h₁, h⟩ := bind_ok.1 h
    obtain ⟨rfl, rfl⟩ := pure_ok.1 h
    refine ⟨trivial, ?_⟩
    rw [getRefusal_ok h₁]
    simp only [put, List.append_assoc]
  · exact (unknown_ok.1 h).elim

theorem code_injective : Function.Injective PointerRefusal.code := by
  intro a b h
  cases a <;> cases b <;> first | rfl | cases h

theorem put_delimited : SelfDelimiting put := by
  intro v w r s hlen h
  cases v with
  | digest entries truncated =>
      cases w with
      | digest entries' truncated' =>
          simp only [put, List.append_assoc] at hlen h
          obtain ⟨-, h, hlen⟩ := Enc.u8_delimited.split hlen h
          obtain ⟨rfl, h, hlen⟩ := (Enc.seq_delimited putDigestEntry_delimited
            putDigestEntry_ne_nil).split hlen h
          obtain ⟨rfl, h, -⟩ := Enc.bool_delimited.split hlen h
          exact ⟨rfl, h⟩
      | records => exact absurd (List.cons.inj h).1 (by decide)
      | refused => exact absurd (List.cons.inj h).1 (by decide)
  | records sent truncated =>
      cases w with
      | digest => exact absurd (List.cons.inj h).1 (by decide)
      | records sent' truncated' =>
          simp only [put, List.append_assoc] at hlen h
          obtain ⟨-, h, hlen⟩ := Enc.u8_delimited.split hlen h
          obtain ⟨rfl, h, hlen⟩ := (Enc.seq_delimited putRecord_delimited
            putRecord_ne_nil).split hlen h
          obtain ⟨rfl, h, -⟩ := Enc.bool_delimited.split hlen h
          exact ⟨rfl, h⟩
      | refused => exact absurd (List.cons.inj h).1 (by decide)
  | refused reason =>
      cases w with
      | digest => exact absurd (List.cons.inj h).1 (by decide)
      | records => exact absurd (List.cons.inj h).1 (by decide)
      | refused reason' =>
          simp only [put, List.append_assoc] at hlen h
          obtain ⟨-, h, hlen⟩ := Enc.u8_delimited.split hlen h
          obtain ⟨hcode, h, -⟩ := Enc.u8_delimited.split hlen h
          exact ⟨congrArg refused (code_injective hcode), h⟩

theorem encode_delimited : SelfDelimiting encode := by
  intro v w r s hlen h
  simp only [encode, List.append_assoc] at hlen h
  obtain ⟨-, h, hlen⟩ := Enc.str_delimited.split hlen h
  exact put_delimited v w r s hlen h

/-- Digest entries take 72 bytes each. -/
theorem length_encode_digest (entries : List PointerDigestEntry)
    (truncated : Bool) :
    (digest entries truncated).encode.length = 51 + 72 * entries.length := by
  have hdomain : (Enc.domain wireDomain).length = 41 := by decide +kernel
  have hentries : (entries.flatMap putDigestEntry).length =
      72 * entries.length := by
    induction entries with
    | nil => rfl
    | cons e entries ih =>
        rw [List.flatMap_cons, List.length_append, ih]
        simp only [putDigestEntry, List.length_append, Enc.fixed, Enc.u64,
          Enc.length_bigEndian, Bytes.length_eq, List.length_cons]
        omega
  simp only [encode, put, List.length_append, hdomain, Enc.variant, Enc.u8,
    Enc.bool, Enc.seq, Enc.u64, Enc.length_bigEndian, hentries,
    List.length_singleton]
  omega

/-- Fewer records make a shorter response. -/
theorem length_encode_records_le {sent sent' : List PointerRecord}
    {truncated : Bool} (h : sent.Sublist sent') :
    (records sent truncated).encode.length ≤
      (records sent' truncated).encode.length := by
  have hrecords : (sent.flatMap putRecord).length ≤
      (sent'.flatMap putRecord).length := by
    induction h with
    | slnil => exact le_rfl
    | cons r _ ih =>
        rw [List.flatMap_cons, List.length_append]
        omega
    | cons_cons r _ ih =>
        rw [List.flatMap_cons, List.flatMap_cons, List.length_append,
          List.length_append]
        omega
  simp only [encode, put, List.length_append, Enc.seq, Enc.u64,
    Enc.length_bigEndian]
  omega

/-- What arrives of a response is the response, whole and readable. -/
theorem transfer_eq_ok_iff {r read : PointerResponse}
    (hlen : r.encode.length < 2 ^ 64) :
    r.transfer C validKey = .ok read ↔
      read = r ∧ r.Readable C validKey ∧ r.encode.length ≤ maxMessageBytes := by
  constructor
  · intro h
    rw [transfer, decode] at h
    obtain ⟨x, value, rest, hx, hget, hpure⟩ := Dec.framed_ok h
    obtain ⟨rfl, -⟩ := pure_ok.1 hpure
    obtain ⟨hreadable, hput⟩ := get_ok hget
    rw [List.append_nil] at hput
    have hcut : value.encode ++ r.encode.drop maxMessageBytes =
        r.encode ++ [] := by
      rw [List.append_nil, encode, ← hput, ← hx, List.take_append_drop]
    obtain ⟨rfl, hdrop⟩ := encode_delimited _ _ _ _
      (by rwa [hcut, List.append_nil]) hcut
    exact ⟨rfl, hreadable, List.drop_eq_nil_iff.1 hdrop⟩
  · intro h
    obtain ⟨rfl, hreadable, hfits⟩ := h
    rw [transfer, List.take_of_length_le hfits]
    exact Dec.framed_reads (get_reads hreadable) (Reads.pure read) hlen

end PointerResponse

namespace PointerRequest

variable {C : Crypto} {validKey : Bytes 32 → Bool}

/-! ## Requests -/

theorem get_reads {r : PointerRequest}
    (hrequester : validKey r.requester.key.bytes = true)
    (hwanted : r.wanted.length ≤ maxPointersPerResponse) :
    Reads (get validKey) r.put r := by
  cases r with
  | digest requester signature =>
      simp only [put, List.append_assoc]
      refine Dec.variant_reads (Reads.bind (getIdentity_reads hrequester) ?_)
      exact Reads.map (getSignature_reads signature)
  | fetch wanted requester signature =>
      simp only [put, List.append_assoc]
      refine Dec.variant_reads (Reads.bind (Dec.seq_reads
        (fun id => Enc.fixed_ne_nil id.bytes) fun id _ =>
          getPointerId_reads id) ?_)
      refine Reads.step (Reads.check hwanted) ?_
      refine Reads.bind (getIdentity_reads hrequester) ?_
      exact Reads.map (getSignature_reads signature)

/-- Ids take 32 bytes each. -/
theorem length_putWanted (wanted : List PointerId) :
    (putWanted wanted).length = 8 + 32 * wanted.length := by
  rw [putWanted, Enc.seq, List.length_append, Enc.u64, Enc.length_bigEndian]
  congr 1
  induction wanted with
  | nil => rfl
  | cons id wanted ih =>
      rw [List.flatMap_cons, List.length_append, ih, Enc.fixed,
        id.bytes.length_eq, List.length_cons]
      omega

theorem length_encode_le {r : PointerRequest}
    (hwanted : r.wanted.length ≤ maxPointersPerResponse) :
    r.encode.length ≤ maxMessageBytes := by
  have hdomain : (Enc.domain wireDomain).length = 40 := by decide +kernel
  cases r with
  | digest requester signature =>
      simp only [encode, put, List.length_append, hdomain, Enc.variant, Enc.u8,
        PerNetworkIdentityId.encode, Enc.fixed, Bytes.length_eq]
      decide
  | fetch wanted requester signature =>
      simp only [encode, put, List.length_append, hdomain, Enc.variant, Enc.u8,
        PerNetworkIdentityId.encode, Enc.fixed, Bytes.length_eq,
        length_putWanted, List.length_singleton, maxMessageBytes]
      simp only [PointerRequest.wanted, maxPointersPerResponse] at hwanted
      omega

theorem transfer_of_verify {r : PointerRequest} (hsigned : r.verify C = .ok ())
    (hrequester : validKey r.requester.key.bytes = true)
    (hwanted : r.wanted.length ≤ maxPointersPerResponse) :
    r.transfer C validKey = .ok r := by
  have hfits := length_encode_le hwanted
  rw [transfer, List.take_of_length_le hfits]
  refine Dec.framed_reads (get_reads hrequester hwanted)
    (Reads.step (Reads.ofExcept hsigned) (Reads.pure r)) ?_
  exact lt_of_le_of_lt hfits (by decide)

end PointerRequest

end Intranet
