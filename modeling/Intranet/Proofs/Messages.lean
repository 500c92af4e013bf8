import Intranet.Lib.Run
import Intranet.Proofs.EpochWire
import Intranet.Proofs.Signal
import Intranet.Ref.Direct
import Intranet.Ref.Linking
import Intranet.Ref.MediaWire

/-!
# Messages have one spelling

Six kinds of message are written and read back by hand: call signals, media
envelopes, direct messages, proofs of common ownership, and the request and
response of key delivery. All of them are a domain tag, a value and nothing
after it, and the signed ones are verified when the value is there. So a
message mirrors its encoding as soon as the reader of its value does
(`Dec.plain_faithful`, `Dec.verified_faithful`), and that goes field by field.

What fits is what the decoder takes: the identities are keys, lengths are
within the ceilings, and the signature verifies. What a member makes and signs
fits. A proof of common ownership fits in either order of its sides; the order
`create` puts them in is not asked for.
-/

namespace Intranet

open Reader

variable {C : Crypto} {validKey : Bytes 32 → Bool}

/-! ## Call signals -/

namespace Signal

/-- What the decoder takes: a readable body under a sender that signed it. -/
def Fits (C : Crypto) (validKey : Bytes 32 → Bool) (s : Signal) : Prop :=
  (s.body.Readable validKey ∧ validKey s.sender.key.bytes = true) ∧
    s.verify C = .ok ()

theorem faithful : Faithful encode (decode C validKey) (Fits C validKey) where
  back _ h hlen := decode_encode h.1.1 h.1.2 h.2 hlen
  spelled _ _ h := (decode_ok h).1

theorem create_fits (sender : PerNetworkIdentity C validKey) {body : SignalBody}
    (h : body.Readable validKey) : (create sender body).Fits C validKey :=
  ⟨⟨h, sender.valid⟩, if_pos (sender.verifies _)⟩

end Signal

/-! ## Media envelopes -/

section Media

open RealtimeWire

variable {i rest : List UInt8}

theorem Recipient.get_ok {recipient : Recipient}
    (h : Recipient.get validKey i = .ok (recipient, rest)) :
    i = recipient.put ++ rest := by
  obtain ⟨d, mid, hd, h⟩ := bind_ok.1 h
  rw [Dec.u8_ok.1 hd]
  split at h
  · obtain ⟨identity, mid', hidentity, h⟩ := bind_ok.1 h
    obtain ⟨rfl, rfl⟩ := pure_ok.1 h
    rw [(getIdentity_ok.1 hidentity).2]
    rfl
  · obtain ⟨rfl, rfl⟩ := pure_ok.1 h
    rfl
  · exact (Dec.fail_ok.1 h).elim

theorem Recipient.get_reads {recipient : Recipient}
    (h : ∀ identity, recipient = .one identity →
      validKey identity.key.bytes = true) :
    Reads (Recipient.get validKey) recipient.put recipient := by
  cases recipient with
  | one identity =>
      exact Dec.variant_reads (Reads.map (getIdentity_reads (h identity rfl)))
  | participants => exact Dec.variant_pure_reads rfl

namespace MediaEnvelope

/-- What the decoder takes: identities that are keys, and a frame within the
ceiling. -/
structure Fits (validKey : Bytes 32 → Bool) (envelope : MediaEnvelope) :
    Prop where
  sender : validKey envelope.sender.key.bytes = true
  recipient : ∀ identity, envelope.recipient = .one identity →
    validKey identity.key.bytes = true
  size : envelope.frame.ciphertext.length ≤ maxFrameBytes

theorem get_ok {envelope : MediaEnvelope}
    (h : get validKey i = .ok (envelope, rest)) : i = envelope.put ++ rest := by
  obtain ⟨call, mid₁, hcall, h⟩ := bind_ok.1 h
  obtain ⟨sender, mid₂, hsender, h⟩ := bind_ok.1 h
  obtain ⟨recipient, mid₃, hrecipient, h⟩ := bind_ok.1 h
  obtain ⟨sequence, mid₄, hsequence, h⟩ := bind_ok.1 h
  obtain ⟨ciphertext, mid₅, hciphertext, h⟩ := bind_ok.1 h
  obtain ⟨u, mid₆, hcheck, h⟩ := bind_ok.1 h
  obtain ⟨-, rfl⟩ := check_ok.1 hcheck
  obtain ⟨rfl, rfl⟩ := pure_ok.1 h
  rw [getCallId_ok hcall, (getIdentity_ok.1 hsender).2,
    Recipient.get_ok hrecipient, Dec.u64_ok.1 hsequence,
    Dec.bytes_ok hciphertext, put]
  simp only [List.append_assoc]

theorem get_reads {envelope : MediaEnvelope} (h : envelope.Fits validKey) :
    Reads (get validKey) envelope.put envelope := by
  simp only [put, List.append_assoc]
  refine Reads.bind (getCallId_reads envelope.call) ?_
  refine Reads.bind (getIdentity_reads h.sender) ?_
  refine Reads.bind (Recipient.get_reads h.recipient) ?_
  refine Reads.bind (Dec.u64_reads envelope.frame.sequence) ?_
  refine Reads.andThen (Dec.bytes_reads envelope.frame.ciphertext) ?_
  exact Reads.step (Reads.check h.size) (Reads.pure envelope)

theorem faithful : Faithful encode (decode validKey) (Fits validKey) :=
  Dec.plain_faithful (fun _ => get_reads) get_ok

end MediaEnvelope

end Media

/-! ## Direct messages -/

namespace DirectMessage

variable {i rest : List UInt8}

theorem getIdentity_ok {id : PerNetworkIdentityId} :
    getIdentity validKey i = .ok (id, rest) ↔
      validKey id.key.bytes = true ∧ i = id.encode ++ rest :=
  Dec.identity_ok

theorem getIdentity_reads {id : PerNetworkIdentityId}
    (h : validKey id.key.bytes = true) :
    Reads (getIdentity validKey) id.encode id :=
  Dec.identity_reads h

theorem get_ok {m : DirectMessage} (h : get validKey i = .ok (m, rest)) :
    i = m.put ++ rest := by
  obtain ⟨sender, mid₁, hsender, h⟩ := bind_ok.1 h
  obtain ⟨label, mid₂, hlabel, h⟩ := bind_ok.1 h
  obtain ⟨kind, mid₃, hkind, h⟩ := bind_ok.1 h
  obtain ⟨payload, mid₄, hpayload, h⟩ := bind_ok.1 h
  obtain ⟨b, mid₅, hb, h⟩ := bind_ok.1 h
  obtain ⟨rfl, rfl⟩ := pure_ok.1 h
  rw [(getIdentity_ok.1 hsender).2, Dec.str_ok hlabel, Dec.str_ok hkind,
    Dec.bytes_ok hpayload, Dec.fixed_ok.1 hb, put]
  simp only [List.append_assoc]

theorem get_reads {m : DirectMessage}
    (h : validKey m.sender.key.bytes = true) :
    Reads (get validKey) m.put m := by
  simp only [put, List.append_assoc]
  refine Reads.bind (getIdentity_reads h) ?_
  refine Reads.bind (Dec.str_reads m.«namespace») ?_
  refine Reads.bind (Dec.str_reads m.kind) ?_
  refine Reads.bind (Dec.bytes_reads m.payload) ?_
  exact Reads.map (Dec.fixed_reads m.signature.bytes)

/-- A label that is there and within its bound. -/
def Labelled (label : String) : Prop :=
  label.isEmpty = false ∧ label.utf8ByteSize ≤ maxDirectLabelBytes

theorem checkLabel_ok {label : String} :
    checkLabel label = .ok () ↔ Labelled label := by
  rw [checkLabel, Run.ite_ok, Run.ite_ok, Bool.not_eq_true, Nat.not_lt,
    Labelled]
  simp only [and_true]

theorem checkPayload_ok {payload : List UInt8} :
    checkPayload payload = .ok () ↔
      payload.length ≤ maxDirectPayloadBytes := by
  rw [checkPayload, Run.ite_ok, Nat.not_lt]
  simp only [and_true]

/-- What the decoder takes: a sender that is a key, two labels and a payload
within their bounds, and a signature that verifies. -/
structure Fits (C : Crypto) (validKey : Bytes 32 → Bool) (m : DirectMessage) :
    Prop where
  sender : validKey m.sender.key.bytes = true
  label : Labelled m.«namespace»
  kind : Labelled m.kind
  size : m.payload.length ≤ maxDirectPayloadBytes
  verified : m.verify C = .ok ()

theorem Fits.checked {m : DirectMessage} (h : m.Fits C validKey) :
    m.checked C = .ok () := by
  refine Run.bind_ok.2 ⟨(), checkLabel_ok.2 h.label, ?_⟩
  refine Run.bind_ok.2 ⟨(), checkLabel_ok.2 h.kind, ?_⟩
  exact Run.bind_ok.2 ⟨(), checkPayload_ok.2 h.size, h.verified⟩

theorem faithful : Faithful encode (decode C validKey) (Fits C validKey) := by
  have hchecked : Faithful encode (decode C validKey) fun m =>
      validKey m.sender.key.bytes = true ∧ m.checked C = .ok () :=
    Dec.verified_faithful (fun _ => get_reads) get_ok
  exact ⟨fun m h => hchecked.back m ⟨h.sender, h.checked⟩, hchecked.spelled⟩

/-- What a sender makes, the decoder takes. -/
theorem create_fits {sender : PerNetworkIdentity C validKey}
    {label kind : String} {payload : List UInt8} {m : DirectMessage}
    (h : create sender label kind payload = .ok m) : m.Fits C validKey := by
  obtain ⟨⟨⟩, hlabel, h⟩ := Run.bind_ok.1 h
  obtain ⟨⟨⟩, hkind, h⟩ := Run.bind_ok.1 h
  obtain ⟨⟨⟩, hpayload, h⟩ := Run.bind_ok.1 h
  cases h
  exact ⟨sender.valid, checkLabel_ok.1 hlabel, checkLabel_ok.1 hkind,
    checkPayload_ok.1 hpayload, if_pos (sender.verifies _)⟩

end DirectMessage

/-! ## Proofs of common ownership -/

section Linking

variable {i rest : List UInt8}

theorem Side.get_ok {side : Side} (h : Side.get validKey i = .ok (side, rest)) :
    i = side.put ++ rest := by
  obtain ⟨network, mid₁, hnetwork, h⟩ := bind_ok.1 h
  obtain ⟨key, mid₂, hkey, h⟩ := bind_ok.1 h
  obtain ⟨u, mid₃, hcheck, h⟩ := bind_ok.1 h
  obtain ⟨-, rfl⟩ := check_ok.1 hcheck
  obtain ⟨rfl, rfl⟩ := pure_ok.1 h
  rw [Dec.fixed_ok.1 hnetwork, Dec.fixed_ok.1 hkey, put, List.append_assoc]
  rfl

theorem Side.get_reads {side : Side}
    (h : validKey side.identity.key.bytes = true) :
    Reads (Side.get validKey) side.put side := by
  refine Reads.bind (Dec.fixed_reads side.network.bytes) ?_
  refine Reads.andThen (Dec.fixed_reads side.identity.key.bytes) ?_
  exact Reads.step (Reads.check h) (Reads.pure side)

namespace CommonOwnershipProof

theorem get_ok {p : CommonOwnershipProof}
    (h : get validKey i = .ok (p, rest)) : i = p.put ++ rest := by
  obtain ⟨first, mid₁, hfirst, h⟩ := bind_ok.1 h
  obtain ⟨second, mid₂, hsecond, h⟩ := bind_ok.1 h
  obtain ⟨b, mid₃, hb, h⟩ := bind_ok.1 h
  obtain ⟨b', mid₄, hb', h⟩ := bind_ok.1 h
  obtain ⟨rfl, rfl⟩ := pure_ok.1 h
  rw [Side.get_ok hfirst, Side.get_ok hsecond, Dec.fixed_ok.1 hb,
    Dec.fixed_ok.1 hb', put]
  simp only [List.append_assoc]

/-- The identities of both sides are keys. -/
def Readable (validKey : Bytes 32 → Bool) (p : CommonOwnershipProof) : Prop :=
  validKey p.first.identity.key.bytes = true ∧
    validKey p.second.identity.key.bytes = true

theorem get_reads {p : CommonOwnershipProof} (h : p.Readable validKey) :
    Reads (get validKey) p.put p := by
  simp only [put, List.append_assoc]
  refine Reads.bind (Side.get_reads h.1) ?_
  refine Reads.bind (Side.get_reads h.2) ?_
  refine Reads.bind (Dec.fixed_reads p.firstSignature.bytes) ?_
  exact Reads.map (Dec.fixed_reads p.secondSignature.bytes)

/-- What the decoder takes: two keys, and both signed. -/
def Fits (C : Crypto) (validKey : Bytes 32 → Bool) (p : CommonOwnershipProof) :
    Prop :=
  p.Readable validKey ∧ p.verify C = .ok ()

theorem faithful : Faithful encode (decode C validKey) (Fits C validKey) :=
  Dec.verified_faithful (fun _ => get_reads) get_ok

theorem create_fits (networkA networkB : NetworkId)
    (a b : PerNetworkIdentity C validKey) :
    (create networkA a networkB b).Fits C validKey := by
  have hsigned : ∀ (network network' : NetworkId)
      (x y : PerNetworkIdentity C validKey),
      Fits C validKey ⟨⟨network, x.id⟩, ⟨network', y.id⟩,
        x.sign (payload ⟨network, x.id⟩ ⟨network', y.id⟩),
        y.sign (payload ⟨network, x.id⟩ ⟨network', y.id⟩)⟩ := by
    intro network network' x y
    refine ⟨⟨x.valid, y.valid⟩, ?_⟩
    rw [verify, if_pos (x.verifies _), if_pos (y.verifies _)]
  rw [create]
  split
  · exact hsigned networkA networkB a b
  · exact hsigned networkB networkA b a

end CommonOwnershipProof

end Linking

/-! ## Key delivery -/

namespace EpochKeyRequest

variable {i rest : List UInt8}

theorem getIdentity_ok {id : PerNetworkIdentityId} :
    getIdentity validKey i = .ok (id, rest) ↔
      validKey id.key.bytes = true ∧ i = id.encode ++ rest :=
  Dec.identity_ok

theorem get_ok {r : EpochKeyRequest} (h : get validKey i = .ok (r, rest)) :
    i = r.put ++ rest := by
  obtain ⟨requester, mid₁, hrequester, h⟩ := bind_ok.1 h
  obtain ⟨keyPackage, mid₂, hpackage, h⟩ := bind_ok.1 h
  obtain ⟨b, mid₃, hb, h⟩ := bind_ok.1 h
  obtain ⟨rfl, rfl⟩ := pure_ok.1 h
  rw [(getIdentity_ok.1 hrequester).2, EpochKeyResponse.bounded_ok hpackage,
    Dec.fixed_ok.1 hb, put]
  simp only [List.append_assoc]

/-- The requester is a key, and the key package within its ceiling. -/
def Readable (validKey : Bytes 32 → Bool) (r : EpochKeyRequest) : Prop :=
  validKey r.requester.key.bytes = true ∧
    r.keyPackage.length ≤ maxKeyPackageBytes

theorem get_reads {r : EpochKeyRequest} (h : r.Readable validKey) :
    Reads (get validKey) r.put r := by
  simp only [put, List.append_assoc]
  refine Reads.bind (Dec.identity_reads h.1) ?_
  refine Reads.bind (EpochKeyResponse.bounded_reads h.2) ?_
  exact Reads.map (Dec.fixed_reads r.signature.bytes)

/-- What the decoder takes: a readable request that its requester signed. -/
def Fits (C : Crypto) (validKey : Bytes 32 → Bool) (r : EpochKeyRequest) :
    Prop :=
  r.Readable validKey ∧ r.verify C = .ok ()

theorem faithful : Faithful encode (decode C validKey) (Fits C validKey) :=
  Dec.verified_faithful (fun _ => get_reads) get_ok

theorem create_fits (requester : PerNetworkIdentity C validKey)
    {keyPackage : List UInt8} (h : keyPackage.length ≤ maxKeyPackageBytes) :
    (create requester keyPackage).Fits C validKey :=
  ⟨⟨requester.valid, h⟩, if_pos (requester.verifies _)⟩

end EpochKeyRequest

theorem EpochKeyResponse.faithful : Faithful encode decode Bounded :=
  Dec.plain_faithful (fun _ => get_reads) get_ok

/-- Six kinds of message are read back from their encodings whenever they fit
the decoder, and none of them has a second encoding that is accepted. -/
theorem messages_faithful (C : Crypto) (validKey : Bytes 32 → Bool) :
    Faithful Signal.encode (Signal.decode C validKey)
      (Signal.Fits C validKey) ∧
    Faithful MediaEnvelope.encode (MediaEnvelope.decode validKey)
      (MediaEnvelope.Fits validKey) ∧
    Faithful DirectMessage.encode (DirectMessage.decode C validKey)
      (DirectMessage.Fits C validKey) ∧
    Faithful CommonOwnershipProof.encode
      (CommonOwnershipProof.decode C validKey)
      (CommonOwnershipProof.Fits C validKey) ∧
    Faithful EpochKeyRequest.encode (EpochKeyRequest.decode C validKey)
      (EpochKeyRequest.Fits C validKey) ∧
    Faithful EpochKeyResponse.encode EpochKeyResponse.decode
      EpochKeyResponse.Bounded :=
  ⟨Signal.faithful, MediaEnvelope.faithful, DirectMessage.faithful,
    CommonOwnershipProof.faithful, EpochKeyRequest.faithful,
    EpochKeyResponse.faithful⟩

end Intranet
