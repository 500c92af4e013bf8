import Intranet.Proofs.Encoding
import Intranet.Ref.Keying
import Intranet.Ref.Sample

/-!
# When a call reuses a nonce

A seal hands the cipher a key, a nonce and a plaintext, and two seals must not
agree in the first two unless they agree in the third. The nonce of a frame is
hashed out of the call and the frame's sequence number. All participants of a
call hold the same key and each of them counts its own frames, so the numbers
of one participant never clash and those of two participants may. The nonce of
an envelope is hashed out of the call and both ends, and clashes where one end
sends the other a second key for the same call.

That digests agree on their first 24 bytes only if what was hashed agrees is
assumed, of the strings that were hashed and of no others.
-/

namespace Intranet

/-- What a seal hands the cipher. -/
structure CipherUse where
  key : Bytes 32
  nonce : Bytes 24
  plaintext : List UInt8
deriving DecidableEq

/-- No nonce is used twice under one key for different plaintexts. -/
def NoReuse (uses : List CipherUse) : Prop :=
  ∀ a ∈ uses, ∀ b ∈ uses, a.key = b.key → a.nonce = b.nonce →
    a.plaintext = b.plaintext

/-- One call of `seal_frame` by a participant. -/
structure FrameSeal where
  participant : PerNetworkIdentityId
  sequence : UInt64
  plaintext : List UInt8
deriving DecidableEq

def FrameSeal.use (C : Crypto) (key : CallKey) (call : CallId)
    (s : FrameSeal) : CipherUse :=
  ⟨key.bytes, CallKey.frameNonce C call s.sequence, s.plaintext⟩

theorem FrameSeal.sealFrame_eq (C : Crypto) (A : Aead) (key : CallKey)
    (call : CallId) (s : FrameSeal) :
    key.sealFrame C A call s.sequence s.plaintext =
      ⟨s.sequence, A.encrypt (s.use C key call).key (s.use C key call).nonce
        (s.use C key call).plaintext⟩ := rfl

/-- One call of `CallKeyEnvelope::seal`. -/
structure KeySeal where
  sender : PerNetworkIdentityId
  recipient : PerNetworkIdentityId
  call : CallId
  key : CallKey
deriving DecidableEq

/-- Nothing is sealed where the key agreement fails. -/
def KeySeal.use (C : Crypto) (validKey : Bytes 32 → Bool) (dh : DiffieHellman)
    (s : KeySeal) : Option CipherUse :=
  (agree C validKey dh s.sender s.recipient).map fun shared =>
    ⟨shared, CallKeyEnvelope.envelopeNonce C s.call s.sender s.recipient,
      s.key.bytes.toList⟩

theorem KeySeal.sealKey_eq (C : Crypto) (A : Aead)
    (validKey : Bytes 32 → Bool) (dh : DiffieHellman) (s : KeySeal) :
    CallKeyEnvelope.sealKey C A validKey dh s.sender s.recipient s.call s.key =
      match s.use C validKey dh with
      | none => .error .keyAgreementFailed
      | some use => .ok ⟨s.call, s.sender, s.recipient,
          A.encrypt use.key use.nonce use.plaintext⟩ := by
  unfold CallKeyEnvelope.sealKey KeySeal.use
  cases agree C validKey dh s.sender s.recipient with
  | none => rfl
  | some shared => rfl

/-- Hashing tells these strings apart by the first 24 bytes of the digest. -/
def NoncesApart (C : Crypto) (inputs : List (List UInt8)) : Prop :=
  ∀ x ∈ inputs, ∀ y ∈ inputs,
    (C.hashBytes x).nonce = (C.hashBytes y).nonce → x = y

instance (C : Crypto) (inputs : List (List UInt8)) :
    Decidable (NoncesApart C inputs) :=
  inferInstanceAs (Decidable (∀ x ∈ inputs, ∀ y ∈ inputs,
    (C.hashBytes x).nonce = (C.hashBytes y).nonce → x = y))

/-! ## What the nonces are made of -/

theorem CallKey.frameNonceBytes_inj {call : CallId} {m n : UInt64}
    (h : frameNonceBytes call m = frameNonceBytes call n) : m = n := by
  have hu64 : Enc.u64 m = Enc.u64 n := by
    simpa only [frameNonceBytes, List.append_cancel_left_eq] using h
  refine Enc.u64_delimited.injective ?_ hu64
  simp only [Enc.u64, Enc.length_bigEndian]
  decide

theorem CallKeyEnvelope.envelopeNonceBytes_inj {call call' : CallId}
    {sender sender' recipient recipient' : PerNetworkIdentityId}
    (h : envelopeNonceBytes call sender recipient =
      envelopeNonceBytes call' sender' recipient') :
    call = call' ∧ sender = sender' ∧ recipient = recipient' := by
  have hids : Enc.fixed call.bytes ++ (sender.encode ++ recipient.encode) =
      Enc.fixed call'.bytes ++ (sender'.encode ++ recipient'.encode) := by
    simpa only [envelopeNonceBytes, List.append_assoc,
      List.append_cancel_left_eq] using h
  have hlen : (Enc.fixed call.bytes ++
      (sender.encode ++ recipient.encode)).length < 2 ^ 64 := by
    simp only [List.length_append, PerNetworkIdentityId.encode, Enc.fixed,
      Bytes.length_eq]
    decide
  obtain ⟨hcall, hids, hlen⟩ := Enc.fixed_delimited.split hlen hids
  obtain ⟨hsender, hids, hlen⟩ :=
    PerNetworkIdentityId.delimited.split hlen hids
  exact ⟨CallId.ext hcall, hsender,
    PerNetworkIdentityId.delimited.injective hlen hids⟩

/-! ## Frames and envelopes -/

/-- The strings whose digests a run takes its nonces from. -/
def nonceInputs (call : CallId) (frames : List FrameSeal)
    (envelopes : List KeySeal) : List (List UInt8) :=
  (frames.map fun s => CallKey.frameNonceBytes call s.sequence) ++
    envelopes.map fun s =>
      CallKeyEnvelope.envelopeNonceBytes s.call s.sender s.recipient

section

variable {C : Crypto} {validKey : Bytes 32 → Bool} {dh : DiffieHellman}
  {key : CallKey} {call : CallId} {frames : List FrameSeal}
  {envelopes : List KeySeal}

theorem frames_noReuse_iff
    (hown : (frames.map fun s => (s.participant, s.sequence)).Nodup)
    (hapart : NoncesApart C (nonceInputs call frames envelopes)) :
    NoReuse (frames.map (FrameSeal.use C key call)) ↔
      ∀ a ∈ frames, ∀ b ∈ frames, a.participant ≠ b.participant →
        a.sequence = b.sequence → a.plaintext = b.plaintext := by
  constructor
  · intro h a ha b hb _ hsequence
    refine h _ (List.mem_map_of_mem ha) _ (List.mem_map_of_mem hb) rfl ?_
    rw [FrameSeal.use, FrameSeal.use, hsequence]
  · intro h x hx y hy _ hnonce
    obtain ⟨a, ha, rfl⟩ := List.mem_map.1 hx
    obtain ⟨b, hb, rfl⟩ := List.mem_map.1 hy
    have hsequence : a.sequence = b.sequence :=
      CallKey.frameNonceBytes_inj (hapart _
        (List.mem_append_left _ (List.mem_map_of_mem ha)) _
        (List.mem_append_left _ (List.mem_map_of_mem hb)) hnonce)
    by_cases hwho : a.participant = b.participant
    · -- one participant does not use a number twice: it is one seal
      have hab : a = b := List.inj_on_of_nodup_map hown ha hb
        (Prod.ext hwho hsequence)
      rw [hab]
    · exact h a ha b hb hwho hsequence

theorem KeySeal.use_eq_some {s : KeySeal} {u : CipherUse}
    (h : s.use C validKey dh = some u) :
    validKey s.recipient.key.bytes = true ∧
      u.nonce = CallKeyEnvelope.envelopeNonce C s.call s.sender s.recipient ∧
      u.plaintext = s.key.bytes.toList := by
  obtain ⟨shared, hshared, rfl⟩ := Option.map_eq_some_iff.1 h
  refine ⟨?_, rfl, rfl⟩
  unfold agree at hshared
  split at hshared
  · next hvalid => exact hvalid
  · cases hshared

theorem envelopes_noReuse_iff
    (hapart : NoncesApart C (nonceInputs call frames envelopes)) :
    NoReuse (envelopes.filterMap (KeySeal.use C validKey dh)) ↔
      ∀ a ∈ envelopes, ∀ b ∈ envelopes, a.call = b.call →
        a.sender = b.sender → a.recipient = b.recipient →
        validKey a.recipient.key.bytes = true → a.key = b.key := by
  constructor
  · intro h a ha b hb hcall hsender hrecipient hvalid
    have huse : ∀ s : KeySeal, s.call = a.call → s.sender = a.sender →
        s.recipient = a.recipient → s.use C validKey dh = some
          ⟨(C.hashBytes (Enc.domain "intranet.key-agreement.v1" ++
              Enc.fixed (dh a.sender a.recipient))).bytes,
            CallKeyEnvelope.envelopeNonce C a.call a.sender a.recipient,
            s.key.bytes.toList⟩ := by
      intro s hc hs hr
      rw [KeySeal.use, hc, hs, hr, agree, if_pos hvalid]
      rfl
    have hplain := h _ (List.mem_filterMap.2 ⟨a, ha, huse a rfl rfl rfl⟩) _
      (List.mem_filterMap.2 ⟨b, hb, huse b hcall.symm hsender.symm
        hrecipient.symm⟩) rfl rfl
    exact CallKey.ext (Bytes.toNats_injective
      (congrArg (List.map UInt8.toNat) hplain))
  · intro h x hx y hy _ hnonce
    obtain ⟨a, ha, hxa⟩ := List.mem_filterMap.1 hx
    obtain ⟨b, hb, hyb⟩ := List.mem_filterMap.1 hy
    obtain ⟨hvalid, hxn, hxp⟩ := KeySeal.use_eq_some hxa
    obtain ⟨-, hyn, hyp⟩ := KeySeal.use_eq_some hyb
    rw [hxn, hyn] at hnonce
    obtain ⟨hcall, hsender, hrecipient⟩ :=
      CallKeyEnvelope.envelopeNonceBytes_inj (hapart _
        (List.mem_append_right _ (List.mem_map_of_mem ha)) _
        (List.mem_append_right _ (List.mem_map_of_mem hb)) hnonce)
    rw [hxp, hyp, h a ha b hb hcall hsender hrecipient hvalid]

/-- A call reuses no nonce exactly when no two participants number different
frames alike and nobody sends a peer two keys for one call. -/
theorem noReuse_iff
    (hown : (frames.map fun s => (s.participant, s.sequence)).Nodup)
    (hapart : NoncesApart C (nonceInputs call frames envelopes)) :
    NoReuse (frames.map (FrameSeal.use C key call)) ∧
        NoReuse (envelopes.filterMap (KeySeal.use C validKey dh)) ↔
      (∀ a ∈ frames, ∀ b ∈ frames, a.participant ≠ b.participant →
        a.sequence = b.sequence → a.plaintext = b.plaintext) ∧
      ∀ a ∈ envelopes, ∀ b ∈ envelopes, a.call = b.call →
        a.sender = b.sender → a.recipient = b.recipient →
        validKey a.recipient.key.bytes = true → a.key = b.key :=
  and_congr (frames_noReuse_iff hown hapart) (envelopes_noReuse_iff hapart)

end

/-- A stand-in for BLAKE3 whose digest starts with the last 24 bytes. -/
def Crypto.tail24 : Crypto where
  hashBytes b := ⟨last32 (b ++ List.replicate 8 0)⟩
  verify := Crypto.sample.verify

/-- Two participants that number their frames apart. -/
theorem noReuse_iff_apart :
    let call : CallId := ⟨Bytes.ofNat 32 3⟩
    let frames : List FrameSeal := [⟨Sample.identity 1, 0, [1]⟩,
      ⟨Sample.identity 2, 1, [2]⟩, ⟨Sample.identity 1, 2, [3]⟩]
    let envelopes : List KeySeal := [⟨Sample.identity 1, Sample.identity 2,
      call, ⟨Bytes.ofNat 32 9⟩⟩]
    NoReuse (frames.map (FrameSeal.use .tail24 ⟨Bytes.ofNat 32 9⟩ call)) ∧
      NoReuse (envelopes.filterMap (KeySeal.use .tail24 (fun _ => true)
        fun _ _ => Bytes.ofNat 32 4)) := by
  intro call frames envelopes
  exact (noReuse_iff (by decide) (by decide +kernel)).2
    ⟨by decide, by decide⟩

/-- Two participants that both start counting at zero. -/
theorem nonce_reused :
    ¬ ∀ (C : Crypto) (key : CallKey) (call : CallId)
        (frames : List FrameSeal),
      (frames.map fun s => (s.participant, s.sequence)).Nodup →
      NoncesApart C (nonceInputs call frames []) →
      NoReuse (frames.map (FrameSeal.use C key call)) := by
  intro h
  have hreuse := h .tail24 ⟨Bytes.ofNat 32 9⟩ ⟨Bytes.ofNat 32 3⟩
    [⟨Sample.identity 1, 0, [1]⟩, ⟨Sample.identity 2, 0, [2]⟩] (by decide)
    (by decide +kernel)
  exact absurd (hreuse _ List.mem_cons_self _
    (List.mem_cons_of_mem _ List.mem_cons_self) rfl rfl) (by decide)

end Intranet
