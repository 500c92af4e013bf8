import Intranet.Proofs.Dec
import Intranet.Ref.Sample
import Intranet.Ref.Signal

/-!
# Whom a call signal speaks for

What a node accepts as a signal is the encoding of that signal, and the
signature in it verifies under its sender (`decode_ok`); the node further
compares the sender with the connection. The field of the body that names a
proposer, or the sender of a key, is compared with nothing. The code is right
about it exactly when two runs of 32 bytes of the message are the same
(`signal_speaks_for_signer_iff`).
-/

namespace Intranet

open Reader

/-! ## What the readers accept -/

namespace RealtimeWire

variable {validKey : Bytes 32 → Bool} {i rest : List UInt8}

theorem getIdentity_ok {id : PerNetworkIdentityId} :
    getIdentity validKey i = .ok (id, rest) ↔
      validKey id.key.bytes = true ∧ i = id.encode ++ rest :=
  Dec.identity_ok

theorem getIdentity_reads {id : PerNetworkIdentityId}
    (h : validKey id.key.bytes = true) :
    Reads (getIdentity validKey) id.encode id :=
  Dec.identity_reads h

theorem getCallId_ok {call : CallId}
    (h : getCallId i = .ok (call, rest)) : i = Enc.fixed call.bytes ++ rest :=
  Dec.wrapped_ok CallId.bytes Dec.fixed_ok.1 (fun _ => rfl) h

theorem getCallId_reads (call : CallId) :
    Reads getCallId (Enc.fixed call.bytes) call :=
  Reads.map (Dec.fixed_reads call.bytes)

end RealtimeWire

open RealtimeWire

section Bodies

variable {validKey : Bytes 32 → Bool} {i rest : List UInt8}

theorem Topology.get_ok {topology : Topology}
    (h : Topology.get validKey i = .ok (topology, rest)) :
    i = topology.put ++ rest := by
  obtain ⟨d, mid, hd, h⟩ := bind_ok.1 h
  rw [Dec.variant_ok.1 hd]
  split at h
  · obtain ⟨rfl, rfl⟩ := pure_ok.1 h
    rfl
  · obtain ⟨relay, mid', hrelay, h⟩ := bind_ok.1 h
    obtain ⟨rfl, rfl⟩ := pure_ok.1 h
    rw [(getIdentity_ok.1 hrelay).2]
    rfl
  · exact (Dec.fail_ok.1 h).elim

theorem RenegotiationTrigger.get_ok {trigger : RenegotiationTrigger}
    (h : RenegotiationTrigger.get i = .ok (trigger, rest)) :
    i = Enc.u8 trigger.code ++ rest := by
  obtain ⟨d, mid, hd, h⟩ := bind_ok.1 h
  rw [Dec.u8_ok.1 hd]
  split at h
  · obtain ⟨rfl, rfl⟩ := pure_ok.1 h
    rfl
  · obtain ⟨rfl, rfl⟩ := pure_ok.1 h
    rfl
  · obtain ⟨rfl, rfl⟩ := pure_ok.1 h
    rfl
  · exact (Dec.fail_ok.1 h).elim

namespace SignalBody

theorem getInvite_ok {body : SignalBody}
    (h : getInvite validKey i = .ok (body, rest)) :
    Enc.variant 0 ++ i = body.put ++ rest := by
  obtain ⟨call, mid₁, hcall, h⟩ := bind_ok.1 h
  obtain ⟨sender, mid₂, hsender, h⟩ := bind_ok.1 h
  obtain ⟨recipient, mid₃, hrecipient, h⟩ := bind_ok.1 h
  obtain ⟨sealedKey, mid₄, hsealed, h⟩ := bind_ok.1 h
  obtain ⟨u, mid₅, hcheck, h⟩ := bind_ok.1 h
  obtain ⟨-, rfl⟩ := check_ok.1 hcheck
  obtain ⟨rfl, rfl⟩ := pure_ok.1 h
  rw [getCallId_ok hcall, (getIdentity_ok.1 hsender).2,
    (getIdentity_ok.1 hrecipient).2, Dec.bytes_ok hsealed, put]
  simp only [List.append_assoc]

theorem getPropose_ok {body : SignalBody}
    (h : getPropose validKey i = .ok (body, rest)) :
    Enc.variant 1 ++ i = body.put ++ rest := by
  obtain ⟨call, mid₁, hcall, h⟩ := bind_ok.1 h
  obtain ⟨proposer, mid₂, hproposer, h⟩ := bind_ok.1 h
  obtain ⟨topology, mid₃, htopology, h⟩ := bind_ok.1 h
  obtain ⟨trigger, mid₄, htrigger, h⟩ := bind_ok.1 h
  obtain ⟨millis, mid₅, hmillis, h⟩ := bind_ok.1 h
  obtain ⟨rfl, rfl⟩ := pure_ok.1 h
  rw [getCallId_ok hcall, (getIdentity_ok.1 hproposer).2,
    Topology.get_ok htopology, RenegotiationTrigger.get_ok htrigger,
    Dec.i64_ok.1 hmillis, put]
  simp only [List.append_assoc]

theorem get_ok {body : SignalBody}
    (h : get validKey i = .ok (body, rest)) : i = body.put ++ rest := by
  obtain ⟨d, mid, hd, h⟩ := bind_ok.1 h
  rw [Dec.variant_ok.1 hd]
  split at h
  · exact getInvite_ok h
  · exact getPropose_ok h
  · obtain ⟨call, mid', hcall, h⟩ := bind_ok.1 h
    obtain ⟨rfl, rfl⟩ := pure_ok.1 h
    rw [getCallId_ok hcall, put, List.append_assoc]
  · exact (Dec.fail_ok.1 h).elim

/-! ## Reading a body back -/

/-- The reader takes the body: its identities are keys, and a sealed key is
within its bound. -/
def Readable (validKey : Bytes 32 → Bool) : SignalBody → Prop
  | invite envelope => validKey envelope.sender.key.bytes = true ∧
      validKey envelope.recipient.key.bytes = true ∧
      envelope.sealedKey.length ≤ maxSealedKeyBytes
  | propose _ proposal => validKey proposal.proposer.key.bytes = true ∧
      ∀ relay, proposal.topology = .relayed relay →
        validKey relay.key.bytes = true
  | leave _ => True

theorem topology_reads {topology : Topology}
    (h : ∀ relay, topology = .relayed relay → validKey relay.key.bytes = true) :
    Reads (Topology.get validKey) topology.put topology := by
  cases topology with
  | mesh => exact Dec.variant_pure_reads rfl
  | relayed relay =>
      exact Dec.variant_reads (Reads.map (getIdentity_reads (h relay rfl)))

theorem trigger_reads (trigger : RenegotiationTrigger) :
    Reads RenegotiationTrigger.get (Enc.u8 trigger.code) trigger := by
  cases trigger <;> exact Dec.variant_pure_reads rfl

theorem get_reads {body : SignalBody} (h : body.Readable validKey) :
    Reads (get validKey) body.put body := by
  cases body with
  | invite envelope =>
      obtain ⟨hsender, hrecipient, hsize⟩ := h
      simp only [put, List.append_assoc]
      refine Dec.variant_reads (q := fun d => _) ?_
      refine Reads.bind (getCallId_reads envelope.call) ?_
      refine Reads.bind (getIdentity_reads hsender) ?_
      refine Reads.bind (getIdentity_reads hrecipient) ?_
      refine Reads.andThen (Dec.bytes_reads envelope.sealedKey) ?_
      exact Reads.step (Reads.check hsize) (Reads.pure _)
  | propose call proposal =>
      obtain ⟨hproposer, hrelay⟩ := h
      simp only [put, List.append_assoc]
      refine Dec.variant_reads (q := fun d => _) ?_
      refine Reads.bind (getCallId_reads call) ?_
      refine Reads.bind (getIdentity_reads hproposer) ?_
      refine Reads.bind (topology_reads hrelay) ?_
      refine Reads.bind (trigger_reads proposal.trigger) ?_
      exact Reads.map (Dec.i64_reads proposal.proposedAt.millis)
  | leave call =>
      exact Dec.variant_reads (Reads.map (getCallId_reads call))

end SignalBody

end Bodies

namespace Signal

variable {C : Crypto} {validKey : Bytes 32 → Bool}

/-! ## Whole signals -/

/-- The encoding of a readable signal is read back as the signal. -/
theorem decode_encode {s : Signal} (hbody : s.body.Readable validKey)
    (hsender : validKey s.sender.key.bytes = true)
    (hverify : s.verify C = .ok ()) (hlen : s.encode.length < 2 ^ 64) :
    decode C validKey s.encode = .ok s := by
  have hreads : Reads (get validKey)
      (s.body.put ++ (s.sender.encode ++ Enc.fixed s.signature.bytes)) s := by
    refine Reads.bind (SignalBody.get_reads hbody) ?_
    refine Reads.bind (getIdentity_reads hsender) ?_
    exact Reads.map (Dec.fixed_reads s.signature.bytes)
  have hencode : s.encode = Enc.domain wireDomain ++
      (s.body.put ++ (s.sender.encode ++ Enc.fixed s.signature.bytes)) := by
    simp only [encode, List.append_assoc]
  rw [hencode] at hlen ⊢
  exact Dec.framed_reads hreads
    (Reads.step (Reads.ofExcept hverify) (Reads.pure s)) hlen

/-- What is accepted is the encoding of what it is read as, and signed by the
sender it names. -/
theorem decode_ok {bytes : List UInt8} {s : Signal}
    (h : decode C validKey bytes = .ok s) :
    bytes = s.encode ∧ s.verify C = .ok () := by
  obtain ⟨x, signal, rest, hbytes, hget, h⟩ := Dec.framed_ok h
  obtain ⟨u, i₁, hcheck, h⟩ := bind_ok.1 h
  obtain ⟨hverify, rfl⟩ := ofExcept_ok.1 hcheck
  obtain ⟨rfl, rfl⟩ := pure_ok.1 h
  obtain ⟨body, i₂, hbody, hget⟩ := bind_ok.1 hget
  obtain ⟨sender, i₃, hsender, hget⟩ := bind_ok.1 hget
  obtain ⟨b, i₄, hb, hget⟩ := bind_ok.1 hget
  obtain ⟨rfl, rfl⟩ := pure_ok.1 hget
  refine ⟨?_, hverify⟩
  rw [hbytes, SignalBody.get_ok hbody, (getIdentity_ok.1 hsender).2,
    Dec.fixed_ok.1 hb, encode]
  simp only [List.append_assoc, List.append_nil]

/-! ## The fields that name somebody -/

end Signal

/-- Whom the body itself names: the proposer of a proposal, the sender of a
key. -/
def SignalBody.attributedTo : SignalBody → Option PerNetworkIdentityId
  | invite envelope => some envelope.sender
  | propose _ proposal => some proposal.proposer
  | leave _ => none

namespace Signal

variable {C : Crypto} {validKey : Bytes 32 → Bool} {s : Signal}

/-- The signal speaks only for its signer. -/
def SpeaksForSigner (s : Signal) : Prop :=
  ∀ named, s.body.attributedTo = some named → named = s.sender

/-- Where the body starts in an encoded signal. -/
def bodyStart : ℕ := (Enc.domain wireDomain).length

/-- The 32 bytes of a message from a position on. -/
def identityAt (bytes : List UInt8) (position : ℕ) : List UInt8 :=
  (bytes.drop position).take 32

/-- The message is a `Leave`, or the identity behind the call of the body is,
byte by byte, the one ahead of the signature. -/
def NamesAgree (bytes : List UInt8) : Prop :=
  bytes[bodyStart]? = some 2 ∨
    identityAt bytes (bodyStart + 33) = identityAt bytes (bytes.length - 96)

theorem identityAt_append {front back : List UInt8} {position : ℕ}
    {id : PerNetworkIdentityId} (h : front.length = position) :
    identityAt (front ++ (id.encode ++ back)) position =
      id.key.bytes.toList := by
  rw [identityAt, List.drop_left' h]
  exact List.take_left' id.key.bytes.length_eq

theorem identityAt_sender (s : Signal) :
    identityAt s.encode (s.encode.length - 96) = s.sender.key.bytes.toList := by
  have hsplit : s.encode = (Enc.domain wireDomain ++ s.body.put) ++
      (s.sender.encode ++ Enc.fixed s.signature.bytes) := by
    simp only [encode, List.append_assoc]
  have htail : (s.sender.encode ++ Enc.fixed s.signature.bytes).length = 96 := by
    rw [List.length_append, PerNetworkIdentityId.encode, Enc.fixed, Enc.fixed,
      Bytes.length_eq, Bytes.length_eq]
  have hlen : s.encode.length =
      (Enc.domain wireDomain ++ s.body.put).length + 96 := by
    rw [hsplit, ← htail]
    exact List.length_append
  rw [hsplit] at hlen ⊢
  exact identityAt_append (by omega)

/-- A body that names somebody: a discriminant that is not the one of a
`Leave`, the call, and the name. -/
theorem put_of_attributedTo {body : SignalBody} {named : PerNetworkIdentityId}
    (h : body.attributedTo = some named) :
    ∃ d : UInt8, d ≠ 2 ∧ ∃ (call : CallId) (back : List UInt8),
      body.put = d :: (Enc.fixed call.bytes ++ (named.encode ++ back)) := by
  cases body with
  | invite envelope =>
      cases h
      refine ⟨0, by decide, envelope.call,
        envelope.recipient.encode ++ Enc.bytes envelope.sealedKey, ?_⟩
      simp only [SignalBody.put, Enc.variant, Enc.u8, List.append_assoc,
        List.cons_append, List.nil_append]
  | propose call proposal =>
      cases h
      refine ⟨1, by decide, call, proposal.topology.put ++
        (Enc.u8 proposal.trigger.code ++ Enc.i64 proposal.proposedAt.millis), ?_⟩
      simp only [SignalBody.put, Enc.variant, Enc.u8, List.append_assoc,
        List.cons_append, List.nil_append]
  | leave call => cases h

theorem speaksForSigner_iff (s : Signal) :
    s.SpeaksForSigner ↔ NamesAgree s.encode := by
  have hsplit : s.encode = Enc.domain wireDomain ++
      (s.body.put ++ (s.sender.encode ++ Enc.fixed s.signature.bytes)) := by
    simp only [encode, List.append_assoc]
  rw [NamesAgree, identityAt_sender]
  cases hnamed : s.body.attributedTo with
  | none =>
      refine iff_of_true (fun named h => ?_) (.inl ?_)
      · rw [hnamed] at h
        cases h
      · cases hbody : s.body with
        | leave call =>
            rw [hsplit, hbody, bodyStart, List.getElem?_append_right le_rfl,
              Nat.sub_self]
            rfl
        | invite envelope =>
            rw [hbody] at hnamed
            cases hnamed
        | propose call proposal =>
            rw [hbody] at hnamed
            cases hnamed
  | some named =>
      obtain ⟨d, hd, call, back, hput⟩ := put_of_attributedTo hnamed
      have hdiscriminant : s.encode[bodyStart]? = some d := by
        rw [hsplit, hput, bodyStart, List.getElem?_append_right le_rfl,
          Nat.sub_self]
        rfl
      have hinner : identityAt s.encode (bodyStart + 33) =
          named.key.bytes.toList := by
        have hlayout : s.encode = (Enc.domain wireDomain ++
            (d :: Enc.fixed call.bytes)) ++ (named.encode ++
              (back ++ (s.sender.encode ++ Enc.fixed s.signature.bytes))) := by
          rw [hsplit, hput]
          simp only [List.append_assoc, List.cons_append]
        rw [hlayout]
        refine identityAt_append ?_
        rw [List.length_append, List.length_cons, Enc.fixed, Bytes.length_eq,
          bodyStart]
      rw [hdiscriminant, hinner]
      constructor
      · intro hspeaks
        rw [hspeaks named hnamed]
        exact .inr rfl
      · intro hagree other hother
        rw [hnamed] at hother
        cases hother
        rcases hagree with hleave | hsame
        · exact absurd (Option.some.inj hleave) hd
        · exact PerNetworkIdentityId.ext (VerifyingKey.ext
            (Bytes.toNats_injective (congrArg (List.map UInt8.toNat) hsame)))

theorem received_eq_some_iff {peer : PerNetworkIdentityId}
    {bytes : List UInt8} :
    received C validKey peer bytes = some s ↔
      decode C validKey bytes = .ok s ∧ s.sender = peer := by
  rw [received]
  split
  · next signal hdecode =>
      rw [hdecode, Except.ok.injEq]
      split
      · next hpeer =>
          rw [Option.some.injEq]
          exact ⟨fun h => ⟨h, h ▸ hpeer⟩, fun h => h.1⟩
      · next hpeer =>
          refine iff_of_false nofun fun h => hpeer ?_
          rw [h.1, h.2]
  · next hdecode =>
      rw [hdecode]
      exact iff_of_false nofun fun h => nomatch h.1

/-- A signal that a node reports is signed by its sender, and the sender is
the peer it came from. It speaks only for that sender, in the body as well, if
and only if the message is a `Leave` or carries the same 32 bytes in both
places that name somebody. -/
theorem signal_speaks_for_signer_iff (C : Crypto) (validKey : Bytes 32 → Bool)
    (peer : PerNetworkIdentityId) (bytes : List UInt8)
    (h : received C validKey peer bytes = some s) :
    (s.verify C = .ok () ∧ s.sender = peer) ∧
      (s.SpeaksForSigner ↔ NamesAgree bytes) := by
  obtain ⟨hdecode, hpeer⟩ := received_eq_some_iff.1 h
  obtain ⟨rfl, hverify⟩ := decode_ok hdecode
  exact ⟨⟨hverify, hpeer⟩, speaksForSigner_iff s⟩

/-! ### A proposal in another's name -/

/-- Member 1 signs a proposal to return to mesh, of which `proposer` is the
author. -/
def sampleProposal (proposer : ℕ) : Signal :=
  ⟨.propose ⟨Bytes.ofNat 32 3⟩
    ⟨Sample.identity proposer, .mesh, .belowThreshold, ⟨11⟩⟩,
    Sample.identity 1, Sample.signature 1 0⟩

theorem received_sampleProposal (proposer : ℕ) :
    received .sample (fun _ => true) (Sample.identity 1)
      (sampleProposal proposer).encode = some (sampleProposal proposer) := by
  refine received_eq_some_iff.2 ⟨decode_encode ?_ rfl ?_ ?_, rfl⟩
  · exact ⟨rfl, fun _ _ => rfl⟩
  · exact if_pos (Sample.verify_first 1 _)
  · have hdomain : (Enc.domain wireDomain).length = 36 := by
      decide +kernel
    simp [encode, sampleProposal, SignalBody.put, hdomain, Enc.variant, Enc.u8,
      Enc.i64, Enc.u64, Enc.fixed, PerNetworkIdentityId.encode, Topology.put,
      Enc.length_bigEndian, Bytes.length_eq]

theorem signal_speaks_for_signer_own :
    NamesAgree (sampleProposal 1).encode := by
  refine (signal_speaks_for_signer_iff .sample (fun _ => true)
    (Sample.identity 1) _ (received_sampleProposal 1)).2.1 fun named h => ?_
  cases h
  rfl

/-- Member 1 makes a proposal that everybody takes for one of member 2. -/
theorem proposal_in_anothers_name :
    ¬ ∀ (C : Crypto) (validKey : Bytes 32 → Bool) (peer : PerNetworkIdentityId)
        (bytes : List UInt8) (s : Signal),
      received C validKey peer bytes = some s → s.SpeaksForSigner := by
  intro h
  have hforged := h .sample (fun _ => true) (Sample.identity 1) _ _
    (received_sampleProposal 2) (Sample.identity 2) rfl
  exact absurd hforged (by decide)

end Signal

end Intranet
