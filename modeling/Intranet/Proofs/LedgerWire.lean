import Intranet.Proofs.Encoding
import Intranet.Proofs.LedgerSync

/-!
# What peers can read of a ledger's answers

A ledger takes in whatever is signed by a member for its network. The decoder
on the other side asks for one thing more: that the minutes of a window are
those of a day. So an advertisement arrives exactly when they are, and a
response exactly when all of its advertisements do. Nothing else that a ledger
can hold is lost on the way.
-/

namespace Intranet

open Reader

/-- Both ends are minutes of a day. -/
def TimeOfDayWindow.InDay (window : TimeOfDayWindow) : Prop :=
  window.startMinute < 1440 ∧ window.endMinute < 1440

/-- An advertisement whose window, if it has one, lies within a day. -/
def CapabilityAdvertisement.InDay (a : CapabilityAdvertisement) : Prop :=
  ∀ window, a.bandwidthCap.activeWindow = some window → window.InDay

namespace LedgerWire

variable {C : Crypto} {validKey : Bytes 32 → Bool} {i rest : List UInt8}
  {a : CapabilityAdvertisement}

/-! ## Fields -/

theorem unknown_ok {α : Type} {name : String} {d : UInt8}
    {r : α × List UInt8} : unknown name d i = .ok r ↔ False :=
  Dec.fail_ok

theorem getIdentity_reads {id : PerNetworkIdentityId}
    (h : validKey id.key.bytes = true) :
    Reads (getIdentity validKey) id.encode id :=
  Dec.identity_reads h

/-- A minute of a day fits the narrower type. -/
theorem minute_reads {m : UInt16} (h : m < 1440) :
    Reads (minute m.toUInt32) [] m := by
  have hm : m.toUInt32 < 1440 := by
    rw [UInt32.lt_iff_toNat_lt, UInt16.toNat_toUInt32]
    exact UInt16.lt_iff_toNat_lt.1 h
  refine Reads.step (Reads.check hm) ?_
  rw [UInt16.toUInt16_toUInt32]
  exact Reads.pure m

theorem minute_ok {value : UInt32} {m : UInt16}
    (h : minute value i = .ok (m, rest)) : m < 1440 := by
  obtain ⟨u, mid, hcheck, h⟩ := bind_ok.1 h
  obtain ⟨hvalue, rfl⟩ := check_ok.1 hcheck
  obtain ⟨rfl, rfl⟩ := pure_ok.1 h
  rw [UInt32.lt_iff_toNat_lt] at hvalue
  rw [UInt16.lt_iff_toNat_lt, UInt32.toNat_toUInt16]
  exact (Nat.mod_le _ _).trans_lt hvalue

theorem getWindow_reads {window : TimeOfDayWindow} (h : window.InDay) :
    Reads getWindow (putWindow window) window := by
  refine Reads.bind (Dec.u32_reads window.startMinute.toUInt32) ?_
  refine Reads.step (minute_reads h.1) ?_
  refine Reads.andThen (Dec.u32_reads window.endMinute.toUInt32) ?_
  exact Reads.step (minute_reads h.2) (Reads.pure window)

theorem getWindow_ok {window : TimeOfDayWindow}
    (h : getWindow i = .ok (window, rest)) : window.InDay := by
  obtain ⟨start, i₁, h₁, h⟩ := bind_ok.1 h
  obtain ⟨startMinute, i₂, h₂, h⟩ := bind_ok.1 h
  obtain ⟨stop, i₃, h₃, h⟩ := bind_ok.1 h
  obtain ⟨endMinute, i₄, h₄, h⟩ := bind_ok.1 h
  obtain ⟨rfl, rfl⟩ := pure_ok.1 h
  exact ⟨minute_ok h₂, minute_ok h₄⟩

theorem getComputeClass_reads (c : ComputeClass) :
    Reads getComputeClass (Enc.u8 c.discriminant) c := by
  cases c <;> exact Dec.variant_pure_reads rfl

/-! ## Advertisements -/

theorem getAdvertisement_reads (hkey : validKey a.node.key.bytes = true)
    (hday : a.InDay) :
    Reads (getAdvertisement validKey) (putAdvertisement a) a := by
  simp only [putAdvertisement, List.append_assoc]
  refine Reads.bind (Dec.fixed_reads a.network.bytes) ?_
  refine Reads.bind (getIdentity_reads hkey) ?_
  refine Reads.bind (Dec.u64_reads a.storageOffered) ?_
  refine Reads.bind (Dec.u64_reads a.bandwidthCap.upBytesPerSec) ?_
  refine Reads.bind (Dec.u64_reads a.bandwidthCap.downBytesPerSec) ?_
  refine Reads.bind (Dec.option_reads fun window hwindow =>
    getWindow_reads (hday window hwindow)) ?_
  refine Reads.bind (Dec.bool_reads a.relayBootstrapWilling) ?_
  refine Reads.bind (Dec.bool_reads a.relayMediaWilling) ?_
  refine Reads.bind (getComputeClass_reads a.computeClass) ?_
  refine Reads.bind (Dec.i64_reads a.issuedAt.millis) ?_
  exact Reads.map (Dec.fixed_reads a.signature.bytes)

theorem getAdvertisement_ok
    (h : getAdvertisement validKey i = .ok (a, rest)) : a.InDay := by
  obtain ⟨network, i₁, h₁, h⟩ := bind_ok.1 h
  obtain ⟨node, i₂, h₂, h⟩ := bind_ok.1 h
  obtain ⟨storage, i₃, h₃, h⟩ := bind_ok.1 h
  obtain ⟨up, i₄, h₄, h⟩ := bind_ok.1 h
  obtain ⟨down, i₅, h₅, h⟩ := bind_ok.1 h
  obtain ⟨window, i₆, h₆, h⟩ := bind_ok.1 h
  obtain ⟨bootstrap, i₇, h₇, h⟩ := bind_ok.1 h
  obtain ⟨media, i₈, h₈, h⟩ := bind_ok.1 h
  obtain ⟨compute, i₉, h₉, h⟩ := bind_ok.1 h
  obtain ⟨issuedAt, i₁₀, h₁₀, h⟩ := bind_ok.1 h
  obtain ⟨signature, i₁₁, h₁₁, h⟩ := bind_ok.1 h
  obtain ⟨rfl, rfl⟩ := pure_ok.1 h
  exact (Dec.option_ok (f := putWindow) (P := TimeOfDayWindow.InDay)
    (E := False) (fun hwindow => ⟨getWindow_ok hwindow, False.elim⟩) h₆).1

/-- An advertisement takes up to 219 bytes. -/
theorem length_encodeAdvertisement_le (a : CapabilityAdvertisement) :
    (encodeAdvertisement a).length ≤ 219 := by
  have hdomain : (Enc.domain advertisementDomain).length = 38 := by
    decide +kernel
  have hwindow : (Enc.option a.bandwidthCap.activeWindow putWindow).length ≤
      9 := by
    cases a.bandwidthCap.activeWindow with
    | none => decide
    | some window =>
        simp only [Enc.option, putWindow, Enc.u32, List.length_append,
          Enc.length_bigEndian, Enc.u8, List.length_cons, List.length_nil]
        decide
  simp only [encodeAdvertisement, putAdvertisement, List.length_append, hdomain,
    NetworkId.encode, PerNetworkIdentityId.encode, Enc.fixed, Bytes.length_eq,
    Enc.u64, Enc.i64, Enc.length_bigEndian, Enc.bool, Enc.u8,
    List.length_singleton]
  omega

/-- A signed advertisement is read back exactly when its window lies within a
day. -/
theorem decode_encodeAdvertisement_iff (hsigned : a.verify C = .ok ())
    (hkey : validKey a.node.key.bytes = true) :
    decodeAdvertisement C validKey (encodeAdvertisement a) = .ok a ↔
      a.InDay := by
  constructor
  · intro h
    obtain ⟨x, value, rest, -, hget, h⟩ := Dec.framed_ok h
    obtain ⟨u, mid, hcheck, h⟩ := bind_ok.1 h
    obtain ⟨rfl, -⟩ := pure_ok.1 h
    exact getAdvertisement_ok hget
  · intro hday
    have hlen := length_encodeAdvertisement_le a
    exact Dec.framed_reads (getAdvertisement_reads hkey hday)
      (Reads.step (Reads.check hsigned) (Reads.pure a))
      (lt_of_le_of_lt hlen (by decide))

end LedgerWire

open LedgerWire

/-! ## Responses -/

namespace LedgerResponse

variable {C : Crypto} {validKey : Bytes 32 → Bool}

theorem putDigestEntry_ne_nil (e : PerNetworkIdentityId × Timestamp) :
    putDigestEntry e ≠ [] :=
  List.append_ne_nil_of_left_ne_nil (PerNetworkIdentityId.encode_ne_nil _) _

theorem decode_digest {entries : List (PerNetworkIdentityId × Timestamp)}
    (hkeys : ∀ e ∈ entries, validKey e.1.key.bytes = true)
    (hlen : (digest entries).encode.length < 2 ^ 64) :
    decode C validKey (digest entries).encode = .ok (digest entries) := by
  refine Dec.framed_reads (Dec.variant_reads (Reads.map ?_)) (Reads.pure _) hlen
  refine Dec.seq_reads putDigestEntry_ne_nil fun e he => ?_
  exact Reads.bind (getIdentity_reads (hkeys e he))
    (Reads.map (Dec.i64_reads e.2.millis))

/-- A response with as many advertisements as one can have. -/
theorem length_encode_advertisements {ads : List CapabilityAdvertisement}
    (hads : ads.length ≤ maxAdvertisementsPerResponse) (truncated : Bool) :
    (advertisements ads truncated).encode.length < 2 ^ 64 := by
  have hdomain : (Enc.domain wireDomain).length = 40 := by decide +kernel
  have hsent : (ads.flatMap fun a =>
      Enc.bytes (encodeAdvertisement a)).length ≤ 227 * ads.length := by
    induction ads with
    | nil => exact le_rfl
    | cons a ads ih =>
        have hone := length_encodeAdvertisement_le a
        have hrest := ih ((Nat.le_succ _).trans hads)
        rw [List.flatMap_cons, List.length_append, Enc.bytes,
          List.length_append, Enc.u64, Enc.length_bigEndian, List.length_cons]
        omega
  rw [maxAdvertisementsPerResponse] at hads
  simp only [encode, put, List.length_append, hdomain, Enc.variant, Enc.u8,
    Enc.bool, Enc.seq, Enc.u64, Enc.length_bigEndian, List.length_singleton]
  omega

/-- A response is read back when each of its advertisements is. -/
theorem decode_advertisements {ads : List CapabilityAdvertisement}
    (hread : ∀ a ∈ ads,
      decodeAdvertisement C validKey (encodeAdvertisement a) = .ok a)
    (hads : ads.length ≤ maxAdvertisementsPerResponse) (truncated : Bool) :
    decode C validKey (advertisements ads truncated).encode =
      .ok (advertisements ads truncated) := by
  have hall : (ads.map encodeAdvertisement).mapM
      (decodeAdvertisement C validKey) = .ok ads := by
    clear hads
    induction ads with
    | nil => rfl
    | cons a ads ih =>
        rw [List.map_cons, List.mapM_cons, hread a List.mem_cons_self,
          ih fun b hb => hread b (List.mem_cons_of_mem a hb)]
        rfl
  have hlen := length_encode_advertisements hads truncated
  rw [encode, put, ← Dec.seq_map ads encodeAdvertisement Enc.bytes] at hlen ⊢
  simp only [List.append_assoc] at hlen ⊢
  refine Dec.framed_reads (Dec.variant_reads ?_) (Reads.pure _) hlen
  refine Reads.bind (Dec.seq_reads Enc.bytes_ne_nil fun b _ =>
    Dec.bytes_reads b) ?_
  exact Reads.step (Reads.ofExcept hall) (Reads.map (Dec.bool_reads truncated))

end LedgerResponse

/-! ## What a ledger serves -/

namespace CapabilityLedger

variable {C : Crypto} {validKey : Bytes 32 → Bool} {network : NetworkId}

/-- The ledger after insertions, each under the state of its time. -/
def inserted (C : Crypto) (network : NetworkId)
    (calls : List (CapabilityAdvertisement × GovernanceState)) :
    CapabilityLedger :=
  calls.foldl (fun ledger call => ledger.receive C call.2 call.1) (new network)

theorem inserted_snoc
    (calls : List (CapabilityAdvertisement × GovernanceState))
    (call : CapabilityAdvertisement × GovernanceState) :
    inserted C network (calls ++ [call]) =
      (inserted C network calls).receive C call.2 call.1 := by
  rw [inserted, List.foldl_append]
  rfl

theorem inserted_network
    (calls : List (CapabilityAdvertisement × GovernanceState)) :
    (inserted C network calls).network = network := by
  induction calls using List.reverseRecOn with
  | nil => rfl
  | append_singleton calls call ih =>
      rw [inserted_snoc, receive_network, ih]

/-- What a ledger holds was inserted and accepted. -/
theorem inserted_entry
    {calls : List (CapabilityAdvertisement × GovernanceState)}
    {node : PerNetworkIdentityId} {a : CapabilityAdvertisement}
    (h : (inserted C network calls).entries[node]? = some a) :
    ∃ call ∈ calls, call.1 = a ∧ call.1.Valid C network call.2 := by
  induction calls using List.reverseRecOn with
  | nil => simp [inserted, new] at h
  | append_singleton calls call ih =>
      have hearlier : (inserted C network calls).entries[node]? = some a →
          ∃ c ∈ calls ++ [call], c.1 = a ∧ c.1.Valid C network c.2 := by
        intro hold
        obtain ⟨c, hc, hca⟩ := ih hold
        exact ⟨c, List.mem_append_left _ hc, hca⟩
      rw [inserted_snoc] at h
      by_cases hvalid : call.1.Valid C (inserted C network calls).network call.2
      · rcases receive_entry h with hold | ⟨rfl, _⟩
        · exact hearlier hold
        · rw [inserted_network] at hvalid
          exact ⟨call, List.mem_append_right _ List.mem_cons_self, rfl, hvalid⟩
      · rw [receive_of_not_valid hvalid] at h
        exact hearlier h

/-- Everything a ledger reached by insertions answers is read by its peers as
it was sent, and every advertisement it accepted is, exactly when the windows
of those lie within a day. -/
theorem answers_readable_iff (C : Crypto) (validKey : Bytes 32 → Bool)
    (network : NetworkId)
    (calls : List (CapabilityAdvertisement × GovernanceState))
    (hkeys : ∀ key message signature,
      C.verify key message signature = true → validKey key.bytes = true)
    (hlen : ((inserted C network calls).answer .digest).encode.length <
      2 ^ 64) :
    ((∀ request, LedgerResponse.decode C validKey
          ((inserted C network calls).answer request).encode =
        .ok ((inserted C network calls).answer request)) ∧
      ∀ call ∈ calls, call.1.Valid C network call.2 →
        decodeAdvertisement C validKey (encodeAdvertisement call.1) =
          .ok call.1) ↔
      ∀ call ∈ calls, call.1.Valid C network call.2 → call.1.InDay := by
  have hkey : ∀ a : CapabilityAdvertisement, a.verify C = .ok () →
      validKey a.node.key.bytes = true := by
    intro a hsigned
    rw [CapabilityAdvertisement.verify] at hsigned
    split at hsigned
    · next hverify => exact hkeys _ _ _ hverify
    · cases hsigned
  constructor
  · intro h call hcall hvalid
    exact (decode_encodeAdvertisement_iff hvalid.signed
      (hkey _ hvalid.signed)).1 (h.2 call hcall hvalid)
  · intro hday
    have hread : ∀ call ∈ calls, call.1.Valid C network call.2 →
        decodeAdvertisement C validKey (encodeAdvertisement call.1) =
          .ok call.1 := by
      intro call hcall hvalid
      exact (decode_encodeAdvertisement_iff hvalid.signed
        (hkey _ hvalid.signed)).2 (hday call hcall hvalid)
    refine ⟨fun request => ?_, hread⟩
    cases request with
    | digest =>
        refine LedgerResponse.decode_digest (fun e he => ?_) hlen
        obtain ⟨a, ha, -⟩ := mem_digest_iff.1 he
        obtain ⟨call, -, rfl, hvalid⟩ := inserted_entry ha
        rw [← (inserted C network calls).keyed e.1 call.1 ha]
        exact hkey _ hvalid.signed
    | fetch nodes =>
        refine LedgerResponse.decode_advertisements (fun a ha => ?_)
          (List.length_take_le _ _) _
        obtain ⟨n, -, hn⟩ := List.mem_filterMap.1 (List.mem_of_mem_take ha)
        obtain ⟨call, hcall, rfl, hvalid⟩ := inserted_entry hn
        exact hread call hcall hvalid

/-- Member 1's offer for a part of the day. -/
def sampleWindowAd (startMinute endMinute : UInt16) :
    CapabilityAdvertisement :=
  { sampleAd 1 100 0 with
    bandwidthCap := ⟨0, 0, some ⟨startMinute, endMinute⟩⟩ }

theorem answers_readable_night :
    LedgerResponse.decode .sample (fun _ => true)
        ((inserted .sample Sample.network
          [(sampleWindowAd 1380 360, sampleState [1])]).answer
            (.fetch [Sample.identity 1])).encode =
      .ok ((inserted .sample Sample.network
        [(sampleWindowAd 1380 360, sampleState [1])]).answer
          (.fetch [Sample.identity 1])) := by
  refine ((answers_readable_iff .sample (fun _ => true) Sample.network
    [(sampleWindowAd 1380 360, sampleState [1])] (fun _ _ _ _ => rfl)
    (by decide +kernel)).2 ?_).1 _
  intro call hcall _ window hwindow
  rw [List.mem_singleton.1 hcall] at hwindow
  rw [← Option.some.inj hwindow]
  exact ⟨by decide, by decide⟩

/-- An offer from midnight to midnight is accepted, and no peer can read
it. -/
theorem whole_day_unreadable :
    ¬ ∀ (C : Crypto) (validKey : Bytes 32 → Bool) (network : NetworkId)
        (calls : List (CapabilityAdvertisement × GovernanceState)),
      (∀ key message signature,
        C.verify key message signature = true → validKey key.bytes = true) →
      ((inserted C network calls).answer .digest).encode.length < 2 ^ 64 →
      (∀ request, LedgerResponse.decode C validKey
          ((inserted C network calls).answer request).encode =
        .ok ((inserted C network calls).answer request)) ∧
      ∀ call ∈ calls, call.1.Valid C network call.2 →
        decodeAdvertisement C validKey (encodeAdvertisement call.1) =
          .ok call.1 := by
  intro h
  have hsigned : (sampleWindowAd 0 1440).verify .sample = .ok () := by
    decide +kernel
  have hmember : (sampleState [1]).isMember (sampleWindowAd 0 1440).node =
      true := by
    decide +kernel
  have hread := (h .sample (fun _ => true) Sample.network
    [(sampleWindowAd 0 1440, sampleState [1])] (fun _ _ _ _ => rfl)
    (by decide +kernel)).2 _ List.mem_cons_self ⟨hsigned, rfl, hmember⟩
  have hday := (decode_encodeAdvertisement_iff hsigned rfl).1 hread _ rfl
  exact absurd hday.2 (by decide)

end CapabilityLedger

end Intranet
