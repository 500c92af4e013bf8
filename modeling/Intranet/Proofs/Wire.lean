import Intranet.Proofs.Encoding
import Intranet.Ref.Wire

/-!
# The wire decoder against the encoder

Two facts for every `get_` function, as for the methods it is made of. On
what the encoder wrote for a value within the decoder's bounds it reads that
value back. And a value it returns is within the bounds; if the sequences of
the input were collected only when already in order, the input is moreover
the value's encoding. Both are walked through the layers once, for any way of
collecting, up to a whole entry.

The bounds are stated here on values, apart from the decoder: the relay list
and its addresses, the keys of the app policy, the name and size of an app
entry, the size of a commit, the number of voters and of ballots, and that
every public key is one the curve has.
-/

namespace Intranet

open Reader

/-- Takes a sequence only if it is already in strictly ascending order. -/
structure Collect.Strict (L : Collect) : Prop where
  set : ∀ {α : Type} [LinearOrder α] {items : List α} {s : BTreeSet α},
    L.set items = .ok s → s.toList = items
  map : ∀ {K V : Type} [LinearOrder K] {items : List (K × V)}
    {m : BTreeMap K V}, L.map items = .ok m → m.toList = items

namespace Wire

variable {validKey : Bytes 32 → Bool} {L : Collect} {i rest : List UInt8}

theorem unknown_ok {α : Type} {name : String} {d : UInt8}
    {r : α × List UInt8} : unknown name d i = .ok r ↔ False :=
  Dec.fail_ok

/-! ## Keys, hashes and names -/

theorem getKey_ok {key : VerifyingKey} :
    getKey validKey i = .ok (key, rest) ↔
      validKey key.bytes = true ∧ i = Enc.fixed key.bytes ++ rest :=
  Dec.checked_ok VerifyingKey.bytes (fun _ => rfl) fun _ => rfl

theorem getIdentity_ok {id : PerNetworkIdentityId} :
    getIdentity validKey i = .ok (id, rest) ↔
      validKey id.key.bytes = true ∧ i = id.encode ++ rest := by
  constructor
  · intro h
    obtain ⟨key, mid, hkey, h⟩ := bind_ok.1 h
    obtain ⟨rfl, rfl⟩ := pure_ok.1 h
    exact getKey_ok.1 hkey
  · intro h
    exact bind_ok.2 ⟨id.key, rest, getKey_ok.2 h, rfl⟩

theorem getDeviceKey_ok {device : DevicePublicKey} :
    getDeviceKey validKey i = .ok (device, rest) ↔
      validKey device.key.bytes = true ∧ i = device.encode ++ rest := by
  constructor
  · intro h
    obtain ⟨key, mid, hkey, h⟩ := bind_ok.1 h
    obtain ⟨rfl, rfl⟩ := pure_ok.1 h
    exact getKey_ok.1 hkey
  · intro h
    exact bind_ok.2 ⟨device.key, rest, getKey_ok.2 h, rfl⟩

theorem getIdentity_reads {id : PerNetworkIdentityId}
    (h : validKey id.key.bytes = true) :
    Reads (getIdentity validKey) id.encode id :=
  fun _ _ => getIdentity_ok.2 ⟨h, rfl⟩

theorem getDeviceKey_reads {device : DevicePublicKey}
    (h : validKey device.key.bytes = true) :
    Reads (getDeviceKey validKey) device.encode device :=
  fun _ _ => getDeviceKey_ok.2 ⟨h, rfl⟩

theorem getHash_ok {h : Hash} (hr : getHash i = .ok (h, rest)) :
    i = Enc.fixed h.bytes ++ rest :=
  Dec.wrapped_ok Hash.bytes Dec.fixed_ok.1 (fun _ => rfl) hr

theorem getHash_reads (h : Hash) : Reads getHash (Enc.fixed h.bytes) h :=
  (Dec.fixed_reads h.bytes).map

theorem getSignature_ok {s : Signature} (hr : getSignature i = .ok (s, rest)) :
    i = Enc.fixed s.bytes ++ rest :=
  Dec.wrapped_ok Signature.bytes Dec.fixed_ok.1 (fun _ => rfl) hr

theorem getSignature_reads (s : Signature) :
    Reads getSignature (Enc.fixed s.bytes) s :=
  (Dec.fixed_reads s.bytes).map

theorem getTimestamp_ok {v : Timestamp} (hr : getTimestamp i = .ok (v, rest)) :
    i = Enc.i64 v.millis ++ rest :=
  Dec.wrapped_ok Timestamp.millis Dec.i64_ok.1 (fun _ => rfl) hr

theorem getTimestamp_reads (v : Timestamp) :
    Reads getTimestamp (Enc.i64 v.millis) v :=
  (Dec.i64_reads v.millis).map

theorem getGroupId_ok {g : GroupId} (hr : getGroupId i = .ok (g, rest)) :
    i = Enc.str g.name ++ rest :=
  Dec.wrapped_ok GroupId.name Dec.str_ok (fun _ => rfl) hr

theorem getGroupId_reads (g : GroupId) :
    Reads getGroupId (Enc.str g.name) g :=
  (Dec.str_reads g.name).map

theorem getContentType_ok {t : ContentType}
    (hr : getContentType i = .ok (t, rest)) : i = Enc.str t.tag ++ rest :=
  Dec.wrapped_ok ContentType.tag Dec.str_ok (fun _ => rfl) hr

theorem getContentType_reads (t : ContentType) :
    Reads getContentType (Enc.str t.tag) t :=
  (Dec.str_reads t.tag).map

theorem getNetworkId_ok {n : NetworkId} (hr : getNetworkId i = .ok (n, rest)) :
    i = n.encode ++ rest :=
  Dec.wrapped_ok NetworkId.bytes Dec.fixed_ok.1 (fun _ => rfl) hr

theorem getNetworkId_reads (n : NetworkId) : Reads getNetworkId n.encode n :=
  (Dec.fixed_reads n.bytes).map

theorem getPointerId_ok {p : PointerId} (hr : getPointerId i = .ok (p, rest)) :
    i = Enc.fixed p.bytes ++ rest :=
  Dec.wrapped_ok PointerId.bytes Dec.fixed_ok.1 (fun _ => rfl) hr

theorem getPointerId_reads (p : PointerId) :
    Reads getPointerId (Enc.fixed p.bytes) p :=
  (Dec.fixed_reads p.bytes).map

/-! ## Sums

The discriminant is read first; on an encoding it is known, and the branch it
selects reads the fields. -/

theorem getCapability_reads (c : Capability) :
    Reads getCapability c.encode c := by
  cases c with
  | manageMembership group =>
      exact Dec.variant_reads (Reads.map (getGroupId_reads group))
  | publish contentType =>
      exact Dec.variant_reads (Reads.map (getContentType_reads contentType))
  | extension name => exact Dec.variant_reads (Reads.map (Dec.str_reads name))
  | _ => exact Dec.variant_pure_reads rfl

theorem getCapability_ok {c : Capability}
    (h : getCapability i = .ok (c, rest)) : i = c.encode ++ rest := by
  obtain ⟨d, mid, hd, h⟩ := bind_ok.1 h
  rw [Dec.variant_ok.1 hd]
  split at h
  case h_9 =>
    obtain ⟨group, mid', hg, h⟩ := bind_ok.1 h
    obtain ⟨rfl, rfl⟩ := pure_ok.1 h
    rw [getGroupId_ok hg]
    rfl
  case h_10 =>
    obtain ⟨contentType, mid', ht, h⟩ := bind_ok.1 h
    obtain ⟨rfl, rfl⟩ := pure_ok.1 h
    rw [getContentType_ok ht]
    rfl
  case h_11 =>
    obtain ⟨name, mid', hn, h⟩ := bind_ok.1 h
    obtain ⟨rfl, rfl⟩ := pure_ok.1 h
    rw [Dec.str_ok hn]
    rfl
  case h_12 => exact (unknown_ok.1 h).elim
  all_goals
    obtain ⟨rfl, rfl⟩ := pure_ok.1 h
    rfl

/-! ## Collections -/

theorem getSet_ok {α : Type} [LinearOrder α] {p : Reader WireError α}
    {f : α → List UInt8} {P : α → Prop}
    (hp : ∀ {i a rest}, p i = .ok (a, rest) → P a ∧ i = f a ++ rest)
    {s : BTreeSet α} (h : getSet L p i = .ok (s, rest)) :
    (∀ a ∈ s, P a) ∧ (L.Strict → i = Enc.seq s.toList f ++ rest) := by
  obtain ⟨items, mid, hitems, h⟩ := bind_ok.1 h
  obtain ⟨hset, rfl⟩ := ofExcept_ok.1 h
  obtain ⟨hall, hexact⟩ := Dec.seq_ok (E := True)
    (fun ha => ⟨(hp ha).1, fun _ => (hp ha).2⟩) hitems
  constructor
  · intro a ha
    rw [L.set_ok hset, BTreeSet.mem_ofList] at ha
    exact hall a ha
  · intro hL
    rw [hL.set hset]
    exact hexact trivial

theorem getSet_reads {α : Type} [LinearOrder α] {p : Reader WireError α}
    {f : α → List UInt8} {s : BTreeSet α} (hf : ∀ a, f a ≠ [])
    (hp : ∀ a ∈ s, Reads p (f a) a) :
    Reads (getSet L p) (Enc.seq s.toList f) s := by
  refine Reads.andThen (Dec.seq_reads hf fun a ha => ?_)
    (Reads.ofExcept (L.set_toList s))
  exact hp a (Std.ExtTreeSet.mem_toList.1 ha)

theorem getMap_ok {K V : Type} [LinearOrder K] {p : Reader WireError (K × V)}
    {f : K × V → List UInt8} {P : K × V → Prop}
    (hp : ∀ {i a rest}, p i = .ok (a, rest) → P a ∧ i = f a ++ rest)
    {m : BTreeMap K V} (h : getMap L p i = .ok (m, rest)) :
    (∀ k ∈ m, ∃ v, P (k, v)) ∧ (L.Strict → i = Enc.seq m.toList f ++ rest) := by
  obtain ⟨items, mid, hitems, h⟩ := bind_ok.1 h
  obtain ⟨hmap, rfl⟩ := ofExcept_ok.1 h
  obtain ⟨hall, hexact⟩ := Dec.seq_ok (E := True)
    (fun ha => ⟨(hp ha).1, fun _ => (hp ha).2⟩) hitems
  constructor
  · intro k hk
    rw [L.map_ok hmap, Std.ExtTreeMap.mem_ofList, List.contains_iff_mem,
      List.mem_map] at hk
    obtain ⟨⟨key, v⟩, hv, rfl⟩ := hk
    exact ⟨v, hall _ hv⟩
  · intro hL
    rw [hL.map hmap]
    exact hexact trivial

theorem getMap_reads {K V : Type} [LinearOrder K]
    {p : Reader WireError (K × V)} {f : K × V → List UInt8}
    {m : BTreeMap K V} (hf : ∀ a, f a ≠ [])
    (hp : ∀ a : K × V, a.1 ∈ m → Reads p (f a) a) :
    Reads (getMap L p) (Enc.seq m.toList f) m := by
  refine Reads.andThen (Dec.seq_reads hf fun a ha => ?_)
    (Reads.ofExcept (L.map_toList m))
  refine hp a ((BTreeMap.mem_iff_exists _ _).2 ⟨a.2, ?_⟩)
  exact Std.ExtTreeMap.mem_toList_iff_getElem?_eq_some.1 ha

theorem getCapabilitySet_ok {c : CapabilitySet}
    (h : getCapabilitySet L i = .ok (c, rest)) :
    L.Strict → i = c.encode ++ rest := by
  intro hL
  obtain ⟨d, mid, hd, h⟩ := bind_ok.1 h
  rw [Dec.variant_ok.1 hd]
  split at h
  · obtain ⟨rfl, rfl⟩ := pure_ok.1 h
    rfl
  · obtain ⟨set, mid', hset, h⟩ := bind_ok.1 h
    obtain ⟨rfl, rfl⟩ := pure_ok.1 h
    obtain ⟨-, hexact⟩ := getSet_ok (P := fun _ => True)
      (fun h => ⟨trivial, getCapability_ok h⟩) hset
    rw [hexact hL]
    rfl
  · exact (unknown_ok.1 h).elim

theorem getCapabilitySet_reads (c : CapabilitySet) :
    Reads (getCapabilitySet L) c.encode c := by
  cases c with
  | all => exact Dec.variant_pure_reads rfl
  | explicit set =>
      refine Dec.variant_reads (Reads.map ?_)
      exact getSet_reads Capability.encode_ne_nil fun c _ =>
        getCapability_reads c

/-! ## Policy -/

theorem getAdmissionMode_ok {m : AdmissionMode}
    (h : getAdmissionMode i = .ok (m, rest)) : i = m.encode ++ rest := by
  obtain ⟨d, mid, hd, h⟩ := bind_ok.1 h
  rw [Dec.variant_ok.1 hd]
  split at h
  case h_3 => exact (unknown_ok.1 h).elim
  all_goals
    obtain ⟨rfl, rfl⟩ := pure_ok.1 h
    rfl

theorem getAdmissionMode_reads (m : AdmissionMode) :
    Reads getAdmissionMode m.encode m := by
  cases m <;> exact Dec.variant_pure_reads rfl

theorem getGovernanceModel_ok {m : GovernanceModel}
    (h : getGovernanceModel i = .ok (m, rest)) : i = m.encode ++ rest := by
  obtain ⟨d, mid, hd, h⟩ := bind_ok.1 h
  rw [Dec.variant_ok.1 hd]
  split at h
  · obtain ⟨rfl, rfl⟩ := pure_ok.1 h
    rfl
  · obtain ⟨electorate, i₁, h₁, h⟩ := bind_ok.1 h
    obtain ⟨quorum, i₂, h₂, h⟩ := bind_ok.1 h
    obtain ⟨window, i₃, h₃, h⟩ := bind_ok.1 h
    obtain ⟨rfl, rfl⟩ := pure_ok.1 h
    rw [getGroupId_ok h₁, Dec.u32_ok.1 h₂, Dec.i64_ok.1 h₃]
    simp only [GovernanceModel.encode, List.append_assoc]
  · exact (unknown_ok.1 h).elim

theorem getGovernanceModel_reads (m : GovernanceModel) :
    Reads getGovernanceModel m.encode m := by
  cases m with
  | capabilityHolders => exact Dec.variant_pure_reads rfl
  | memberVote electorate quorum windowMillis =>
      refine Dec.variant_reads (Reads.bind (getGroupId_reads electorate) ?_)
      exact Reads.bind (Dec.u32_reads quorum) (Reads.map (Dec.i64_reads windowMillis))

theorem getHistoryAccess_ok {a : HistoryAccess}
    (h : getHistoryAccess i = .ok (a, rest)) : i = a.encode ++ rest := by
  obtain ⟨d, mid, hd, h⟩ := bind_ok.1 h
  rw [Dec.variant_ok.1 hd]
  split at h
  case h_3 => exact (unknown_ok.1 h).elim
  all_goals
    obtain ⟨rfl, rfl⟩ := pure_ok.1 h
    rfl

theorem getHistoryAccess_reads (a : HistoryAccess) :
    Reads getHistoryAccess a.encode a := by
  cases a <;> exact Dec.variant_pure_reads rfl

theorem getTier_ok {tier : Tier} (h : getTier i = .ok (tier, rest)) :
    i = tier.encode ++ rest := by
  obtain ⟨d, mid, hd, h⟩ := bind_ok.1 h
  rw [Dec.u8_ok.1 hd]
  split at h
  case h_3 => exact (unknown_ok.1 h).elim
  all_goals
    obtain ⟨rfl, rfl⟩ := pure_ok.1 h
    rfl

theorem getTier_reads (tier : Tier) : Reads getTier tier.encode tier := by
  cases tier <;> exact Dec.variant_pure_reads rfl

theorem getExtension_ok {e : String × Tier}
    (h : getExtension i = .ok (e, rest)) :
    i = NetworkPolicy.encodeExtension e ++ rest := by
  obtain ⟨name, i₁, h₁, h⟩ := bind_ok.1 h
  obtain ⟨tier, i₂, h₂, h⟩ := bind_ok.1 h
  obtain ⟨rfl, rfl⟩ := pure_ok.1 h
  rw [Dec.str_ok h₁, getTier_ok h₂, NetworkPolicy.encodeExtension,
    List.append_assoc]

theorem getExtension_reads (e : String × Tier) :
    Reads getExtension (NetworkPolicy.encodeExtension e) e :=
  Reads.bind (Dec.str_reads e.1) (Reads.map (getTier_reads e.2))

theorem getPolicyValue_ok {v : PolicyValue}
    (h : getPolicyValue i = .ok (v, rest)) : i = v.encode ++ rest := by
  obtain ⟨d, mid, hd, h⟩ := bind_ok.1 h
  rw [Dec.variant_ok.1 hd]
  split at h
  · obtain ⟨v, i₁, h₁, h⟩ := bind_ok.1 h
    obtain ⟨rfl, rfl⟩ := pure_ok.1 h
    rw [Dec.i64_ok.1 h₁]
    rfl
  · obtain ⟨v, i₁, h₁, h⟩ := bind_ok.1 h
    obtain ⟨rfl, rfl⟩ := pure_ok.1 h
    rw [Dec.str_ok h₁]
    rfl
  · obtain ⟨v, i₁, h₁, h⟩ := bind_ok.1 h
    obtain ⟨rfl, rfl⟩ := pure_ok.1 h
    rw [Dec.bool_ok.1 h₁]
    rfl
  · exact (unknown_ok.1 h).elim

theorem getPolicyValue_reads (v : PolicyValue) :
    Reads getPolicyValue v.encode v := by
  cases v with
  | int v => exact Dec.variant_reads (Reads.map (Dec.i64_reads v))
  | text v => exact Dec.variant_reads (Reads.map (Dec.str_reads v))
  | flag v => exact Dec.variant_reads (Reads.map (Dec.bool_reads v))

theorem getAppPolicyItem_ok {e : String × PolicyValue}
    (h : getAppPolicyItem i = .ok (e, rest)) :
    isValidAppPolicyKey e.1 = true ∧
      i = NetworkPolicy.encodeAppPolicy e ++ rest := by
  obtain ⟨key, i₁, h₁, h⟩ := bind_ok.1 h
  obtain ⟨u, i₂, hcheck, h⟩ := bind_ok.1 h
  obtain ⟨hvalid, rfl⟩ := check_ok.1 hcheck
  obtain ⟨value, i₃, h₃, h⟩ := bind_ok.1 h
  obtain ⟨rfl, rfl⟩ := pure_ok.1 h
  refine ⟨hvalid, ?_⟩
  rw [Dec.str_ok h₁, getPolicyValue_ok h₃, NetworkPolicy.encodeAppPolicy,
    List.append_assoc]

theorem getAppPolicyItem_reads {e : String × PolicyValue}
    (h : isValidAppPolicyKey e.1 = true) :
    Reads getAppPolicyItem (NetworkPolicy.encodeAppPolicy e) e :=
  Reads.bind (Dec.str_reads e.1)
    (Reads.step (Reads.check h) (Reads.map (getPolicyValue_reads e.2)))

theorem getRelayAddress_ok {address : String}
    (h : getRelayAddress i = .ok (address, rest)) :
    address.utf8ByteSize ≤ maxRelayAddressBytes ∧
      i = Enc.str address ++ rest := by
  obtain ⟨read, i₁, h₁, h⟩ := bind_ok.1 h
  obtain ⟨u, i₂, hcheck, h⟩ := bind_ok.1 h
  obtain ⟨hsize, rfl⟩ := check_ok.1 hcheck
  obtain ⟨rfl, rfl⟩ := pure_ok.1 h
  exact ⟨hsize, Dec.str_ok h₁⟩

theorem getRelayAddress_reads {address : String}
    (h : address.utf8ByteSize ≤ maxRelayAddressBytes) :
    Reads getRelayAddress (Enc.str address) address :=
  Reads.andThen (Dec.str_reads address)
    (Reads.step (Reads.check h) (Reads.pure address))

end Wire

/-- A policy the decoder can read: namespaced app policy keys, few relays and
short relay addresses. -/
structure NetworkPolicy.InBounds (p : NetworkPolicy) : Prop where
  appPolicy : ∀ key ∈ p.appPolicy, isValidAppPolicyKey key = true
  relays : p.bootstrapRelays.length ≤ maxBootstrapRelays
  addresses : ∀ address ∈ p.bootstrapRelays,
    address.utf8ByteSize ≤ maxRelayAddressBytes

namespace Wire

variable {validKey : Bytes 32 → Bool} {L : Collect} {i rest : List UInt8}

theorem getPolicy_ok {p : NetworkPolicy} (h : getPolicy L i = .ok (p, rest)) :
    p.InBounds ∧ (L.Strict → i = p.encode ++ rest) := by
  obtain ⟨admission, i₁, h₁, h⟩ := bind_ok.1 h
  obtain ⟨model, i₂, h₂, h⟩ := bind_ok.1 h
  obtain ⟨history, i₃, h₃, h⟩ := bind_ok.1 h
  obtain ⟨allowlist, i₄, h₄, h⟩ := bind_ok.1 h
  obtain ⟨extensions, i₅, h₅, h⟩ := bind_ok.1 h
  obtain ⟨appPolicy, i₆, h₆, h⟩ := bind_ok.1 h
  obtain ⟨relays, i₇, h₇, h⟩ := bind_ok.1 h
  obtain ⟨u, i₈, hcount, h⟩ := bind_ok.1 h
  obtain ⟨hrelays, rfl⟩ := check_ok.1 hcount
  obtain ⟨k, i₉, h₉, h⟩ := bind_ok.1 h
  obtain ⟨t, i₁₀, h₁₀, h⟩ := bind_ok.1 h
  obtain ⟨factor, i₁₁, h₁₁, h⟩ := bind_ok.1 h
  obtain ⟨u, i₁₂, hfactor, h⟩ := bind_ok.1 h
  obtain ⟨hfits, rfl⟩ := check_ok.1 hfactor
  obtain ⟨mesh, i₁₃, h₁₃, h⟩ := bind_ok.1 h
  obtain ⟨chunk, i₁₄, h₁₄, h⟩ := bind_ok.1 h
  obtain ⟨rfl, rfl⟩ := pure_ok.1 h
  obtain ⟨-, hallow⟩ := getSet_ok (P := fun _ => True)
    (fun h => ⟨trivial, getContentType_ok h⟩) h₄
  obtain ⟨-, hext⟩ := getMap_ok (P := fun _ => True)
    (fun h => ⟨trivial, getExtension_ok h⟩) h₅
  obtain ⟨hkeys, happ⟩ :=
    getMap_ok (P := fun e => isValidAppPolicyKey e.1 = true)
      (fun h => getAppPolicyItem_ok h) h₆
  obtain ⟨haddress, hseq⟩ := Dec.seq_ok (E := True)
    (P := fun a => a.utf8ByteSize ≤ maxRelayAddressBytes)
    (fun h => ⟨(getRelayAddress_ok h).1, fun _ => (getRelayAddress_ok h).2⟩) h₇
  refine ⟨⟨?_, hrelays, haddress⟩, fun hL => ?_⟩
  · intro key hkey
    obtain ⟨v, hv⟩ := hkeys key hkey
    exact hv
  · rw [getAdmissionMode_ok h₁, getGovernanceModel_ok h₂,
      getHistoryAccess_ok h₃, hallow hL, hext hL, happ hL, hseq trivial,
      Dec.u32_ok.1 h₉, Dec.i64_ok.1 h₁₀, Dec.u32_ok.1 h₁₁, Dec.u8_ok.1 h₁₃,
      Dec.u32_ok.1 h₁₄, NetworkPolicy.encode_eq]
    have hback : factor.toUInt16.toUInt32 = factor := by
      rw [← UInt32.toNat_inj]
      simp only [UInt16.toNat_toUInt32, UInt32.toNat_toUInt16]
      exact Nat.mod_eq_of_lt hfits
    simp only [hback, List.append_assoc, Enc.u8, List.cons_append,
      List.nil_append]

theorem getPolicy_reads {p : NetworkPolicy} (h : p.InBounds) :
    Reads (getPolicy L) p.encode p := by
  rw [NetworkPolicy.encode_eq]
  refine Reads.bind (getAdmissionMode_reads p.admissionMode) ?_
  refine Reads.bind (getGovernanceModel_reads p.governanceModel) ?_
  refine Reads.bind (getHistoryAccess_reads p.historyAccess) ?_
  refine Reads.bind (getSet_reads (fun t => Enc.str_ne_nil t.tag) fun t _ =>
    getContentType_reads t) ?_
  refine Reads.bind (getMap_reads Enc.pair_ne_nil fun e _ =>
    getExtension_reads e) ?_
  refine Reads.bind (getMap_reads Enc.pair_ne_nil fun e he =>
    getAppPolicyItem_reads (h.appPolicy e.1 he)) ?_
  refine Reads.bind (Dec.seq_reads Enc.str_ne_nil fun a ha =>
    getRelayAddress_reads (h.addresses a ha)) ?_
  refine Reads.step (Reads.check h.relays) ?_
  refine Reads.bind (Dec.u32_reads p.finality.k) ?_
  refine Reads.bind (Dec.i64_reads p.finality.tMillis) ?_
  refine Reads.bind (Dec.u32_reads p.replicationFactor.toUInt32) ?_
  refine Reads.step (Reads.check ?_) ?_
  · rw [UInt16.toNat_toUInt32]
    exact p.replicationFactor.toNat_lt
  refine Reads.bind (Dec.u8_reads p.meshRelayThreshold) ?_
  rw [UInt16.toUInt16_toUInt32]
  exact Reads.map (Dec.u32_reads p.targetChunkSize)

end Wire

/-! ## Votes and bodies -/

section Bounds

variable (validKey : Bytes 32 → Bool)

/-- Few enough voters, every one with a key of the curve. -/
structure VoteProposal.InBounds (p : VoteProposal) : Prop where
  electorate : p.electorateSnapshot.size ≤ maxElectorate
  keys : ∀ id ∈ p.electorateSnapshot, validKey id.key.bytes = true

/-- Few enough ballots, every one by a voter with a key of the curve. -/
structure QuorumCertificate.InBounds (c : QuorumCertificate) : Prop where
  ballots : c.ballots.length ≤ maxBallots
  keys : ∀ b ∈ c.ballots, validKey b.voter.key.bytes = true

/-- What the decoder asks of a body. -/
def EntryBody.InBounds : EntryBody → Prop
  | .genesis _ policy _ => policy.InBounds
  | .policyChange policy => policy.InBounds
  | .membershipChange _ identity action =>
      validKey identity.key.bytes = true ∧
        ∀ invite, action = .add (some invite) →
          validKey invite.issuer.key.bytes = true
  | .epochRotation _ commit => commit.length ≤ maxCommitBytes
  | .voteProposed proposal => proposal.InBounds validKey
  | .voteOutcome certificate => certificate.InBounds validKey
  | .deviceEnrollment cert =>
      validKey cert.identity.key.bytes = true ∧
        validKey cert.device.key.bytes = true
  | .deviceRevocation revocation =>
      validKey revocation.identity.key.bytes = true ∧
        validKey revocation.device.key.bytes = true
  | .appEntry space kind _ payload =>
      isValidAppEntryName space kind = true ∧
        payload.length ≤ maxAppEntryPayloadBytes
  | .defineGroup .. | .contentTypePolicy _ | .moderation _
  | .appNameRegistration .. => True

/-- What the decoder asks of an entry, its signature apart. -/
structure LogEntry.InBounds (e : LogEntry) : Prop where
  author : validKey e.author.key.bytes = true
  body : e.body.InBounds validKey

end Bounds

namespace Wire

variable {validKey : Bytes 32 → Bool} {L : Collect} {i rest : List UInt8}

theorem getProposal_ok {p : VoteProposal}
    (h : getProposal L validKey i = .ok (p, rest)) :
    p.InBounds validKey ∧ (L.Strict → i = p.encode ++ rest) := by
  obtain ⟨subject, i₁, h₁, h⟩ := bind_ok.1 h
  obtain ⟨electorate, i₂, h₂, h⟩ := bind_ok.1 h
  obtain ⟨voters, i₃, h₃, h⟩ := bind_ok.1 h
  obtain ⟨u, i₄, hcheck, h⟩ := bind_ok.1 h
  obtain ⟨hcount, rfl⟩ := check_ok.1 hcheck
  obtain ⟨snapshot, i₅, hcollect, h⟩ := bind_ok.1 h
  obtain ⟨hset, rfl⟩ := ofExcept_ok.1 hcollect
  obtain ⟨ref, i₆, h₆, h⟩ := bind_ok.1 h
  obtain ⟨close, i₇, h₇, h⟩ := bind_ok.1 h
  obtain ⟨quorum, i₈, h₈, h⟩ := bind_ok.1 h
  obtain ⟨rfl, rfl⟩ := pure_ok.1 h
  obtain ⟨hkeys, hseq⟩ := Dec.seq_ok (E := True)
    (P := fun id : PerNetworkIdentityId => validKey id.key.bytes = true)
    (fun h => ⟨(getIdentity_ok.1 h).1, fun _ => (getIdentity_ok.1 h).2⟩) h₃
  refine ⟨⟨?_, ?_⟩, fun hL => ?_⟩
  · rw [L.set_ok hset]
    exact Std.ExtTreeSet.size_ofList_le.trans hcount
  · intro id hid
    rw [L.set_ok hset, BTreeSet.mem_ofList] at hid
    exact hkeys id hid
  · rw [getHash_ok h₁, getGroupId_ok h₂, hseq trivial, getHash_ok h₆,
      getTimestamp_ok h₇, Dec.u32_ok.1 h₈, ← hL.set hset]
    simp only [VoteProposal.encode, List.append_assoc]

theorem getProposal_reads {p : VoteProposal} (h : p.InBounds validKey) :
    Reads (getProposal L validKey) p.encode p := by
  simp only [VoteProposal.encode, List.append_assoc]
  refine Reads.bind (getHash_reads p.subject) ?_
  refine Reads.bind (getGroupId_reads p.electorate) ?_
  refine Reads.bind (Dec.seq_reads PerNetworkIdentityId.encode_ne_nil
    fun id hid => getIdentity_reads
      (h.keys id (Std.ExtTreeSet.mem_toList.1 hid))) ?_
  refine Reads.step (Reads.check ?_) ?_
  · rw [Std.ExtTreeSet.length_toList]
    exact h.electorate
  refine Reads.step (Reads.ofExcept (L.set_toList p.electorateSnapshot)) ?_
  refine Reads.bind (getHash_reads p.snapshotRef) ?_
  refine Reads.bind (getTimestamp_reads p.closeTime) ?_
  exact Reads.map (Dec.u32_reads p.quorum)

theorem getBallot_ok {b : Ballot}
    (h : getBallot validKey i = .ok (b, rest)) :
    validKey b.voter.key.bytes = true ∧ i = b.encode ++ rest := by
  obtain ⟨voteId, i₁, h₁, h⟩ := bind_ok.1 h
  obtain ⟨voter, i₂, h₂, h⟩ := bind_ok.1 h
  obtain ⟨approve, i₃, h₃, h⟩ := bind_ok.1 h
  obtain ⟨castAt, i₄, h₄, h⟩ := bind_ok.1 h
  obtain ⟨signature, i₅, h₅, h⟩ := bind_ok.1 h
  obtain ⟨rfl, rfl⟩ := pure_ok.1 h
  obtain ⟨hkey, hvoter⟩ := getIdentity_ok.1 h₂
  refine ⟨hkey, ?_⟩
  rw [getHash_ok h₁, hvoter, Dec.bool_ok.1 h₃, getTimestamp_ok h₄,
    getSignature_ok h₅]
  simp only [Ballot.encode, List.append_assoc]

theorem getBallot_reads {b : Ballot}
    (h : validKey b.voter.key.bytes = true) :
    Reads (getBallot validKey) b.encode b := by
  simp only [Ballot.encode, List.append_assoc]
  refine Reads.bind (getHash_reads b.voteId) ?_
  refine Reads.bind (getIdentity_reads h) ?_
  refine Reads.bind (Dec.bool_reads b.approve) ?_
  refine Reads.bind (getTimestamp_reads b.castAt) ?_
  exact Reads.map (getSignature_reads b.signature)

theorem getCertificate_ok {c : QuorumCertificate}
    (h : getCertificate validKey i = .ok (c, rest)) :
    c.InBounds validKey ∧ i = c.encode ++ rest := by
  obtain ⟨voteId, i₁, h₁, h⟩ := bind_ok.1 h
  obtain ⟨ballots, i₂, h₂, h⟩ := bind_ok.1 h
  obtain ⟨u, i₃, hcheck, h⟩ := bind_ok.1 h
  obtain ⟨hcount, rfl⟩ := check_ok.1 hcheck
  obtain ⟨root, i₄, h₄, h⟩ := bind_ok.1 h
  obtain ⟨rfl, rfl⟩ := pure_ok.1 h
  obtain ⟨hkeys, hseq⟩ := Dec.seq_ok (E := True)
    (P := fun b : Ballot => validKey b.voter.key.bytes = true)
    (fun h => ⟨(getBallot_ok h).1, fun _ => (getBallot_ok h).2⟩) h₂
  refine ⟨⟨hcount, hkeys⟩, ?_⟩
  rw [getHash_ok h₁, hseq trivial, getHash_ok h₄]
  simp only [QuorumCertificate.encode, List.append_assoc]

theorem getCertificate_reads {c : QuorumCertificate}
    (h : c.InBounds validKey) :
    Reads (getCertificate validKey) c.encode c := by
  simp only [QuorumCertificate.encode, List.append_assoc]
  refine Reads.bind (getHash_reads c.voteId) ?_
  refine Reads.bind (Dec.seq_reads Ballot.encode_ne_nil fun b hb =>
    getBallot_reads (h.keys b hb)) ?_
  refine Reads.step (Reads.check h.ballots) ?_
  exact Reads.map (getHash_reads c.merkleRoot)

theorem getInviteProvenance_ok {p : InviteProvenance}
    (h : getInviteProvenance validKey i = .ok (p, rest)) :
    validKey p.issuer.key.bytes = true ∧ i = p.encode ++ rest := by
  obtain ⟨inviteId, i₁, h₁, h⟩ := bind_ok.1 h
  obtain ⟨issuer, i₂, h₂, h⟩ := bind_ok.1 h
  obtain ⟨rfl, rfl⟩ := pure_ok.1 h
  obtain ⟨hkey, hissuer⟩ := getIdentity_ok.1 h₂
  refine ⟨hkey, ?_⟩
  rw [getHash_ok h₁, hissuer, InviteProvenance.encode, List.append_assoc]

theorem getInviteProvenance_reads {p : InviteProvenance}
    (h : validKey p.issuer.key.bytes = true) :
    Reads (getInviteProvenance validKey) p.encode p :=
  Reads.bind (getHash_reads p.inviteId) (Reads.map (getIdentity_reads h))

theorem getCascade_ok {c : Cascade} (h : getCascade i = .ok (c, rest)) :
    i = c.encode ++ rest := by
  obtain ⟨window, i₁, h₁, h⟩ := bind_ok.1 h
  obtain ⟨rfl, rfl⟩ := pure_ok.1 h
  obtain ⟨-, hexact⟩ := Dec.option_ok (E := True) (P := fun _ => True)
    (fun h => ⟨trivial, fun _ => Dec.i64_ok.1 h⟩) h₁
  exact hexact trivial

theorem getCascade_reads (c : Cascade) : Reads getCascade c.encode c :=
  Reads.map (Dec.option_reads fun w _ => Dec.i64_reads w)

theorem getMembershipAction_ok {a : MembershipAction}
    (h : getMembershipAction validKey i = .ok (a, rest)) :
    (∀ invite, a = .add (some invite) →
        validKey invite.issuer.key.bytes = true) ∧
      i = a.encode ++ rest := by
  obtain ⟨d, mid, hd, h⟩ := bind_ok.1 h
  rw [Dec.variant_ok.1 hd]
  split at h
  · obtain ⟨viaInvite, i₁, h₁, h⟩ := bind_ok.1 h
    obtain ⟨rfl, rfl⟩ := pure_ok.1 h
    obtain ⟨hkey, hexact⟩ := Dec.option_ok (E := True)
      (fun h => ⟨(getInviteProvenance_ok h).1,
        fun _ => (getInviteProvenance_ok h).2⟩) h₁
    constructor
    · intro invite hinvite
      cases hinvite
      exact hkey invite rfl
    · rw [hexact trivial]
      rfl
  · obtain ⟨cascade, i₁, h₁, h⟩ := bind_ok.1 h
    obtain ⟨rfl, rfl⟩ := pure_ok.1 h
    obtain ⟨-, hexact⟩ := Dec.option_ok (E := True) (P := fun _ => True)
      (fun h => ⟨trivial, fun _ => getCascade_ok h⟩) h₁
    constructor
    · intro invite hinvite
      cases hinvite
    · rw [hexact trivial]
      rfl
  · exact (unknown_ok.1 h).elim

theorem getMembershipAction_reads {a : MembershipAction}
    (h : ∀ invite, a = .add (some invite) →
      validKey invite.issuer.key.bytes = true) :
    Reads (getMembershipAction validKey) a.encode a := by
  cases a with
  | add viaInvite =>
      refine Dec.variant_reads (Reads.map (Dec.option_reads fun p hp => ?_))
      exact getInviteProvenance_reads (h p (by rw [hp]))
  | remove cascade =>
      exact Dec.variant_reads (Reads.map (Dec.option_reads fun c _ =>
        getCascade_reads c))

theorem getRotationReason_ok {r : RotationReason}
    (h : getRotationReason i = .ok (r, rest)) : i = r.encode ++ rest := by
  obtain ⟨d, mid, hd, h⟩ := bind_ok.1 h
  rw [Dec.u8_ok.1 hd]
  split at h
  case h_4 => exact (unknown_ok.1 h).elim
  all_goals
    obtain ⟨rfl, rfl⟩ := pure_ok.1 h
    rfl

theorem getRotationReason_reads (r : RotationReason) :
    Reads getRotationReason r.encode r := by
  cases r <;> exact Dec.variant_pure_reads rfl

theorem getModerationAction_ok {a : ModerationAction}
    (h : getModerationAction i = .ok (a, rest)) : i = a.encode ++ rest := by
  obtain ⟨d, mid, hd, h⟩ := bind_ok.1 h
  rw [Dec.u8_ok.1 hd]
  split at h
  case h_3 => exact (unknown_ok.1 h).elim
  all_goals
    obtain ⟨rfl, rfl⟩ := pure_ok.1 h
    rfl

theorem getModerationAction_reads (a : ModerationAction) :
    Reads getModerationAction a.encode a := by
  cases a <;> exact Dec.variant_pure_reads rfl

theorem getDeviceCertificate_ok {c : DeviceCertificate}
    (h : getDeviceCertificate validKey i = .ok (c, rest)) :
    (validKey c.identity.key.bytes = true ∧
      validKey c.device.key.bytes = true) ∧ i = c.encode ++ rest := by
  obtain ⟨network, i₁, h₁, h⟩ := bind_ok.1 h
  obtain ⟨identity, i₂, h₂, h⟩ := bind_ok.1 h
  obtain ⟨device, i₃, h₃, h⟩ := bind_ok.1 h
  obtain ⟨label, i₄, h₄, h⟩ := bind_ok.1 h
  obtain ⟨issuedAt, i₅, h₅, h⟩ := bind_ok.1 h
  obtain ⟨signature, i₆, h₆, h⟩ := bind_ok.1 h
  obtain ⟨rfl, rfl⟩ := pure_ok.1 h
  obtain ⟨hidentity, h₂⟩ := getIdentity_ok.1 h₂
  obtain ⟨hdevice, h₃⟩ := getDeviceKey_ok.1 h₃
  refine ⟨⟨hidentity, hdevice⟩, ?_⟩
  rw [getNetworkId_ok h₁, h₂, h₃, Dec.str_ok h₄, getTimestamp_ok h₅,
    getSignature_ok h₆]
  simp only [DeviceCertificate.encode, List.append_assoc]

theorem getDeviceCertificate_reads {c : DeviceCertificate}
    (hidentity : validKey c.identity.key.bytes = true)
    (hdevice : validKey c.device.key.bytes = true) :
    Reads (getDeviceCertificate validKey) c.encode c := by
  refine Reads.bind (getNetworkId_reads c.network) ?_
  refine Reads.bind (getIdentity_reads hidentity) ?_
  refine Reads.bind (getDeviceKey_reads hdevice) ?_
  refine Reads.bind (Dec.str_reads c.label) ?_
  refine Reads.bind (getTimestamp_reads c.issuedAt) ?_
  exact Reads.map (getSignature_reads c.signature)

theorem getDeviceRevocation_ok {r : DeviceCertificateRevocation}
    (h : getDeviceRevocation validKey i = .ok (r, rest)) :
    (validKey r.identity.key.bytes = true ∧
      validKey r.device.key.bytes = true) ∧ i = r.encode ++ rest := by
  obtain ⟨network, i₁, h₁, h⟩ := bind_ok.1 h
  obtain ⟨identity, i₂, h₂, h⟩ := bind_ok.1 h
  obtain ⟨device, i₃, h₃, h⟩ := bind_ok.1 h
  obtain ⟨revokedAt, i₄, h₄, h⟩ := bind_ok.1 h
  obtain ⟨signature, i₅, h₅, h⟩ := bind_ok.1 h
  obtain ⟨rfl, rfl⟩ := pure_ok.1 h
  obtain ⟨hidentity, h₂⟩ := getIdentity_ok.1 h₂
  obtain ⟨hdevice, h₃⟩ := getDeviceKey_ok.1 h₃
  refine ⟨⟨hidentity, hdevice⟩, ?_⟩
  rw [getNetworkId_ok h₁, h₂, h₃, getTimestamp_ok h₄, getSignature_ok h₅]
  simp only [DeviceCertificateRevocation.encode, List.append_assoc]

theorem getDeviceRevocation_reads {r : DeviceCertificateRevocation}
    (hidentity : validKey r.identity.key.bytes = true)
    (hdevice : validKey r.device.key.bytes = true) :
    Reads (getDeviceRevocation validKey) r.encode r := by
  refine Reads.bind (getNetworkId_reads r.network) ?_
  refine Reads.bind (getIdentity_reads hidentity) ?_
  refine Reads.bind (getDeviceKey_reads hdevice) ?_
  refine Reads.bind (getTimestamp_reads r.revokedAt) ?_
  exact Reads.map (getSignature_reads r.signature)

theorem getBody_reads {body : EntryBody} (h : body.InBounds validKey) :
    Reads (getBody L validKey) body.encode body := by
  rw [EntryBody.encode_eq]
  cases body with
  | genesis network policy everyoneCapabilities =>
      refine Dec.variant_reads (Reads.bind (getNetworkId_reads network) ?_)
      refine Reads.bind (getPolicy_reads h) (Reads.map ?_)
      exact getSet_reads Capability.encode_ne_nil fun c _ =>
        getCapability_reads c
  | defineGroup group capabilities =>
      refine Dec.variant_reads (Reads.bind (getGroupId_reads group) ?_)
      exact Reads.map (getCapabilitySet_reads capabilities)
  | membershipChange group identity action =>
      obtain ⟨hkey, hinvite⟩ := h
      refine Dec.variant_reads (Reads.bind (getGroupId_reads group) ?_)
      refine Reads.bind (getIdentity_reads hkey) ?_
      exact Reads.map (getMembershipAction_reads hinvite)
  | policyChange policy => exact Dec.variant_reads (Reads.map (getPolicy_reads h))
  | contentTypePolicy allowlist =>
      refine Dec.variant_reads (Reads.map ?_)
      exact getSet_reads (fun t => Enc.str_ne_nil t.tag) fun t _ =>
        getContentType_reads t
  | epochRotation reason commit =>
      refine Dec.variant_reads (Reads.bind (getRotationReason_reads reason) ?_)
      refine Reads.andThen (Dec.bytes_reads commit) ?_
      exact Reads.step (Reads.check h) (Reads.pure _)
  | voteProposed proposal =>
      exact Dec.variant_reads (Reads.map (getProposal_reads h))
  | voteOutcome certificate =>
      exact Dec.variant_reads (Reads.map (getCertificate_reads h))
  | deviceEnrollment cert =>
      exact Dec.variant_reads (Reads.map (getDeviceCertificate_reads h.1 h.2))
  | deviceRevocation revocation =>
      exact Dec.variant_reads (Reads.map (getDeviceRevocation_reads h.1 h.2))
  | moderation m =>
      refine Dec.variant_reads (Reads.bind (getModerationAction_reads m.action) ?_)
      exact Reads.map (getPointerId_reads m.targetPointerId)
  | appNameRegistration name appId =>
      refine Dec.variant_reads (Reads.bind (Dec.str_reads name.name) ?_)
      exact Reads.map (getPointerId_reads appId)
  | appEntry space kind required payload =>
      obtain ⟨hname, hsize⟩ := h
      refine Dec.variant_reads (Reads.bind (Dec.str_reads space) ?_)
      refine Reads.bind (Dec.str_reads kind) ?_
      refine Reads.step (Reads.check hname) ?_
      refine Reads.bind (getCapability_reads required) ?_
      refine Reads.andThen (Dec.bytes_reads payload) ?_
      exact Reads.step (Reads.check hsize) (Reads.pure _)

theorem getBody_ok {body : EntryBody}
    (h : getBody L validKey i = .ok (body, rest)) :
    body.InBounds validKey ∧ (L.Strict → i = body.encode ++ rest) := by
  obtain ⟨d, mid, hd, h⟩ := bind_ok.1 h
  rw [Dec.variant_ok.1 hd]
  split at h
  · obtain ⟨network, i₁, h₁, h⟩ := bind_ok.1 h
    obtain ⟨policy, i₂, h₂, h⟩ := bind_ok.1 h
    obtain ⟨held, i₃, h₃, h⟩ := bind_ok.1 h
    obtain ⟨rfl, rfl⟩ := pure_ok.1 h
    obtain ⟨hpolicy, hexact⟩ := getPolicy_ok h₂
    obtain ⟨-, hset⟩ := getSet_ok (P := fun _ => True)
      (fun h => ⟨trivial, getCapability_ok h⟩) h₃
    refine ⟨hpolicy, fun hL => ?_⟩
    rw [getNetworkId_ok h₁, hexact hL, hset hL, EntryBody.encode_eq]
    simp only [List.append_assoc]
  · obtain ⟨group, i₁, h₁, h⟩ := bind_ok.1 h
    obtain ⟨capabilities, i₂, h₂, h⟩ := bind_ok.1 h
    obtain ⟨rfl, rfl⟩ := pure_ok.1 h
    refine ⟨trivial, fun hL => ?_⟩
    rw [getGroupId_ok h₁, getCapabilitySet_ok h₂ hL, EntryBody.encode_eq]
    simp only [List.append_assoc]
  · obtain ⟨group, i₁, h₁, h⟩ := bind_ok.1 h
    obtain ⟨identity, i₂, h₂, h⟩ := bind_ok.1 h
    obtain ⟨action, i₃, h₃, h⟩ := bind_ok.1 h
    obtain ⟨rfl, rfl⟩ := pure_ok.1 h
    obtain ⟨hkey, h₂⟩ := getIdentity_ok.1 h₂
    obtain ⟨hinvite, h₃⟩ := getMembershipAction_ok h₃
    refine ⟨⟨hkey, hinvite⟩, fun _ => ?_⟩
    rw [getGroupId_ok h₁, h₂, h₃, EntryBody.encode_eq]
    simp only [List.append_assoc]
  · obtain ⟨policy, i₁, h₁, h⟩ := bind_ok.1 h
    obtain ⟨rfl, rfl⟩ := pure_ok.1 h
    obtain ⟨hpolicy, hexact⟩ := getPolicy_ok h₁
    refine ⟨hpolicy, fun hL => ?_⟩
    rw [hexact hL, EntryBody.encode_eq, List.append_assoc]
  · obtain ⟨allowlist, i₁, h₁, h⟩ := bind_ok.1 h
    obtain ⟨rfl, rfl⟩ := pure_ok.1 h
    obtain ⟨-, hset⟩ := getSet_ok (P := fun _ => True)
      (fun h => ⟨trivial, getContentType_ok h⟩) h₁
    refine ⟨trivial, fun hL => ?_⟩
    rw [hset hL, EntryBody.encode_eq, List.append_assoc]
  · obtain ⟨reason, i₁, h₁, h⟩ := bind_ok.1 h
    obtain ⟨commit, i₂, h₂, h⟩ := bind_ok.1 h
    obtain ⟨u, i₃, hcheck, h⟩ := bind_ok.1 h
    obtain ⟨hsize, rfl⟩ := check_ok.1 hcheck
    obtain ⟨rfl, rfl⟩ := pure_ok.1 h
    refine ⟨hsize, fun _ => ?_⟩
    rw [getRotationReason_ok h₁, Dec.bytes_ok h₂, EntryBody.encode_eq]
    simp only [List.append_assoc]
  · obtain ⟨proposal, i₁, h₁, h⟩ := bind_ok.1 h
    obtain ⟨rfl, rfl⟩ := pure_ok.1 h
    obtain ⟨hproposal, hexact⟩ := getProposal_ok h₁
    refine ⟨hproposal, fun hL => ?_⟩
    rw [hexact hL, EntryBody.encode_eq, List.append_assoc]
  · obtain ⟨certificate, i₁, h₁, h⟩ := bind_ok.1 h
    obtain ⟨rfl, rfl⟩ := pure_ok.1 h
    obtain ⟨hcertificate, hexact⟩ := getCertificate_ok h₁
    refine ⟨hcertificate, fun _ => ?_⟩
    rw [hexact, EntryBody.encode_eq, List.append_assoc]
  · obtain ⟨cert, i₁, h₁, h⟩ := bind_ok.1 h
    obtain ⟨rfl, rfl⟩ := pure_ok.1 h
    obtain ⟨hkeys, hexact⟩ := getDeviceCertificate_ok h₁
    refine ⟨hkeys, fun _ => ?_⟩
    rw [hexact, EntryBody.encode_eq, List.append_assoc]
  · obtain ⟨revocation, i₁, h₁, h⟩ := bind_ok.1 h
    obtain ⟨rfl, rfl⟩ := pure_ok.1 h
    obtain ⟨hkeys, hexact⟩ := getDeviceRevocation_ok h₁
    refine ⟨hkeys, fun _ => ?_⟩
    rw [hexact, EntryBody.encode_eq, List.append_assoc]
  · obtain ⟨action, i₁, h₁, h⟩ := bind_ok.1 h
    obtain ⟨target, i₂, h₂, h⟩ := bind_ok.1 h
    obtain ⟨rfl, rfl⟩ := pure_ok.1 h
    refine ⟨trivial, fun _ => ?_⟩
    rw [getModerationAction_ok h₁, getPointerId_ok h₂, EntryBody.encode_eq]
    simp only [ModerationEntry.encode, List.append_assoc]
  · obtain ⟨name, i₁, h₁, h⟩ := bind_ok.1 h
    obtain ⟨appId, i₂, h₂, h⟩ := bind_ok.1 h
    obtain ⟨rfl, rfl⟩ := pure_ok.1 h
    refine ⟨trivial, fun _ => ?_⟩
    rw [Dec.str_ok h₁, getPointerId_ok h₂, EntryBody.encode_eq]
    simp only [List.append_assoc]
  · obtain ⟨space, i₁, h₁, h⟩ := bind_ok.1 h
    obtain ⟨kind, i₂, h₂, h⟩ := bind_ok.1 h
    obtain ⟨u, i₃, hcheck, h⟩ := bind_ok.1 h
    obtain ⟨hname, rfl⟩ := check_ok.1 hcheck
    obtain ⟨required, i₄, h₄, h⟩ := bind_ok.1 h
    obtain ⟨payload, i₅, h₅, h⟩ := bind_ok.1 h
    obtain ⟨u, i₆, hcheck, h⟩ := bind_ok.1 h
    obtain ⟨hsize, rfl⟩ := check_ok.1 hcheck
    obtain ⟨rfl, rfl⟩ := pure_ok.1 h
    refine ⟨⟨hname, hsize⟩, fun _ => ?_⟩
    rw [Dec.str_ok h₁, Dec.str_ok h₂, getCapability_ok h₄, Dec.bytes_ok h₅,
      EntryBody.encode_eq]
    simp only [List.append_assoc]
  · exact (unknown_ok.1 h).elim

/-! ## Entries -/

theorem getEntry_reads {e : LogEntry} (h : e.InBounds validKey) :
    Reads (getEntry L validKey) (putEntry e) e := by
  simp only [putEntry, List.append_assoc]
  refine Reads.bind (Dec.option_reads fun h _ => getHash_reads h) ?_
  refine Reads.bind (getTimestamp_reads e.timestamp) ?_
  refine Reads.bind (getIdentity_reads h.author) ?_
  refine Reads.bind (getBody_reads h.body) ?_
  exact Reads.map (getSignature_reads e.signature)

theorem getEntry_ok {e : LogEntry}
    (h : getEntry L validKey i = .ok (e, rest)) :
    e.InBounds validKey ∧ (L.Strict → i = putEntry e ++ rest) := by
  obtain ⟨parent, i₁, h₁, h⟩ := bind_ok.1 h
  obtain ⟨timestamp, i₂, h₂, h⟩ := bind_ok.1 h
  obtain ⟨author, i₃, h₃, h⟩ := bind_ok.1 h
  obtain ⟨body, i₄, h₄, h⟩ := bind_ok.1 h
  obtain ⟨signature, i₅, h₅, h⟩ := bind_ok.1 h
  obtain ⟨rfl, rfl⟩ := pure_ok.1 h
  obtain ⟨-, hparent⟩ := Dec.option_ok (E := True) (P := fun _ => True)
    (fun h => ⟨trivial, fun _ => getHash_ok h⟩) h₁
  obtain ⟨hauthor, h₃⟩ := getIdentity_ok.1 h₃
  obtain ⟨hbody, hexact⟩ := getBody_ok h₄
  refine ⟨⟨hauthor, hbody⟩, fun hL => ?_⟩
  rw [hparent trivial, getTimestamp_ok h₂, h₃, hexact hL, getSignature_ok h₅]
  simp only [putEntry, List.append_assoc]

end Wire

end Intranet
